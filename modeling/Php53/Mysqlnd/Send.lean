import Php53.Mysqlnd.Packets
import Php53.Reasoning.ByteArea

/-!
# Send — `mysqlnd_net::send`

The caller leaves four bytes in front of the payload.  The header of every packet is stored in the
four bytes in front of its part of the payload, that is over the end of the part sent before it.
-/

namespace Php53.Mysqlnd

open Reasoning

/-- The fields of `MYSQLND_NET` that `send` uses. -/
structure MysqlndNet where
  compressed : Bool
  packetNo : UInt8
  compressedEnvelopePacketNo : UInt8
  deriving DecidableEq

structure SendState where
  net : MysqlndNet
  buf : List UInt8
  safeStorage : List UInt8
  compressBuf : List UInt8
  /-- The buffers that `network_write` has sent. -/
  writes : List (List UInt8)
  packetsSent : Nat
  deriving DecidableEq

/-- `network_write`: how many bytes of the buffer are sent, behind what was sent before. -/
abbrev NetworkWrite := List (List UInt8) → List UInt8 → Nat

/-- `COPY_HEADER((safe_storage), (buffer))`, where `buffer` points into `buf`. -/
def SendState.copyHeader (s : SendState) (p : Nat) : Option SendState := do
  let safeStorage ← loadAt s.buf p mysqlndHeaderSize
  return { s with safeStorage }

def SendState.storeHeaderSize (s : SendState) (p : Nat) : Option SendState := s.copyHeader p

/-- `RESTORE_HEADER_SIZE(buffer, safe_storage)` is `STORE_HEADER_SIZE((safe_storage), (buffer))`,
which copies from the buffer. -/
def SendState.restoreHeaderSize (s : SendState) (p : Nat) : Option SendState := s.storeHeaderSize p

/-- `int3store(p, to_be_sent); int1store(p + 3, net->packet_no);` -/
def SendState.putHeader (s : SendState) (p toBeSent : Nat) : Option SendState := do
  let buf ← storeAt s.buf p (int3store toBeSent)
  let buf ← storeAt buf (p + 3) [s.net.packetNo]
  return { s with buf }

/-- The envelope for the packet in `uncompressedPayload` is built in `compress_buf`; the result is
`payload_size`. -/
def fillEnvelope (z : Compressor) (compressBuf : List UInt8) (packetNo : UInt8)
    (uncompressedPayload : List UInt8) (toBeSent : Nat) : Option (List UInt8 × Nat) := do
  let (compressBuf, payloadSize) ←
    match z.compress toBeSent uncompressedPayload with
    | some out => do
      let compressBuf ← storeAt compressBuf (compressedHeaderSize + mysqlndHeaderSize) out
      let compressBuf ← storeAt compressBuf mysqlndHeaderSize
        (int3store (toBeSent + mysqlndHeaderSize))
      some (compressBuf, out.length)
    | none => do
      let compressBuf ← storeAt compressBuf mysqlndHeaderSize (int3store 0)
      let compressBuf ← storeAt compressBuf (mysqlndHeaderSize + compressedHeaderSize)
        uncompressedPayload
      some (compressBuf, toBeSent + mysqlndHeaderSize)
  let compressBuf ← storeAt compressBuf 0 (int3store payloadSize)
  let compressBuf ← storeAt compressBuf 3 [packetNo]
  return (compressBuf, payloadSize)

/-- The body of the loop up to `network_write`: the bytes to write for the packet at `p`. -/
def SendState.preparePacket (z : Compressor) (s : SendState) (p toBeSent : Nat) :
    Option (List UInt8 × SendState) := do
  let s ← s.storeHeaderSize p
  let s ← s.putHeader p toBeSent
  let uncompressedPayload ← loadAt s.buf p (toBeSent + mysqlndHeaderSize)
  if s.net.compressed then
    let (compressBuf, payloadSize) ←
      fillEnvelope z s.compressBuf s.net.packetNo uncompressedPayload toBeSent
    let s ← { s with compressBuf }.restoreHeaderSize p
    let bytes ← loadAt s.compressBuf 0 (payloadSize + mysqlndHeaderSize + compressedHeaderSize)
    return (bytes, s)
  else
    -- here the header is restored behind the write, which changes neither
    let s ← s.restoreHeaderSize p
    return (uncompressedPayload, s)

/-- The loop of `send` from the packet at `p` on, with `left` bytes to send: the last `ret`. -/
def sendLoop (z : Compressor) (write : NetworkWrite) :
    Nat → Nat → Nat → SendState → Option (Nat × SendState)
  | 0, _, _, _ => none
  | fuel + 1, left, p, s => do
    let toBeSent := min left mysqlndMaxPacketSize
    let (bytes, s) ← s.preparePacket z p toBeSent
    let ret := write s.writes bytes
    let s := { s with
      writes := s.writes ++ [bytes.take ret]
      net := { s.net with
        compressedEnvelopePacketNo := s.net.compressedEnvelopePacketNo + 1
        packetNo := s.net.packetNo + 1 }
      packetsSent := s.packetsSent + 1 }
    if ret ≠ 0 ∧ (left - toBeSent > 0 ∨ toBeSent = mysqlndMaxPacketSize) then
      sendLoop z write fuel (left - toBeSent) (p + toBeSent) s
    else some (ret, s)

structure SendResult where
  ret : Nat
  state : SendState
  /-- `conn->state` is `CONN_QUIT_SENT` and the error `CR_SERVER_GONE_ERROR`. -/
  serverGone : Bool
  deriving DecidableEq

/-- `mysqlnd_net::send`; `none` is a store outside of a buffer. -/
def send (z : Compressor) (emalloc : Emalloc) (write : NetworkWrite) (net : MysqlndNet)
    (buf : List UInt8) (count : Nat) : Option SendResult := do
  let compBufSize := mysqlndHeaderSize + compressedHeaderSize + mysqlndHeaderSize +
    min count mysqlndMaxPacketSize
  let compressBuf := if net.compressed then (emalloc compBufSize).1 else []
  let s : SendState :=
    { net, buf, safeStorage := [], compressBuf, writes := [], packetsSent := 1 }
  let (ret, state) ← sendLoop z write (count / mysqlndMaxPacketSize + 1) count 0 s
  return { ret, state, serverGone := ret = 0 }

end Php53.Mysqlnd
