import Php53.Mysqlnd.Packets

/-!
# Receive — `mysqlnd_net::receive`

In compressed mode an envelope is read and decoded as a whole, into a read buffer that the
following calls take their bytes from.
-/

namespace Php53.Mysqlnd

inductive FuncStatus where
  | pass
  | fail
  deriving DecidableEq

structure ReadBuffer where
  data : List UInt8
  offset : Nat
  len : Nat
  size : Nat
  deriving DecidableEq

namespace ReadBuffer

def isEmpty (b : ReadBuffer) : Bool := b.len = 0

/-- The bytes that `php_mysqlnd_read_buffer_read` copies, and the buffer behind it. -/
def read (b : ReadBuffer) (count : Nat) : List UInt8 × ReadBuffer :=
  if b.len ≥ count then
    ((b.data.drop b.offset).take count, { b with offset := b.offset + count, len := b.len - count })
  else ([], b)

def bytesLeft (b : ReadBuffer) : Nat := b.len

/-- `if (TRUE == is_empty(…)) free_buffer(&…)` -/
def freeIfEmpty (b : ReadBuffer) : Option ReadBuffer := if b.isEmpty then none else some b

/-- `mysqlnd_create_read_buffer` -/
def create (emalloc : Emalloc) (count : Nat) : ReadBuffer :=
  { data := (emalloc count).1, offset := 0, len := count, size := count }

/-- `bytes` are stored where the data begins. -/
def fill (b : ReadBuffer) (bytes : List UInt8) : ReadBuffer :=
  { b with data := bytes ++ b.data.drop bytes.length }

end ReadBuffer

/-- "Packets out of order. Expected %u received %u. Packet size=%u" -/
structure OutOfOrder where
  expected : UInt8
  received : UInt8
  packetSize : Nat
  deriving DecidableEq

/-- The fields of `MYSQLND_NET` that `receive` uses, and the bytes that the server is going to
send. -/
structure ReceiveNet where
  compressed : Bool
  compressedEnvelopePacketNo : UInt8
  uncompressedData : Option ReadBuffer
  stream : List UInt8
  warnings : List OutOfOrder
  deriving DecidableEq

/-- `uncompress` of zlib: whether it returns `Z_OK`, and what it has stored by then. -/
structure Decompressor where
  uncompress (room : Nat) (data : List UInt8) : Bool × List UInt8
  fits (room : Nat) (data : List UInt8) : (uncompress room data).2.length ≤ room

/-- `mysqlnd_net::network_read`: the status and the bytes that were read, all that are left if they
are not enough. -/
def ReceiveNet.networkRead (net : ReceiveNet) (count : Nat) :
    FuncStatus × List UInt8 × ReceiveNet :=
  (if count ≤ net.stream.length then .pass else .fail, net.stream.take count,
    { net with stream := net.stream.drop count })

/-- `mysqlnd_net::decode`: the status and what is stored. -/
def netDecode (z : Decompressor) (uncompressedDataLen : Nat) (compressedData : List UInt8) :
    FuncStatus × List UInt8 :=
  let (ok, out) := z.uncompress uncompressedDataLen compressedData
  (if ok then .pass else .fail, out)

/-- `mysqlnd_read_compressed_packet_from_stream_and_fill_read_buffer` -/
def readCompressedPacket (z : Decompressor) (emalloc : Emalloc) (netPayloadSize : Nat)
    (net : ReceiveNet) : FuncStatus × ReceiveNet :=
  match net.networkRead compressedHeaderSize with
  | (.pass, [u, v, w], net) =>
    let decompressedSize := uint3korr u v w
    if decompressedSize ≠ 0 then
      match net.networkRead netPayloadSize with
      | (.fail, _, net) => (.fail, net)
      | (.pass, compressedData, net) =>
        let buffer := ReadBuffer.create emalloc decompressedSize
        let (ret, out) := netDecode z decompressedSize compressedData
        (ret, { net with uncompressedData := some (buffer.fill out) })
    else
      let buffer := ReadBuffer.create emalloc netPayloadSize
      let (ret, bytes, net) := net.networkRead netPayloadSize
      (ret, { net with uncompressedData := some (buffer.fill bytes) })
  | (_, _, net) => (.fail, net)

/-- The first part of `receive`: how many of the `toRead` bytes the read buffer has, and these. -/
def ReceiveNet.drain (net : ReceiveNet) (toRead : Nat) : Nat × List UInt8 × ReceiveNet :=
  match net.uncompressedData with
  | none => (0, [], net)
  | some buffer =>
    let toReadFromBuffer := min buffer.bytesLeft toRead
    let (bytes, buffer) := if toReadFromBuffer ≠ 0 then buffer.read toReadFromBuffer else ([], buffer)
    (toReadFromBuffer, bytes,
      { net with uncompressedData := buffer.freeIfEmpty })

/-- `mysqlnd_net::receive`: the status, and the bytes that were stored in the caller's buffer.  Every
recursive call has read a header, so that the length of the stream bounds their number. -/
def receive (z : Decompressor) (emalloc : Emalloc) :
    Nat → Nat → ReceiveNet → Option (FuncStatus × List UInt8 × ReceiveNet)
  | 0, _, _ => none
  | fuel + 1, count, net =>
    if net.compressed then
      let (toReadFromBuffer, bytes, net) := net.drain count
      let toRead := count - toReadFromBuffer
      if toRead ≠ 0 then
        match net.networkRead mysqlndHeaderSize with
        | (.pass, [a, b, c, packetNo], net) =>
          let netPayloadSize := uint3korr a b c
          if net.compressedEnvelopePacketNo ≠ packetNo then
            some (.fail, bytes, { net with
              warnings := net.warnings ++
                [{ expected := net.compressedEnvelopePacketNo, received := packetNo,
                   packetSize := netPayloadSize }] })
          else
            let net := { net with
              compressedEnvelopePacketNo := net.compressedEnvelopePacketNo + 1 }
            -- the status is not looked at
            let (_, net) := readCompressedPacket z emalloc netPayloadSize net
            (receive z emalloc fuel toRead net).map fun (ret, rest, net) => (ret, bytes ++ rest, net)
        | (_, _, net) => some (.fail, bytes, net)
      else some (.pass, bytes, net)
    else some (net.networkRead count)

/-- The calls of `receive` for these counts, up to the first one that fails. -/
def receiveAll (z : Decompressor) (emalloc : Emalloc) :
    List Nat → ReceiveNet → Option (List (FuncStatus × List UInt8))
  | [], _ => some []
  | count :: counts, net => do
    let (ret, bytes, net) ← receive z emalloc (net.stream.length + 1) count net
    match ret with
    | .fail => return [(.fail, bytes)]
    | .pass =>
      let results ← receiveAll z emalloc counts net
      return (.pass, bytes) :: results

end Php53.Mysqlnd
