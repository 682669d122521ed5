import Php53.Mysqlnd.Received
import Php53.Mysqlnd.Sent

/-!
# Exchange — what is sent compressed, and received

A compressed connection sends any number of payloads, and the other end reads every packet with two
calls: one for the header, one for as many bytes as it announces.  An envelope has the number of its
packet, so that the receiver has to expect the packet number of the sender.
-/

namespace Php53.Mysqlnd

open List

variable {z : Compressor} {d : Decompressor}

/-- `uncompress` gives back what `compress` was given. -/
def Decompressor.Undoes (d : Decompressor) (z : Compressor) : Prop :=
  ∀ room data out, z.compress room data = some out → d.uncompress data.length out = (true, data)

/-- The calls of `send` for these payloads, each behind the space for a header, and all that they
write. -/
def sendAll (z : Compressor) (emalloc : Emalloc) (write : NetworkWrite) (space : List UInt8) :
    List (List UInt8) → MysqlndNet → Option (MysqlndNet × List UInt8)
  | [], net => some (net, [])
  | payload :: payloads, net => do
    let r ← send z emalloc write net (space ++ payload) payload.length
    let (net, stream) ← sendAll z emalloc write space payloads r.state.net
    return (net, r.state.writes.flatten ++ stream)

def peer (net : MysqlndNet) (stream : List UInt8) : ReceiveNet :=
  { compressed := true, compressedEnvelopePacketNo := net.packetNo, uncompressedData := none
    stream, warnings := [] }

theorem send_small (z : Compressor) (emalloc : Emalloc) {write : NetworkWrite}
    (hwrite : ∀ before bytes, write before bytes = bytes.length)
    {net : MysqlndNet} (hc : net.compressed = true) {space payload : List UInt8}
    (hspace : space.length = mysqlndHeaderSize) (hlen : payload.length + 4 < 2 ^ 24) :
    ∃ r, send z emalloc write net (space ++ payload) payload.length = some r ∧
      r.state.writes = [written z true { sequence := net.packetNo, payload }] ∧
      r.state.net.compressed = true ∧ r.state.net.packetNo = net.packetNo + 1 := by
  have hmax : payload.length < mysqlndMaxPacketSize := by
    unfold mysqlndMaxPacketSize
    omega
  have hmin : min payload.length mysqlndMaxPacketSize = payload.length := Nat.min_eq_left (Nat.le_of_lt hmax)
  obtain ⟨compressBuf, hprepare, -⟩ := preparePacket_eq z (s :=
    { net, buf := space ++ payload, safeStorage := []
      compressBuf := (emalloc (mysqlndHeaderSize + compressedHeaderSize + mysqlndHeaderSize +
        payload.length)).1
      writes := [], packetsSent := 1 }) (a := []) (h := space) (p := 0)
    (show space ++ payload = [] ++ (space ++ (payload ++ [])) by rw [append_nil]; rfl) rfl hspace (by
      intro _
      rw [(emalloc _).2]
      unfold mysqlndHeaderSize compressedHeaderSize
      omega)
  unfold send
  dsimp only
  rw [Nat.div_eq_of_lt hmax, hmin, sendLoop, hmin]
  simp only [hc, if_true, bind, Option.bind, hprepare, hwrite, Nat.sub_self, take_length]
  -- one packet is enough
  rw [if_neg (by omega)]
  exact ⟨_, rfl, rfl, rfl, rfl⟩

theorem nextContent_written (hundoes : d.Undoes z) (p : Packet) (hlen : p.payload.length + 4 < 2 ^ 24)
    (rest : List UInt8) :
    nextContent d p.sequence (written z true p ++ rest) = some (p.encode, rest) := by
  have hnext : ∀ e : Envelope, e.Valid → e.sequence = p.sequence → e.content d = some p.encode →
      nextContent d p.sequence (e.encode ++ rest) = some (p.encode, rest) := by
    intro e hvalid hsequence hcontent
    unfold nextContent
    simp only [bind, Option.bind, e.decode_encode rest hvalid, hsequence, if_true, hcontent, pure]
  unfold written
  rw [if_pos rfl]
  cases hz : z.compress p.payload.length p.encode with
  | none =>
    -- what does not get shorter is sent as it is, with the length 0
    have h := hnext { sequence := p.sequence, uncompressedLength := 0, body := p.encode }
      ⟨p.length_encode ▸ hlen, Nat.two_pow_pos 24⟩ rfl (if_pos rfl)
    unfold Envelope.encode at h
    rw [p.length_encode] at h
    exact h
  | some out =>
    have hfits := z.fits hz
    have hout := hundoes _ _ _ hz
    rw [p.length_encode] at hout
    refine hnext { sequence := p.sequence, uncompressedLength := p.payload.length + 4, body := out }
      ⟨show out.length < 2 ^ 24 by omega, hlen⟩ rfl ?_
    unfold Envelope.content netDecode
    rw [if_neg (Nat.succ_ne_zero _)]
    simp only [hout, if_true, p.length_encode]

theorem sendAll_eq (emalloc : Emalloc) {write : NetworkWrite}
    (hwrite : ∀ before bytes, write before bytes = bytes.length)
    (hundoes : d.Undoes z) {space : List UInt8} (hspace : space.length = mysqlndHeaderSize)
    (payloads : List (List UInt8)) (hlen : ∀ payload ∈ payloads, payload.length + 4 < 2 ^ 24)
    {net : MysqlndNet} (hc : net.compressed = true) :
    ∃ net' stream, sendAll z emalloc write space payloads net = some (net', stream) ∧
      decodeAll d net.packetNo stream = ((packetsFrom net.packetNo payloads).flatMap Packet.encode,
        net'.packetNo, []) := by
  induction payloads generalizing net with
  | nil => exact ⟨net, [], rfl, decodeAll_none rfl⟩
  | cons payload payloads ih =>
    have hfirst := hlen payload mem_cons_self
    obtain ⟨r, hr, hwrites, hc', hnumber⟩ := send_small z emalloc hwrite hc hspace hfirst
    obtain ⟨net', stream, hsent, hdecoded⟩ := ih (fun p hp => hlen p (mem_cons_of_mem _ hp)) hc'
    refine ⟨net', r.state.writes.flatten ++ stream, ?_, ?_⟩
    · simp only [sendAll, bind, Option.bind, hr, hsent, pure]
    · rw [hwrites, flatten_singleton, decodeAll_some
      (nextContent_written hundoes { sequence := net.packetNo, payload } hfirst stream),
        ← hnumber, hdecoded, hnumber]
      rfl

theorem expectedResults_packets (sequence : UInt8) (payloads : List (List UInt8)) :
    expectedResults ((packetsFrom sequence payloads).flatMap Packet.encode)
        (payloads.flatMap fun payload => [mysqlndHeaderSize, payload.length]) =
      (packetsFrom sequence payloads).flatMap fun p =>
        [(.pass, netHeader p.payload.length p.sequence), (.pass, p.payload)] := by
  induction payloads generalizing sequence with
  | nil => rfl
  | cons payload payloads ih =>
    rw [packetsFrom, flatMap_cons, flatMap_cons, flatMap_cons, Packet.encode, append_assoc]
    have hheader : (netHeader payload.length sequence).length = mysqlndHeaderSize := rfl
    show expectedResults (netHeader payload.length sequence ++ (payload ++ _))
      (mysqlndHeaderSize :: payload.length :: _) = _
    rw [expectedResults, if_pos (by rw [length_append, hheader]; omega), take_left' hheader,
      drop_left' hheader, expectedResults, if_pos (by rw [length_append]; omega), take_left, drop_left]
    exact congrArg (fun l => (_, _) :: (_, _) :: l) (ih (sequence + 1))

/-- Payloads sent one after the other on a compressed connection arrive: the calls of the peer that
read a header and then as many bytes as it announces get the headers, numbered from the first one on,
and the payloads, and calls with other counts get the same bytes in order. -/
theorem sent_is_received (z : Compressor) (d : Decompressor) (hundoes : d.Undoes z)
    (emalloc emalloc' : Emalloc) {write : NetworkWrite}
    (hwrite : ∀ before bytes, write before bytes = bytes.length) (net : MysqlndNet)
    (hc : net.compressed = true) {space : List UInt8} (hspace : space.length = mysqlndHeaderSize)
    (payloads : List (List UInt8)) (hlen : ∀ payload ∈ payloads, payload.length + 4 < 2 ^ 24) :
    ∃ net' stream, sendAll z emalloc write space payloads net = some (net', stream) ∧
      receiveAll d emalloc' (payloads.flatMap fun payload => [mysqlndHeaderSize, payload.length])
          (peer net stream) =
        some ((packetsFrom net.packetNo payloads).flatMap fun p =>
          [(.pass, netHeader p.payload.length p.sequence), (.pass, p.payload)]) ∧
      ∀ counts, receiveAll d emalloc' counts (peer net stream) =
        some (expectedResults ((packetsFrom net.packetNo payloads).flatMap Packet.encode) counts) := by
  obtain ⟨net', stream, hsent, hdecoded⟩ := sendAll_eq emalloc hwrite hundoes hspace payloads hlen hc
  have hall : ∀ counts, receiveAll d emalloc' counts (peer net stream) =
      some (expectedResults ((packetsFrom net.packetNo payloads).flatMap Packet.encode) counts) := by
    intro counts
    have hdelivers : Delivers d (peer net stream)
        ((packetsFrom net.packetNo payloads).flatMap Packet.encode) (net'.packetNo, []) :=
      ⟨[], rfl, congrArg Prod.fst hdecoded, congrArg Prod.snd hdecoded⟩
    obtain ⟨results, hresults, hiff⟩ := receiveAll_eq_iff rfl hdelivers counts
    -- the stream ends behind an envelope
    rw [hresults, hiff.mpr fun hmisread => hmisread.2]
  refine ⟨net', stream, hsent, ?_, hall⟩
  rw [hall, expectedResults_packets]

/-- A compressor that leaves out the header of a first packet of two bytes. -/
def Compressor.headless : Compressor where
  compress room data :=
    if data.take 4 = [2, 0, 0, 0] ∧ data.length ≤ room + 4 then some (data.drop 4) else none
  fits h := by
    split at h
    · next hdata =>
      rw [← Option.some.inj h, length_drop]
      omega
    · cases h
  injective {_ _ data data' _} h h' := by
    split at h
    · next hdata =>
      split at h'
      · next hdata' =>
        rw [← take_append_drop 4 data, ← take_append_drop 4 data', hdata.1, hdata'.1,
          Option.some.inj h, Option.some.inj h']
      · cases h'
    · cases h

def Decompressor.headless : Decompressor where
  uncompress room data :=
    if data.length + 4 ≤ room then (true, [2, 0, 0, 0] ++ data) else (false, [])
  fits room data := by
    split
    · next h =>
      rw [length_append]
      exact Nat.le_trans (Nat.le_of_eq (Nat.add_comm _ _)) h
    · exact Nat.zero_le _

theorem undoes_headless : Decompressor.headless.Undoes .headless := by
  intro room data out h
  change (if data.take 4 = [2, 0, 0, 0] ∧ data.length ≤ room + 4 then some (data.drop 4) else none) =
    some out at h
  split at h
  · next hdata =>
    have hsplit := take_append_drop 4 data
    rw [hdata.1, Option.some.inj h] at hsplit
    have hroom : out.length + 4 ≤ ([2, 0, 0, 0] ++ out).length := by
      rw [length_append]
      exact Nat.le_of_eq (Nat.add_comm _ _)
    rw [← hsplit]
    exact if_pos hroom
  · cases h

theorem sent_is_received_two :
    ∃ net' stream, sendAll .headless (fun n => ⟨replicate n 0, length_replicate⟩)
        (fun _ bytes => bytes.length) [0, 0, 0, 0] [[3, 65], [1]]
        { compressed := true, packetNo := 0, compressedEnvelopePacketNo := 0 } =
      some (net', stream) ∧
      receiveAll .headless (fun n => ⟨replicate n 0, length_replicate⟩) [4, 2, 4, 1]
          (peer { compressed := true, packetNo := 0, compressedEnvelopePacketNo := 0 } stream) =
        some [(.pass, [2, 0, 0, 0]), (.pass, [3, 65]), (.pass, [1, 0, 0, 1]), (.pass, [1])] := by
  obtain ⟨net', stream, hsent, hreceived, -⟩ := sent_is_received .headless .headless undoes_headless
    (fun n => ⟨replicate n 0, length_replicate⟩) (fun n => ⟨replicate n 0, length_replicate⟩)
    (fun _ _ => rfl) { compressed := true, packetNo := 0, compressedEnvelopePacketNo := 0 } rfl
    (show ([0, 0, 0, 0] : List UInt8).length = mysqlndHeaderSize from rfl) [[3, 65], [1]] (by decide)
  exact ⟨net', stream, hsent, hreceived⟩

end Php53.Mysqlnd
