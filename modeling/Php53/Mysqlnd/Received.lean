import Php53.Mysqlnd.Receive

/-!
# Received — what the calls of `receive` deliver

A stream decodes to the contents of its envelopes, up to the first one that is not in order.  The
code delivers them, and refuses that envelope unless its own buffer hides what is wrong.
-/

namespace Php53.Mysqlnd

open List

variable {z : Decompressor} {emalloc : Emalloc} {net : ReceiveNet} {avail : List UInt8}
  {expected : UInt8} {stream : List UInt8} {count : Nat} {stop : UInt8 × List UInt8}
  {total : List UInt8} {rest s : List UInt8}

def Envelope.content (z : Decompressor) (e : Envelope) : Option (List UInt8) :=
  if e.uncompressedLength = 0 then some e.body
  else
    match netDecode z e.uncompressedLength e.body with
    | (.pass, out) => if out.length = e.uncompressedLength then some out else none
    | (.fail, _) => none

def nextContent (z : Decompressor) (expected : UInt8) (stream : List UInt8) :
    Option (List UInt8 × List UInt8) := do
  let (e, rest) ← Envelope.decode stream
  if e.sequence = expected then
    let content ← e.content z
    return (content, rest)
  else none

variable {content : List UInt8}

theorem nextContent_lt
    (h : nextContent z expected stream = some (content, rest)) : rest.length < stream.length := by
  unfold nextContent at h
  obtain ⟨⟨e, rest'⟩, hdecode, h⟩ := Option.bind_eq_some_iff.mp h
  dsimp only at h
  split at h
  · obtain ⟨content', -, h⟩ := Option.bind_eq_some_iff.mp h
    obtain ⟨-, rfl⟩ := Prod.mk.inj (Option.some.inj h)
    exact Envelope.decode_lt _ _ _ hdecode
  · exact nomatch h

/-- The contents of the envelopes up to the first one that is not in order; with the number that was
expected there and the rest of the stream. -/
def decodeAll (z : Decompressor) (expected : UInt8) (stream : List UInt8) :
    List UInt8 × UInt8 × List UInt8 :=
  match h : nextContent z expected stream with
  | none => ([], expected, stream)
  | some (content, rest) =>
    have := nextContent_lt h
    let (contents, stop) := decodeAll z (expected + 1) rest
    (content ++ contents, stop)
termination_by stream.length

theorem decodeAll_some (h : nextContent z expected stream = some (content, rest)) :
    decodeAll z expected stream =
      (content ++ (decodeAll z (expected + 1) rest).1, (decodeAll z (expected + 1) rest).2) := by
  rw [decodeAll]
  split
  · rename_i h'
    rw [h] at h'
    exact nomatch h'
  · rename_i content' rest' h'
    rw [h] at h'
    obtain ⟨rfl, rfl⟩ := Prod.mk.inj (Option.some.inj h')
    rfl

theorem decodeAll_none (h : nextContent z expected stream = none) :
    decodeAll z expected stream = ([], expected, stream) := by
  rw [decodeAll]
  split
  · rfl
  · rename_i h'
    rw [h] at h'
    exact nomatch h'

/-- What the calls have to deliver of these bytes: each the next ones, and the first that needs more
fails. -/
def expectedResults (bytes : List UInt8) : List Nat → List (FuncStatus × List UInt8)
  | [] => []
  | count :: counts =>
    if count ≤ bytes.length then
      (.pass, bytes.take count) :: expectedResults (bytes.drop count) counts
    else [(.fail, bytes)]

/-- The first envelope is not in order, but both its headers are, and a read buffer is made for it:
stored bytes that end too early, or a body that does not decode to the announced length. -/
def Misread (z : Decompressor) (expected : UInt8) : List UInt8 → Prop
  | a :: b :: c :: packetNo :: u :: v :: w :: rest =>
    packetNo = expected ∧
      if uint3korr u v w = 0 then rest.length < uint3korr a b c
      else uint3korr a b c ≤ rest.length ∧
        Envelope.content z { sequence := packetNo, uncompressedLength := uint3korr u v w
                             body := rest.take (uint3korr a b c) } = none
  | _ => False

def Buffered (net : ReceiveNet) (avail : List UInt8) : Prop :=
  match net.uncompressedData with
  | none => avail = []
  | some b => b.len = avail.length ∧ (b.data.drop b.offset).take b.len = avail

theorem take_min_length (l : List UInt8) (n : Nat) : l.take (min l.length n) = l.take n := by
  by_cases h : l.length ≤ n
  · rw [Nat.min_eq_left h, take_length, take_of_length_le h]
  · rw [Nat.min_eq_right (by omega)]

theorem drop_min_length (l : List UInt8) (n : Nat) : l.drop (min l.length n) = l.drop n := by
  by_cases h : l.length ≤ n
  · rw [Nat.min_eq_left h, drop_length, drop_eq_nil_of_le h]
  · rw [Nat.min_eq_right (by omega)]

theorem buffered_freeIfEmpty (net : ReceiveNet) {b : ReadBuffer} (hlen : b.len = avail.length)
    (hdata : (b.data.drop b.offset).take b.len = avail) :
    Buffered { net with uncompressedData := b.freeIfEmpty } avail := by
  unfold Buffered ReadBuffer.freeIfEmpty ReadBuffer.isEmpty
  dsimp only
  by_cases hempty : b.len = 0
  · rw [if_pos (by simpa using hempty)]
    exact eq_nil_of_length_eq_zero (hlen ▸ hempty)
  · rw [if_neg (by simpa using hempty)]
    exact ⟨hlen, hdata⟩

theorem Buffered.drain (h : Buffered net avail) (count : Nat) :
    ∃ u, net.drain count = (min avail.length count, avail.take count,
        { net with uncompressedData := u }) ∧
      Buffered { net with uncompressedData := u } (avail.drop count) ∧
      (avail.length ≤ count → u = none) := by
  obtain ⟨compressed, packetNo, data, stream, warnings⟩ := net
  unfold ReceiveNet.drain
  cases data with
  | none =>
    have hnil : avail = [] := h
    subst hnil
    refine ⟨none, by simp, drop_nil, fun _ => rfl⟩
  | some b =>
    obtain ⟨hlen, hdata⟩ : b.len = avail.length ∧ (b.data.drop b.offset).take b.len = avail := h
    obtain ⟨n, hn⟩ : ∃ n, n = min avail.length count := ⟨_, rfl⟩
    have hle : n ≤ b.len := by omega
    have hread : (if n ≠ 0 then b.read n else ([], b)) =
        (avail.take count, { b with offset := b.offset + n, len := b.len - n }) := by
      have htake : (b.data.drop b.offset).take n = avail.take count := by
        rw [← take_min_length avail, ← hn, ← hdata, take_take, Nat.min_eq_left hle]
      by_cases hzero : n ≠ 0
      · rw [if_pos hzero, ReadBuffer.read, if_pos hle, htake]
      · obtain rfl : n = 0 := by omega
        rw [← htake]
        rfl
    have hrest : (b.data.drop (b.offset + n)).take (b.len - n) = avail.drop count := by
      rw [← drop_min_length avail, ← hn, ← hdata, drop_take, drop_drop]
    dsimp only [ReadBuffer.bytesLeft]
    rw [hlen, ← hn, hread]
    refine ⟨_, rfl, buffered_freeIfEmpty ⟨compressed, packetNo, some b, stream, warnings⟩ ?_ hrest,
      fun hcount => ?_⟩
    · rw [length_drop]
      dsimp only
      omega
    · unfold ReadBuffer.freeIfEmpty ReadBuffer.isEmpty
      rw [if_pos]
      simp only [decide_eq_true_eq]
      omega

theorem networkRead_append {a b : List UInt8} (hstream : net.stream = a ++ b)
    (ha : a.length = count) :
    net.networkRead count = (.pass, a, { net with stream := b }) := by
  unfold ReceiveNet.networkRead
  rw [hstream, ← ha, take_left, drop_left, if_pos]
  rw [length_append]
  omega

theorem networkRead_short (h : net.stream.length < count) :
    net.networkRead count = (.fail, net.stream, { net with stream := [] }) := by
  unfold ReceiveNet.networkRead
  rw [if_neg (by omega), take_of_length_le (by omega), drop_eq_nil_of_le (by omega)]

/-- An envelope was read up to `rest`, and `out` was stored in a new read buffer of `n` bytes. -/
def ReceiveNet.fillWith (net : ReceiveNet) (emalloc : Emalloc) (rest : List UInt8) (n : Nat)
    (out : List UInt8) : ReceiveNet :=
  { net with
    compressedEnvelopePacketNo := net.compressedEnvelopePacketNo + 1
    stream := rest
    uncompressedData := some ((ReadBuffer.create emalloc n).fill out) }

theorem buffered_fillWith (net : ReceiveNet) (emalloc : Emalloc) (rest out : List UInt8) :
    Buffered (net.fillWith emalloc rest out.length out) out := by
  refine ⟨rfl, ?_⟩
  dsimp only [ReadBuffer.create, ReadBuffer.fill]
  rw [drop_zero, take_left]

theorem buffered_fillWith_short (net : ReceiveNet) (emalloc : Emalloc) (rest : List UInt8) {n : Nat}
    {out : List UInt8} (hout : out.length ≤ n) : ∃ garbage, garbage.length = n ∧
      Buffered (net.fillWith emalloc rest n out) garbage := by
  have hlength : (out ++ (emalloc n).1.drop out.length).length = n := by
    rw [length_append, length_drop, (emalloc n).2]
    omega
  refine ⟨out ++ (emalloc n).1.drop out.length, hlength, hlength.symm, ?_⟩
  dsimp only [ReadBuffer.create, ReadBuffer.fill]
  rw [drop_zero, take_of_length_le (Nat.le_of_eq hlength)]

theorem readCompressedPacket_eq {u v w : UInt8} (n : Nat)
    (hstream : net.stream = u :: v :: w :: rest) :
    readCompressedPacket z emalloc n net =
      if uint3korr u v w = 0 then
        (if n ≤ rest.length then .pass else .fail,
          { net with
            stream := rest.drop n
            uncompressedData := some ((ReadBuffer.create emalloc n).fill (rest.take n)) })
      else if n ≤ rest.length then
        ((netDecode z (uint3korr u v w) (rest.take n)).1,
          { net with
            stream := rest.drop n
            uncompressedData := some ((ReadBuffer.create emalloc (uint3korr u v w)).fill
              (netDecode z (uint3korr u v w) (rest.take n)).2) })
      else (.fail, { net with stream := [] }) := by
  have hheader : net.networkRead compressedHeaderSize =
      (.pass, [u, v, w], { net with stream := rest }) := networkRead_append hstream rfl
  unfold readCompressedPacket
  rw [hheader]
  dsimp only
  by_cases hzero : uint3korr u v w = 0
  · rw [if_neg (not_not.mpr hzero), if_pos hzero]
    rfl
  · rw [if_pos hzero, if_neg hzero]
    unfold ReceiveNet.networkRead
    by_cases hn : n ≤ rest.length
    · rw [if_pos hn, if_pos hn]
    · rw [if_neg hn, if_neg hn]
      dsimp only
      rw [drop_eq_nil_of_le (by omega)]

theorem readCompressedPacket_short (n : Nat) (h : net.stream.length < 3) :
    readCompressedPacket z emalloc n net = (.fail, { net with stream := [] }) := by
  have hheader : net.networkRead compressedHeaderSize =
      (.fail, net.stream, { net with stream := [] }) := networkRead_short h
  unfold readCompressedPacket
  rw [hheader]

theorem receive_of_le (z : Decompressor) (emalloc : Emalloc) (hcompressed : net.compressed = true)
    (hbuf : Buffered net avail) (hcount : count ≤ avail.length)
    (fuel : Nat) : ∃ u, receive z emalloc (fuel + 1) count net =
        some (.pass, avail.take count, { net with uncompressedData := u }) ∧
      Buffered { net with uncompressedData := u } (avail.drop count) := by
  obtain ⟨u, hdrain, hbuf', -⟩ := hbuf.drain count
  refine ⟨u, ?_, hbuf'⟩
  rw [receive, if_pos hcompressed, hdrain]
  dsimp only
  rw [if_neg (by omega)]

/-- The part of `receive` behind the emptied read buffer. -/
def receiveEnvelope (z : Decompressor) (emalloc : Emalloc) (fuel toRead : Nat) (net : ReceiveNet) :
    Option (FuncStatus × List UInt8 × ReceiveNet) :=
  match net.networkRead mysqlndHeaderSize with
  | (.pass, [a, b, c, packetNo], net) =>
    if net.compressedEnvelopePacketNo ≠ packetNo then
      some (.fail, [], { net with
        warnings := net.warnings ++
          [{ expected := net.compressedEnvelopePacketNo, received := packetNo,
             packetSize := uint3korr a b c }] })
    else receive z emalloc fuel toRead (readCompressedPacket z emalloc (uint3korr a b c)
      { net with compressedEnvelopePacketNo := net.compressedEnvelopePacketNo + 1 }).2
  | (_, _, net) => some (.fail, [], net)

theorem receive_of_lt (hcompressed : net.compressed = true) (hbuf : Buffered net avail)
    (hcount : avail.length < count) (fuel : Nat) : receive z emalloc (fuel + 1) count net =
      (receiveEnvelope z emalloc fuel (count - avail.length)
        { net with uncompressedData := none }).map
        fun (ret, rest, net) => (ret, avail ++ rest, net) := by
  obtain ⟨u, hdrain, -, hnone⟩ := hbuf.drain count
  have hu := hnone (Nat.le_of_lt hcount)
  subst hu
  rw [receive, if_pos hcompressed, hdrain, take_of_length_le (Nat.le_of_lt hcount),
    Nat.min_eq_left (Nat.le_of_lt hcount)]
  dsimp only
  rw [if_pos (by omega)]
  unfold receiveEnvelope
  generalize ReceiveNet.networkRead _ _ = r
  obtain ⟨ret, header, net'⟩ := r
  have hfail : some (FuncStatus.fail, avail, net') = Option.map
      (fun r : FuncStatus × List UInt8 × ReceiveNet => (r.1, avail ++ r.2.1, r.2.2))
      (some (FuncStatus.fail, [], net')) := by
    rw [Option.map_some, append_nil]
  cases ret with
  | fail => exact hfail
  | pass =>
    rcases header with _ | ⟨a, _ | ⟨b, _ | ⟨c, _ | ⟨packetNo, _ | ⟨d, rest⟩⟩⟩⟩⟩
    · exact hfail
    · exact hfail
    · exact hfail
    · exact hfail
    · -- a complete header
      dsimp only
      by_cases hno : net'.compressedEnvelopePacketNo ≠ packetNo
      · rw [if_pos hno, if_pos hno, Option.map_some, append_nil]
      · rw [if_neg hno, if_neg hno]
    · exact hfail

variable {packetNo : UInt8}

theorem receiveEnvelope_header {a b c : UInt8} (hstream : net.stream = a :: b :: c :: packetNo :: s)
    (fuel toRead : Nat) :
    receiveEnvelope z emalloc fuel toRead net =
      if net.compressedEnvelopePacketNo ≠ packetNo then
        some (.fail, [], { net with
          stream := s
          warnings := net.warnings ++
            [{ expected := net.compressedEnvelopePacketNo, received := packetNo,
               packetSize := uint3korr a b c }] })
      else receive z emalloc fuel toRead (readCompressedPacket z emalloc (uint3korr a b c)
        { net with
          stream := s
          compressedEnvelopePacketNo := net.compressedEnvelopePacketNo + 1 }).2 := by
  have hheader : net.networkRead mysqlndHeaderSize =
      (.pass, [a, b, c, packetNo], { net with stream := s }) := networkRead_append hstream rfl
  unfold receiveEnvelope
  rw [hheader]

theorem receiveEnvelope_short (z : Decompressor) (emalloc : Emalloc) (net : ReceiveNet)
    (h : net.stream.length < 4) (fuel toRead : Nat) :
    ∃ net', receiveEnvelope z emalloc fuel toRead net = some (.fail, [], net') := by
  have hheader : net.networkRead mysqlndHeaderSize =
      (.fail, net.stream, { net with stream := [] }) := networkRead_short h
  unfold receiveEnvelope
  rw [hheader]
  exact ⟨_, rfl⟩

theorem receive_at_end (z : Decompressor) (emalloc : Emalloc) (net : ReceiveNet)
    (hcompressed : net.compressed = true) (hnone : net.uncompressedData = none)
    (hstream : net.stream = []) (hcount : 0 < count) (fuel : Nat) :
    ∃ net', receive z emalloc (fuel + 1) count net = some (.fail, [], net') := by
  have hbuf : Buffered net [] := by
    unfold Buffered
    rw [hnone]
  obtain ⟨net', hfail⟩ := receiveEnvelope_short z emalloc { net with uncompressedData := none }
    (by rw [hstream]; decide) fuel (count - 0)
  refine ⟨net', ?_⟩
  rw [receive_of_lt hcompressed hbuf hcount, length_nil, hfail]
  rfl

theorem nextContent_eq {a b c u v w : UInt8} :
    nextContent z expected (a :: b :: c :: packetNo :: u :: v :: w :: rest) =
      if uint3korr a b c ≤ rest.length ∧ packetNo = expected then
        (Envelope.content z { sequence := packetNo, uncompressedLength := uint3korr u v w
                              body := rest.take (uint3korr a b c) }).map
          (·, rest.drop (uint3korr a b c))
      else none := by
  unfold nextContent Envelope.decode
  dsimp only
  by_cases hlen : uint3korr a b c ≤ rest.length
  · rw [if_pos hlen]
    by_cases hno : packetNo = expected
    · rw [if_pos ⟨hlen, hno⟩]
      simp only [bind, Option.bind_some]
      rw [if_pos hno]
      cases Envelope.content z _ <;> rfl
    · rw [if_neg (fun h => hno h.2)]
      simp only [bind, Option.bind_some]
      rw [if_neg hno]
  · rw [if_neg hlen, if_neg (fun h => hlen h.1)]
    rfl

theorem content_eq {n : Nat} {body : List UInt8} (hn : n ≠ 0)
    (h : Envelope.content z { sequence := packetNo, uncompressedLength := n, body } = some content) :
    netDecode z n body = (.pass, content) ∧ content.length = n := by
  unfold Envelope.content at h
  rw [if_neg hn] at h
  dsimp only at h
  generalize netDecode z n body = r at *
  obtain ⟨_ | _, out⟩ := r
  · dsimp only at h
    split at h
    · rename_i hlen
      obtain rfl := Option.some.inj h
      exact ⟨rfl, hlen⟩
    · exact nomatch h
  · exact nomatch h

theorem exists_headers {l : List UInt8} (h : 7 ≤ l.length) :
    ∃ a b c packetNo u v w s, l = a :: b :: c :: packetNo :: u :: v :: w :: s := by
  match l, h with
  | a :: b :: c :: packetNo :: u :: v :: w :: s, _ => exact ⟨a, b, c, packetNo, u, v, w, s, rfl⟩

theorem nextContent_length {r : List UInt8 × List UInt8}
    (h : nextContent z expected stream = some r) :
    7 ≤ stream.length := by
  unfold nextContent at h
  obtain ⟨r', hdecode, -⟩ := Option.bind_eq_some_iff.mp h
  unfold Envelope.decode at hdecode
  split at hdecode
  · simp only [length_cons]
    omega
  · exact nomatch hdecode

theorem Misread.length (h : Misread z expected stream) :
    7 ≤ stream.length := by
  unfold Misread at h
  split at h
  · simp only [length_cons]
    omega
  · exact h.elim

theorem receiveEnvelope_headers {a b c u v w : UInt8}
    (hstream : net.stream = a :: b :: c :: net.compressedEnvelopePacketNo :: u :: v :: w :: s)
    (fuel toRead : Nat) :
    receiveEnvelope z emalloc fuel toRead net =
      receive z emalloc fuel toRead
        (if uint3korr u v w = 0 then net.fillWith emalloc (s.drop (uint3korr a b c))
          (uint3korr a b c) (s.take (uint3korr a b c))
        else if uint3korr a b c ≤ s.length then net.fillWith emalloc (s.drop (uint3korr a b c))
          (uint3korr u v w) (netDecode z (uint3korr u v w) (s.take (uint3korr a b c))).2
        else { net with
          compressedEnvelopePacketNo := net.compressedEnvelopePacketNo + 1
          stream := [] }) := by
  rw [receiveEnvelope_header hstream, if_neg (not_not.mpr rfl), readCompressedPacket_eq _ rfl]
  unfold ReceiveNet.fillWith
  by_cases hzero : uint3korr u v w = 0
  · rw [if_pos hzero, if_pos hzero]
  · rw [if_neg hzero, if_neg hzero]
    by_cases hlen : uint3korr a b c ≤ s.length
    · rw [if_pos hlen, if_pos hlen]
    · rw [if_neg hlen, if_neg hlen]

theorem receiveEnvelope_content (net : ReceiveNet)
    (h : nextContent z net.compressedEnvelopePacketNo net.stream = some (content, rest))
    (fuel toRead : Nat) : receiveEnvelope z emalloc fuel toRead net =
      receive z emalloc fuel toRead (net.fillWith emalloc rest content.length content) := by
  obtain ⟨a, b, c, packetNo, u, v, w, s, hstream⟩ := exists_headers (nextContent_length h)
  rw [hstream, nextContent_eq] at h
  by_cases hok : uint3korr a b c ≤ s.length ∧ packetNo = net.compressedEnvelopePacketNo
  · rw [if_pos hok] at h
    obtain ⟨hlen, rfl⟩ := hok
    obtain ⟨content', hcontent, hpair⟩ := Option.map_eq_some_iff.mp h
    obtain ⟨rfl, rfl⟩ := Prod.mk.inj hpair
    rw [receiveEnvelope_headers hstream]
    by_cases hzero : uint3korr u v w = 0
    · have hbody : s.take (uint3korr a b c) = content' := by
        unfold Envelope.content at hcontent
        rw [if_pos hzero] at hcontent
        exact Option.some.inj hcontent
      have hlength : content'.length = uint3korr a b c := by
        rw [← hbody, length_take]
        omega
      rw [if_pos hzero, hbody, hlength]
    · obtain ⟨hdecode, hlength⟩ := content_eq hzero hcontent
      rw [if_neg hzero, if_pos hlen, hdecode, hlength]
  · rw [if_neg hok] at h
    exact nomatch h

theorem receiveEnvelope_misread (emalloc : Emalloc) (net : ReceiveNet)
    (h : Misread z net.compressedEnvelopePacketNo net.stream) :
    ∃ net' garbage, net'.compressed = net.compressed ∧ net'.stream.length < net.stream.length ∧
      0 < garbage.length ∧ Buffered net' garbage ∧
      ∀ fuel toRead, receiveEnvelope z emalloc fuel toRead net =
        receive z emalloc fuel toRead net' := by
  obtain ⟨a, b, c, packetNo, u, v, w, s, hstream⟩ := exists_headers h.length
  rw [hstream] at h
  obtain ⟨rfl, h⟩ : packetNo = net.compressedEnvelopePacketNo ∧ _ := h
  have hshorter : (s.drop (uint3korr a b c)).length < net.stream.length := by
    rw [hstream]
    simp only [length_drop, length_cons]
    omega
  by_cases hzero : uint3korr u v w = 0
  · rw [if_pos hzero] at h
    have hshort : (s.take (uint3korr a b c)).length ≤ uint3korr a b c := by
      rw [length_take]
      omega
    obtain ⟨garbage, hlen, hbuf⟩ := buffered_fillWith_short net emalloc (s.drop (uint3korr a b c))
      hshort
    refine ⟨net.fillWith emalloc _ _ _, garbage, rfl, hshorter, by omega, hbuf, fun fuel toRead => ?_⟩
    rw [receiveEnvelope_headers hstream, if_pos hzero]
  · rw [if_neg hzero] at h
    obtain ⟨garbage, hlen, hbuf⟩ := buffered_fillWith_short net emalloc (s.drop (uint3korr a b c))
      (z.fits (uint3korr u v w) (s.take (uint3korr a b c)))
    refine ⟨net.fillWith emalloc _ _ _, garbage, rfl, hshorter, by omega, hbuf, fun fuel toRead => ?_⟩
    rw [receiveEnvelope_headers hstream, if_neg hzero, if_pos h.1]
    rfl

theorem not_misread {a b c u v w : UInt8}
    (hnone : nextContent z expected (a :: b :: c :: expected :: u :: v :: w :: s) = none)
    (h : ¬ Misread z expected (a :: b :: c :: expected :: u :: v :: w :: s)) :
    uint3korr u v w ≠ 0 ∧ ¬ uint3korr a b c ≤ s.length := by
  rw [nextContent_eq] at hnone
  by_cases hzero : uint3korr u v w = 0
  · have hlen : ¬ s.length < uint3korr a b c := by
      intro hlen
      exact h ⟨rfl, by rw [if_pos hzero]; exact hlen⟩
    rw [if_pos ⟨by omega, rfl⟩] at hnone
    unfold Envelope.content at hnone
    rw [if_pos hzero] at hnone
    exact nomatch hnone
  · refine ⟨hzero, fun hlen => ?_⟩
    rw [if_pos ⟨hlen, rfl⟩] at hnone
    exact h ⟨rfl, by rw [if_neg hzero]; exact ⟨hlen, Option.map_eq_none_iff.mp hnone⟩⟩

theorem receiveEnvelope_refused (emalloc : Emalloc) (net : ReceiveNet) (hcompressed : net.compressed = true)
    (hdata : net.uncompressedData = none)
    (hnone : nextContent z net.compressedEnvelopePacketNo net.stream = none)
    (h : ¬ Misread z net.compressedEnvelopePacketNo net.stream) {fuel toRead : Nat}
    (hfuel : net.stream.length ≤ fuel) (hread : 0 < toRead) :
    ∃ net', receiveEnvelope z emalloc fuel toRead net = some (.fail, [], net') := by
  by_cases hshort : net.stream.length < 4
  · exact receiveEnvelope_short z emalloc net hshort fuel toRead
  obtain ⟨fuel, rfl⟩ : ∃ n, fuel = n + 1 := ⟨fuel - 1, by omega⟩
  obtain ⟨a, b, c, packetNo, s, hstream⟩ : ∃ a b c packetNo s,
      net.stream = a :: b :: c :: packetNo :: s := by
    match net.stream, Nat.le_of_not_lt hshort with
    | a :: b :: c :: packetNo :: s, _ => exact ⟨a, b, c, packetNo, s, rfl⟩
  by_cases hno : net.compressedEnvelopePacketNo ≠ packetNo
  · rw [receiveEnvelope_header hstream, if_pos hno]
    exact ⟨_, rfl⟩
  obtain rfl := not_not.mp hno
  -- the rest of the stream is lost, and the read buffer stays empty
  have hend := receive_at_end z emalloc { net with
    compressedEnvelopePacketNo := net.compressedEnvelopePacketNo + 1
    stream := [] } hcompressed hdata rfl hread fuel
  by_cases hheaders : s.length < 3
  · rw [receiveEnvelope_header hstream, if_neg hno, readCompressedPacket_short _ hheaders]
    exact hend
  · obtain ⟨u, v, w, s, rfl⟩ : ∃ u v w s', s = u :: v :: w :: s' := by
      match s, Nat.le_of_not_lt hheaders with
      | u :: v :: w :: s, _ => exact ⟨u, v, w, s, rfl⟩
    rw [hstream] at hnone h
    obtain ⟨hzero, hlen⟩ := not_misread hnone h
    rw [receiveEnvelope_headers hstream, if_neg hzero, if_neg hlen]
    exact hend

def Ready (net : ReceiveNet) : Prop := net.compressed = true ∧ ∃ avail, Buffered net avail

/-- The calls have these bytes before them, in the read buffer and in the envelopes, and the stream
then stops at `stop`. -/
def Delivers (z : Decompressor) (net : ReceiveNet) (bytes : List UInt8)
    (stop : UInt8 × List UInt8) : Prop :=
  ∃ avail, Buffered net avail ∧
    avail ++ (decodeAll z net.compressedEnvelopePacketNo net.stream).1 = bytes ∧
    (decodeAll z net.compressedEnvelopePacketNo net.stream).2 = stop

/-- What a call for `count` of these bytes gives. -/
structure Received (z : Decompressor) (total : List UInt8) (stop : UInt8 × List UInt8) (count : Nat)
    (ret : FuncStatus) (bytes : List UInt8) (net : ReceiveNet) : Prop where
  enough : count ≤ total.length → ret = .pass ∧ bytes = total.take count ∧ net.compressed = true ∧
    Delivers z net (total.drop count) stop
  refused : total.length < count → ¬ Misread z stop.1 stop.2 → ret = .fail ∧ bytes = total
  misread : total.length < count → Misread z stop.1 stop.2 → total.length < bytes.length

theorem Received.append {ret : FuncStatus} {bytes : List UInt8} (hcount : avail.length < count)
    (h : Received z total stop (count - avail.length) ret bytes net) :
    Received z (avail ++ total) stop count ret (avail ++ bytes) net where
  enough hle := by
    rw [length_append] at hle
    obtain ⟨hret, hbytes, hcompressed, hdelivers⟩ := h.enough (by omega)
    have hsplit : count = avail.length + (count - avail.length) := by omega
    refine ⟨hret, ?_, hcompressed, ?_⟩
    · rw [hbytes, hsplit, take_length_add_append, ← hsplit]
    · rw [hsplit, drop_length_add_append]
      exact hdelivers
  refused hlt hnot := by
    rw [length_append] at hlt
    obtain ⟨hret, hbytes⟩ := h.refused (by omega) hnot
    exact ⟨hret, by rw [hbytes]⟩
  misread hlt hmisread := by
    rw [length_append] at hlt ⊢
    have := h.misread (by omega) hmisread
    rw [length_append]
    omega

theorem Received.takes {ret : FuncStatus} {bytes : List UInt8}
    (h : Received z total stop count ret bytes net) : min total.length count ≤ bytes.length := by
  by_cases hle : count ≤ total.length
  · rw [(h.enough hle).2.1, length_take]
    omega
  · by_cases hmisread : Misread z stop.1 stop.2
    · have := h.misread (by omega) hmisread
      omega
    · rw [(h.refused (by omega) hmisread).2]
      omega

theorem receive_received (emalloc : Emalloc) (fuel : Nat) (hcompressed : net.compressed = true)
    (h : Delivers z net total stop) (count : Nat) (hfuel : net.stream.length < fuel) :
    ∃ ret bytes net', receive z emalloc fuel count net = some (ret, bytes, net') ∧
      Received z total stop count ret bytes net' ∧ (ret = .pass → Ready net') := by
  obtain ⟨avail, hbuf, rfl, rfl⟩ := h
  induction fuel generalizing net avail count with
  | zero => omega
  | succ fuel ih =>
    by_cases hcount : count ≤ avail.length
    · obtain ⟨u, hreceive, hbuf'⟩ :=
        receive_of_le z emalloc hcompressed hbuf hcount fuel
      refine ⟨_, _, _, hreceive, ⟨fun _ => ⟨rfl, ?_, hcompressed, _, hbuf', ?_, rfl⟩, fun hlt => ?_,
        fun hlt => ?_⟩, fun _ => ⟨hcompressed, _, hbuf'⟩⟩
      · rw [take_append_of_le_length hcount]
      · rw [drop_append_of_le_length hcount]
      · rw [length_append] at hlt
        omega
      · rw [length_append] at hlt
        omega
    · have hlt : avail.length < count := by omega
      rw [receive_of_lt hcompressed hbuf hlt]
      -- whatever comes next, it is appended to these bytes
      suffices h : ∃ ret bytes net', receiveEnvelope z emalloc fuel (count - avail.length)
          { net with uncompressedData := none } = some (ret, bytes, net') ∧
          Received z (decodeAll z net.compressedEnvelopePacketNo net.stream).1
            (decodeAll z net.compressedEnvelopePacketNo net.stream).2 (count - avail.length) ret bytes
            net' ∧ (ret = .pass → Ready net') by
        obtain ⟨ret, bytes, net', hr, hreceived, hready⟩ := h
        exact ⟨ret, avail ++ bytes, net', by rw [hr]; rfl, hreceived.append hlt, hready⟩
      have hread : 0 < count - avail.length := by omega
      cases hnext : nextContent z net.compressedEnvelopePacketNo net.stream with
      | some r =>
        obtain ⟨content, rest⟩ := r
        have hrest := nextContent_lt hnext
        rw [decodeAll_some hnext,
          receiveEnvelope_content { net with uncompressedData := none } hnext]
        exact @ih ({ net with uncompressedData := none }.fillWith emalloc rest content.length
          content) hcompressed _ (show rest.length < fuel by omega) content
          (buffered_fillWith _ emalloc rest content)
      | none =>
        rw [decodeAll_none hnext]
        by_cases hmisread : Misread z net.compressedEnvelopePacketNo net.stream
        · obtain ⟨net₁, garbage, hc, hshorter, hpos, hbuf₁, hsame⟩ := receiveEnvelope_misread
            emalloc { net with uncompressedData := none } hmisread
          obtain ⟨ret, bytes, net', hr, hreceived, hready⟩ := ih (hc.trans hcompressed)
            (count - avail.length) (Nat.lt_of_lt_of_le hshorter (Nat.le_of_lt_succ hfuel)) garbage hbuf₁
          have hbytes := hreceived.takes
          rw [length_append] at hbytes
          refine ⟨ret, bytes, net', (hsame _ _).trans hr, ⟨fun hle => ?_, fun _ hnot => ?_,
            fun _ _ => ?_⟩, hready⟩
          · rw [length_nil] at hle
            omega
          · exact absurd hmisread hnot
          · rw [length_nil]
            omega
        · obtain ⟨net', hr⟩ := receiveEnvelope_refused emalloc
            { net with uncompressedData := none } hcompressed rfl hnext hmisread
            (Nat.le_of_lt_succ hfuel) hread
          refine ⟨_, _, _, hr, ⟨fun hle => ?_, fun _ _ => ⟨rfl, rfl⟩, fun _ hyes => ?_⟩,
            fun hpass => nomatch hpass⟩
          · rw [length_nil] at hle
            omega
          · exact absurd hyes hmisread

theorem receiveAll_some (z : Decompressor) (emalloc : Emalloc) (counts : List Nat) (h : Ready net) :
    ∃ results, receiveAll z emalloc counts net = some results := by
  induction counts generalizing net with
  | nil => exact ⟨[], rfl⟩
  | cons count counts ih =>
    obtain ⟨hcompressed, avail, hbuf⟩ := h
    obtain ⟨ret, bytes, net', hr, -, hready⟩ := receive_received (z := z) emalloc _ hcompressed
      ⟨avail, hbuf, rfl, rfl⟩ count (Nat.lt_succ_self net.stream.length)
    rw [receiveAll]
    cases ret with
    | fail =>
      refine ⟨[(.fail, bytes)], ?_⟩
      simp only [bind, Option.bind, hr]
      rfl
    | pass =>
      obtain ⟨results, hresults⟩ := ih (hready rfl)
      refine ⟨(.pass, bytes) :: results, ?_⟩
      simp only [bind, Option.bind, hr, hresults]
      rfl

theorem receiveAll_eq_iff (hcompressed : net.compressed = true) (h : Delivers z net total stop)
    (counts : List Nat) :
    ∃ results, receiveAll z emalloc counts net = some results ∧
      (results = expectedResults total counts ↔
        ¬ (total.length < counts.sum ∧ Misread z stop.1 stop.2)) := by
  induction counts generalizing net total with
  | nil =>
    refine ⟨[], rfl, iff_of_true rfl ?_⟩
    simp
  | cons count counts ih =>
    obtain ⟨ret, bytes, net', hr, hreceived, -⟩ := receive_received emalloc _ hcompressed h
      count (Nat.lt_succ_self net.stream.length)
    rw [receiveAll, expectedResults, sum_cons]
    by_cases hcount : count ≤ total.length
    · obtain ⟨rfl, rfl, hcompressed', hdelivers⟩ := hreceived.enough hcount
      obtain ⟨results, hresults, hiff⟩ := ih hcompressed' hdelivers
      rw [if_pos hcount]
      refine ⟨(.pass, total.take count) :: results, ?_, ?_⟩
      · simp only [bind, Option.bind, hr, hresults]
        rfl
      · rw [cons_eq_cons, hiff, length_drop, and_iff_right rfl]
        have hsum : total.length - count < counts.sum ↔ total.length < count + counts.sum := by omega
        rw [hsum]
    · rw [if_neg hcount]
      have hlt : total.length < count := by omega
      have hsum : total.length < count + counts.sum := by omega
      by_cases hmisread : Misread z stop.1 stop.2
      · have hlonger := hreceived.misread hlt hmisread
        obtain ⟨results, hresults⟩ := receiveAll_some z emalloc (count :: counts)
          ⟨hcompressed, h.imp fun _ h => h.1⟩
        rw [receiveAll] at hresults
        refine ⟨results, hresults, iff_of_false ?_ (fun hnot => hnot ⟨hsum, hmisread⟩)⟩
        -- a call that has delivered too much differs, whatever its status
        rintro rfl
        simp only [bind, Option.bind, hr] at hresults
        cases ret with
        | fail =>
          have hbytes : bytes = total :=
            congrArg Prod.snd (List.cons.inj (Option.some.inj hresults)).1
          rw [hbytes] at hlonger
          omega
        | pass =>
          dsimp only at hresults
          split at hresults
          · exact nomatch hresults
          · exact nomatch congrArg Prod.fst (List.cons.inj (Option.some.inj hresults)).1
      · obtain ⟨rfl, rfl⟩ := hreceived.refused hlt hmisread
        refine ⟨[(.fail, bytes)], ?_, iff_of_true rfl (fun hboth => hmisread hboth.2)⟩
        simp only [bind, Option.bind, hr]
        rfl

/-- From a new connection on, every call delivers the next bytes of the decoded envelopes, and the
first one that needs more fails and delivers the bytes in front of the envelope that is not in order:
if and only if no call needs bytes of a misread envelope. -/
theorem receive_delivers_or_refuses (z : Decompressor) (emalloc : Emalloc) (net : ReceiveNet)
    (hcompressed : net.compressed = true) (hnew : net.uncompressedData = none)
    (counts : List Nat) :
    ∃ results, receiveAll z emalloc counts net = some results ∧
      (results = expectedResults (decodeAll z net.compressedEnvelopePacketNo net.stream).1 counts ↔
        ¬ ((decodeAll z net.compressedEnvelopePacketNo net.stream).1.length < counts.sum ∧
          Misread z (decodeAll z net.compressedEnvelopePacketNo net.stream).2.1
            (decodeAll z net.compressedEnvelopePacketNo net.stream).2.2)) := by
  have hbuf : Buffered net [] := by
    unfold Buffered
    rw [hnew]
  exact receiveAll_eq_iff hcompressed ⟨[], hbuf, rfl, rfl⟩ counts

def Decompressor.refusing : Decompressor where
  uncompress _ _ := (false, [])
  fits _ _ := Nat.zero_le _

def connected (stream : List UInt8) : ReceiveNet :=
  { compressed := true, compressedEnvelopePacketNo := 0, uncompressedData := none, stream
    warnings := [] }

theorem receive_delivers_or_refuses_stored :
    ∃ results, receiveAll .refusing (fun n => ⟨replicate n 0, length_replicate⟩) [1]
        (connected [1, 0, 0, 0, 0, 0, 0, 65]) = some results ∧
      (results = expectedResults (decodeAll .refusing 0 [1, 0, 0, 0, 0, 0, 0, 65]).1 [1] ↔
        ¬ ((decodeAll .refusing 0 [1, 0, 0, 0, 0, 0, 0, 65]).1.length < [1].sum ∧
          Misread .refusing (decodeAll .refusing 0 [1, 0, 0, 0, 0, 0, 0, 65]).2.1
            (decodeAll .refusing 0 [1, 0, 0, 0, 0, 0, 0, 65]).2.2)) :=
  receive_delivers_or_refuses .refusing _ (connected [1, 0, 0, 0, 0, 0, 0, 65]) rfl rfl [1]

/-- A stored envelope of one byte, which never comes: the call passes with what was in the memory. -/
theorem receive_delivers_garbage :
    receiveAll .refusing (fun n => ⟨replicate n 0, length_replicate⟩) [1]
        (connected [1, 0, 0, 0, 0, 0, 0]) = some [(.pass, [0])] ∧
      expectedResults (decodeAll .refusing 0 [1, 0, 0, 0, 0, 0, 0]).1 [1] = [(.fail, [])] := by
  constructor
  · decide +kernel
  · have hnone : nextContent .refusing 0 [1, 0, 0, 0, 0, 0, 0] = none := by decide +kernel
    rw [decodeAll_none hnone]
    rfl

end Php53.Mysqlnd
