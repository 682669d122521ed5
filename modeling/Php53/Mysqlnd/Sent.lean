import Php53.Mysqlnd.Send

/-!
# Sent — what the server gets of a payload

The payload is cut into packets of the maximal length and a shorter one.  Each of them is one write;
in compressed mode that write is an envelope only if the packet with its header fits 24 bits.
-/

namespace Php53.Mysqlnd

open Reasoning List

variable {z : Compressor}

variable {chunks : List (List UInt8)} {a c h payload : List UInt8} {p : Packet} {offset : Int}

def Chunked (chunks : List (List UInt8)) (payload : List UInt8) : Prop :=
  chunks.flatten = payload ∧ ∃ (full : List (List UInt8)) (last : List UInt8), chunks = full ++ [last] ∧
    (∀ c ∈ full, c.length = mysqlndMaxPacketSize) ∧ last.length < mysqlndMaxPacketSize

/-- The packets with these payloads, numbered from `sequence` on. -/
def packetsFrom (sequence : UInt8) : List (List UInt8) → List Packet
  | [] => []
  | c :: cs => { sequence, payload := c } :: packetsFrom (sequence + 1) cs

def chunksOf (payload : List UInt8) : List (List UInt8) :=
  if payload.length < mysqlndMaxPacketSize then [payload]
  else payload.take mysqlndMaxPacketSize :: chunksOf (payload.drop mysqlndMaxPacketSize)
termination_by payload.length
decreasing_by
  rw [length_drop]
  unfold mysqlndMaxPacketSize at *
  omega

theorem chunked_chunksOf (payload : List UInt8) : Chunked (chunksOf payload) payload := by
  induction payload using chunksOf.induct with
  | case1 payload hlt =>
    rw [chunksOf, if_pos hlt]
    refine ⟨by simp, [], payload, rfl, fun c hc => absurd hc not_mem_nil, hlt⟩
  | case2 payload hge ih =>
    rw [chunksOf, if_neg hge]
    obtain ⟨hflatten, full, last, hchunks, hfull, hlast⟩ := ih
    refine ⟨?_, payload.take mysqlndMaxPacketSize :: full, last, by rw [hchunks]; rfl,
      fun c hc => ?_, hlast⟩
    · rw [flatten_cons, hflatten, take_append_drop]
    · rcases mem_cons.mp hc with rfl | hc
      · rw [length_take]
        omega
      · exact hfull c hc

theorem Chunked.length_le (h : Chunked chunks payload) (hc : c ∈ chunks)
    : c.length ≤ mysqlndMaxPacketSize := by
  obtain ⟨-, full, last, rfl, hfull, hlast⟩ := h
  rcases mem_append.mp hc with hc | hc
  · exact Nat.le_of_eq (hfull c hc)
  · rw [mem_singleton.mp hc]
    omega

theorem Chunked.head_length (h : Chunked chunks payload) : ∃ c cs, chunks = c :: cs ∧
      c.length = min payload.length mysqlndMaxPacketSize := by
  obtain ⟨hflatten, full, last, rfl, hfull, hlast⟩ := h
  cases full with
  | nil =>
    refine ⟨last, [], rfl, ?_⟩
    rw [← hflatten]
    simp only [nil_append, flatten_cons, flatten_nil, append_nil]
    omega
  | cons c cs =>
    refine ⟨c, cs ++ [last], rfl, ?_⟩
    have hc := hfull c mem_cons_self
    rw [← hflatten]
    simp only [cons_append, flatten_cons, length_append]
    omega

theorem mem_packetsFrom {sequence : UInt8} (h : p ∈ packetsFrom sequence chunks)
    : p.payload ∈ chunks := by
  induction chunks generalizing sequence with
  | nil => exact absurd h not_mem_nil
  | cons c cs ih =>
    rcases mem_cons.mp h with rfl | h
    · exact mem_cons_self
    · exact mem_cons_of_mem _ (ih h)

def written (z : Compressor) (compressed : Bool) (p : Packet) : List UInt8 :=
  if compressed then
    match z.compress p.payload.length p.encode with
    | some out => netHeader out.length p.sequence ++ (int3store (p.payload.length + 4) ++ out)
    | none => netHeader (p.payload.length + 4) p.sequence ++ (int3store 0 ++ p.encode)
  else p.encode

def Carries (z : Compressor) (compressed : Bool) (write : List UInt8) (p : Packet) : Prop :=
  if compressed then ∃ e : Envelope, e.Valid ∧ write = e.encode ∧ e.Holds z p.encode
  else write = p.encode

theorem Envelope.Holds.length_lt {e : Envelope} {content : List UInt8} (h : e.Holds z content)
    (hvalid : e.Valid) : content.length < 2 ^ 24 := by
  unfold Envelope.Holds at h
  split at h
  · rw [h]
    exact hvalid.1
  · rw [h.1]
    exact hvalid.2

theorem Carries.length_lt {write : List UInt8} (h : Carries z true write p) :
    p.payload.length + 4 < 2 ^ 24 := by
  obtain ⟨e, hvalid, -, hholds⟩ := (if_pos rfl).mp h
  rw [← p.length_encode]
  exact hholds.length_lt hvalid

theorem carries_written {compressed : Bool}
    (hlen : compressed = true → p.payload.length + 4 < 2 ^ 24) :
    Carries z compressed (written z compressed p) p := by
  cases compressed with
  | false => rfl
  | true =>
    have hlt := hlen rfl
    unfold Carries written
    rw [if_pos rfl, if_pos rfl]
    cases hz : z.compress p.payload.length p.encode with
    | none =>
      refine ⟨{ sequence := p.sequence, uncompressedLength := 0, body := p.encode }, ?_, ?_, ?_⟩
      · exact ⟨p.length_encode ▸ hlt, Nat.two_pow_pos 24⟩
      · dsimp only [Envelope.encode]
        rw [p.length_encode]
      · exact if_pos rfl |>.mpr rfl
    | some out =>
      have hfits := z.fits hz
      refine ⟨{ sequence := p.sequence, uncompressedLength := p.payload.length + 4, body := out }, ?_,
        rfl, ?_⟩
      · exact ⟨show out.length < 2 ^ 24 by omega, hlt⟩
      · unfold Envelope.Holds
        rw [if_neg (Nat.succ_ne_zero _)]
        exact ⟨p.length_encode, p.payload.length, hz⟩

theorem receives_of_carries {compressed : Bool} {writes : List (List UInt8)} {packets : List Packet}
    (h : List.Forall₂ (Carries z compressed) writes packets)
    (hvalid : ∀ p ∈ packets, p.Valid) : Receives z compressed writes.flatten packets := by
  have hparse := Packet.framing.parse_encodeAll hvalid
  unfold Receives
  cases compressed with
  | false =>
    rw [if_neg Bool.false_ne_true]
    have hflat : writes.flatten = Packet.framing.encodeAll packets := by
      clear hparse hvalid
      induction h with
      | nil => rfl
      | cons hw _ ih =>
        rw [flatten_cons, Framing.encodeAll_cons, ih]
        exact congrArg (· ++ _) hw
    rw [hflat, hparse]
  | true =>
    rw [if_pos rfl]
    have henv : ∃ envelopes, (∀ e ∈ envelopes, Envelope.Valid e) ∧
        writes.flatten = Envelope.framing.encodeAll envelopes ∧
        List.Forall₂ (Envelope.Holds z) envelopes (packets.map Packet.encode) := by
      clear hparse hvalid
      induction h with
      | nil => exact ⟨[], fun e he => absurd he not_mem_nil, rfl, .nil⟩
      | cons hw _ ih =>
        obtain ⟨e, hvalid, rfl, hholds⟩ := (if_pos rfl).mp hw
        obtain ⟨es, hes, hflat, hall⟩ := ih
        refine ⟨e :: es, ?_, ?_, .cons hholds hall⟩
        · intro e' he'
          rcases mem_cons.mp he' with rfl | he'
          · exact hvalid
          · exact hes e' he'
        · rw [flatten_cons, Framing.encodeAll_cons, hflat]
          rfl
    obtain ⟨envelopes, hes, hflat, hall⟩ := henv
    refine ⟨envelopes, packets.map Packet.encode, ?_, hall, ?_⟩
    · rw [hflat]
      exact Envelope.framing.parse_encodeAll hes
    · have hcontents : (packets.map Packet.encode).flatten = Packet.framing.encodeAll packets :=
        flatMap_def.symm
      rw [hcontents, hparse]

theorem exists_append {l : List UInt8} {n : Nat} (h : n ≤ l.length) :
    ∃ a b, l = a ++ b ∧ a.length = n :=
  ⟨l.take n, l.drop n, (take_append_drop n l).symm, by rw [length_take]; omega⟩

theorem storeAt_eq (mem bytes : List UInt8) {b : List UInt8} (hmem : mem = a ++ (b ++ c))
    (ha : a.length = offset) (hb : b.length = bytes.length) :
    storeAt mem offset bytes = some (a ++ (bytes ++ c)) := by
  have hroom : bytes.length ≤ (b ++ c).length := by
    rw [length_append]
    omega
  subst hmem ha
  rw [storeAt_append hroom, drop_left' hb]

theorem loadAt_eq (mem b : List UInt8) (length : Int) (hmem : mem = a ++ (b ++ c))
    (ha : a.length = offset) (hb : b.length = length) : loadAt mem offset length = some b := by
  subst hmem ha hb
  exact loadAt_append a b c

theorem storeAt_header {mem : List UInt8} (hmem : mem = a ++ (h ++ c)) (ha : a.length = offset)
    (hh : h.length = 4) (n : Nat) (sequence : UInt8) :
    ∃ mem', storeAt mem offset (int3store n) = some mem' ∧
      storeAt mem' (offset + 3) [sequence] = some (a ++ (netHeader n sequence ++ c)) := by
  obtain ⟨l, o, rfl, hl⟩ := exists_append (n := 3) (by omega : 3 ≤ h.length)
  rw [length_append] at hh
  refine ⟨a ++ (int3store n ++ (o ++ c)), storeAt_eq mem _ (b := l) ?_ ha hl, ?_⟩
  · rw [hmem, append_assoc]
  · have hplace : ((a ++ int3store n).length : Int) = offset + 3 := by
      rw [length_append, length_int3store]
      omega
    have hone : o.length = [sequence].length := by
      rw [length_singleton]
      omega
    rw [storeAt_eq _ [sequence] (append_assoc a (int3store n) (o ++ c)).symm hplace hone]
    simp only [netHeader, append_assoc]

theorem fillEnvelope_eq (z : Compressor) {compressBuf : List UInt8} (p : Packet)
    (hbuf : 7 + (p.payload.length + 4) ≤ compressBuf.length) :
    ∃ compressBuf' n, fillEnvelope z compressBuf p.sequence p.encode p.payload.length =
        some (compressBuf', n) ∧
      loadAt compressBuf' 0 (n + mysqlndHeaderSize + compressedHeaderSize) =
        some (written z true p) ∧ compressBuf'.length = compressBuf.length := by
  -- the envelope has three places: header, uncompressed length and body
  obtain ⟨h, r, rfl, hh⟩ := exists_append (n := 4) (by omega : 4 ≤ compressBuf.length)
  rw [length_append] at hbuf
  obtain ⟨u, r, rfl, hu⟩ := exists_append (n := 3) (by omega : 3 ≤ r.length)
  rw [length_append] at hbuf
  unfold fillEnvelope written
  rw [if_pos rfl]
  have hsizes : (h.length : Int) = mysqlndHeaderSize := congrArg Nat.cast hh
  have hplaces : ((h ++ u).length : Int) = compressedHeaderSize + mysqlndHeaderSize := by
    rw [length_append, hh, hu]
    rfl
  have hstart : (([] : List UInt8).length : Int) = 0 := rfl
  cases hz : z.compress p.payload.length p.encode with
  | some out =>
    have hfits := z.fits hz
    obtain ⟨b, r, rfl, hb⟩ := exists_append (n := out.length) (by omega : out.length ≤ r.length)
    have hbody := storeAt_eq (h ++ (u ++ (b ++ r))) out
      (append_assoc h u (b ++ r)).symm hplaces hb
    have hlength := storeAt_eq (h ++ u ++ (out ++ r))
      (int3store (p.payload.length + mysqlndHeaderSize))
      (append_assoc h u (out ++ r)) hsizes hu
    obtain ⟨mem', hfirst, hsecond⟩ := storeAt_header (a := [])
      (nil_append (h ++ (int3store (p.payload.length + mysqlndHeaderSize) ++ (out ++ r)))).symm
      hstart hh out.length p.sequence
    rw [Int.zero_add, nil_append] at hsecond
    refine ⟨netHeader out.length p.sequence ++
      (int3store (p.payload.length + mysqlndHeaderSize) ++ (out ++ r)), out.length, ?_, ?_, ?_⟩
    · simp only [bind, Option.bind, hbody, hlength, hfirst, hsecond]
      rfl
    · apply loadAt_eq _ _ _ (a := []) (c := r)
      · simp only [nil_append, append_assoc]
        rfl
      · rfl
      · simp only [length_append, length_netHeader, length_int3store, mysqlndHeaderSize,
          compressedHeaderSize]
        omega
    · simp only [length_append, length_netHeader, length_int3store]
      omega
  | none =>
    obtain ⟨b, r, rfl, hb⟩ := exists_append (n := p.encode.length)
      (by rw [p.length_encode]; omega : p.encode.length ≤ r.length)
    have hlength := storeAt_eq (h ++ (u ++ (b ++ r))) (int3store 0) rfl hsizes hu
    have hplaces' : ((h ++ int3store 0).length : Int) =
        mysqlndHeaderSize + compressedHeaderSize := by
      rw [length_append, hh]
      rfl
    have hbody := storeAt_eq (h ++ (int3store 0 ++ (b ++ r))) p.encode
      (append_assoc h _ (b ++ r)).symm hplaces' hb
    obtain ⟨mem', hfirst, hsecond⟩ := storeAt_header (a := [])
      (append_assoc h (int3store 0) (p.encode ++ r)) hstart hh
      (p.payload.length + mysqlndHeaderSize) p.sequence
    rw [Int.zero_add, nil_append] at hsecond
    refine ⟨netHeader (p.payload.length + mysqlndHeaderSize) p.sequence ++
      (int3store 0 ++ (p.encode ++ r)), p.payload.length + mysqlndHeaderSize, ?_, ?_, ?_⟩
    · simp only [bind, Option.bind, hbody, hlength, hfirst, hsecond]
      rfl
    · apply loadAt_eq _ _ _ (a := []) (c := r)
      · simp only [nil_append, append_assoc]
        rfl
      · rfl
      · simp only [length_append, length_netHeader, length_int3store, Packet.length_encode,
          mysqlndHeaderSize, compressedHeaderSize]
        omega
    · simp only [length_append, length_netHeader, length_int3store]
      omega

theorem preparePacket_eq (z : Compressor) {s : SendState} {chunk rest : List UInt8} {p : Nat}
    (hbuf : s.buf = a ++ (h ++ (chunk ++ rest))) (ha : a.length = p) (hh : h.length = 4)
    (hcompress : s.net.compressed = true → 7 + (chunk.length + 4) ≤ s.compressBuf.length) :
    ∃ compressBuf, s.preparePacket z p chunk.length =
        some (written z s.net.compressed { sequence := s.net.packetNo, payload := chunk },
          { s with buf := a ++ (netHeader chunk.length s.net.packetNo ++ (chunk ++ rest))
                   safeStorage := netHeader chunk.length s.net.packetNo
                   compressBuf }) ∧
      compressBuf.length = s.compressBuf.length := by
  have ha : (a.length : Int) = p := congrArg Nat.cast ha
  have hsaved := loadAt_eq s.buf h mysqlndHeaderSize hbuf ha (congrArg Nat.cast hh)
  obtain ⟨mem', hfirst, hsecond⟩ := storeAt_header hbuf ha hh chunk.length s.net.packetNo
  have hrestored := loadAt_eq (a ++ (netHeader chunk.length s.net.packetNo ++ (chunk ++ rest)))
    (netHeader chunk.length s.net.packetNo) mysqlndHeaderSize rfl ha rfl
  have hpacket := loadAt_eq (a ++ (netHeader chunk.length s.net.packetNo ++ (chunk ++ rest)))
    (Packet.encode { sequence := s.net.packetNo, payload := chunk }) (chunk.length + mysqlndHeaderSize)
    (c := rest) (by simp only [Packet.encode, append_assoc]) ha
    (congrArg Nat.cast (Packet.length_encode _))
  unfold SendState.preparePacket SendState.restoreHeaderSize SendState.storeHeaderSize
    SendState.copyHeader SendState.putHeader
  cases hc : s.net.compressed with
  | false =>
    refine ⟨s.compressBuf, ?_, rfl⟩
    simp only [bind, Option.bind, hsaved, hfirst, hsecond, hpacket, hrestored, pure, hc,
      Bool.false_eq_true, if_false]
    rfl
  | true =>
    obtain ⟨compressBuf, n, hfill, hload, hlen⟩ := fillEnvelope_eq z
      { sequence := s.net.packetNo, payload := chunk } (hcompress hc)
    refine ⟨compressBuf, ?_, hlen⟩
    simp only [bind, Option.bind, hsaved, hfirst, hsecond, hpacket, hrestored, pure, hc, if_true,
      hfill, hload]

/-- The payload in the caller's buffer after the packets were sent, the first of them with the
number `sequence`. -/
def overwritten (sequence : UInt8) (payload : List UInt8) : List UInt8 :=
  if payload.length < mysqlndMaxPacketSize then payload
  else payload.take (mysqlndMaxPacketSize - 4) ++
    (netHeader (min (payload.length - mysqlndMaxPacketSize) mysqlndMaxPacketSize) (sequence + 1) ++
      overwritten (sequence + 1) (payload.drop mysqlndMaxPacketSize))
termination_by payload.length
decreasing_by
  rw [length_drop]
  unfold mysqlndMaxPacketSize at *
  omega

theorem packetsFrom_chunksOf (sequence : UInt8) (payload : List UInt8) :
    packetsFrom sequence (chunksOf payload) =
      { sequence, payload := payload.take (min payload.length mysqlndMaxPacketSize) } ::
        if payload.length < mysqlndMaxPacketSize then []
        else packetsFrom (sequence + 1) (chunksOf (payload.drop mysqlndMaxPacketSize)) := by
  rw [chunksOf]
  by_cases hlt : payload.length < mysqlndMaxPacketSize
  · rw [if_pos hlt, if_pos hlt, Nat.min_eq_left (Nat.le_of_lt hlt), take_length]
    rfl
  · rw [if_neg hlt, if_neg hlt, Nat.min_eq_right (Nat.le_of_not_lt hlt)]
    rfl

theorem sendLoop_eq (z : Compressor) {write : NetworkWrite}
    (hwrite : ∀ before bytes, write before bytes = bytes.length) (fuel : Nat) {s : SendState}
    (hbuf : s.buf = a ++ (h ++ payload)) (hh : h.length = 4) (hcompress : s.net.compressed = true →
      7 + (min payload.length mysqlndMaxPacketSize + 4) ≤ s.compressBuf.length)
    (hfuel : payload.length < fuel * mysqlndMaxPacketSize) :
    ∃ ret t, sendLoop z write fuel payload.length a.length s = some (ret, t) ∧
      t.writes = s.writes ++ (packetsFrom s.net.packetNo (chunksOf payload)).map
        (written z s.net.compressed) ∧
      t.buf = a ++ (netHeader (min payload.length mysqlndMaxPacketSize) s.net.packetNo ++
        overwritten s.net.packetNo payload) := by
  induction fuel generalizing s a h payload with
  | zero => omega
  | succ fuel ih =>
    obtain ⟨chunk, rest, hpayload, hchunk⟩ :=
      exists_append (Nat.min_le_left payload.length mysqlndMaxPacketSize)
    rw [hpayload] at hbuf
    rw [← hchunk] at hcompress
    obtain ⟨compressBuf, hprepare, hlen⟩ := preparePacket_eq z hbuf rfl hh hcompress
    have hrest : payload.length = chunk.length + rest.length := by
      rw [hpayload, length_append]
    have htake : payload.take chunk.length = chunk := by rw [hpayload, take_left]
    have hdrop : payload.drop chunk.length = rest := by rw [hpayload, drop_left]
    have hpos : written z s.net.compressed { sequence := s.net.packetNo, payload := chunk } ≠ [] := by
      unfold written
      split
      · split <;> exact append_ne_nil_of_left_ne_nil (cons_ne_nil _ _) _
      · exact append_ne_nil_of_left_ne_nil (cons_ne_nil _ _) _
    rw [packetsFrom_chunksOf, overwritten, sendLoop]
    simp only [← hchunk, bind, Option.bind, hprepare, hwrite, take_length, htake]
    by_cases hlt : payload.length < mysqlndMaxPacketSize
    · -- the last packet
      have hnil : rest = [] := eq_nil_of_length_eq_zero (by omega)
      have hsame : payload = chunk := by rw [hpayload, hnil, append_nil]
      rw [if_pos hlt, if_pos hlt, if_neg (by omega)]
      refine ⟨_, _, rfl, rfl, ?_⟩
      rw [hsame, hnil, append_nil]
    · have hmax : chunk.length = mysqlndMaxPacketSize := by omega
      rw [if_neg hlt, if_neg hlt, if_pos ⟨mt eq_nil_of_length_eq_zero hpos, Or.inr hmax⟩, ← hmax,
        hdrop]
      -- the next header is stored over the last four bytes of this part
      obtain ⟨first, last, hsplit, hfirst⟩ :=
        exists_append (n := chunk.length - 4) (l := chunk) (Nat.sub_le _ _)
      have hlast : last.length = 4 := by
        have := congrArg List.length hsplit
        rw [length_append, hfirst] at this
        unfold mysqlndMaxPacketSize at hmax
        omega
      have hlength : (a ++ (netHeader chunk.length s.net.packetNo ++ first)).length =
          a.length + chunk.length := by
        rw [length_append, length_append, length_netHeader, hfirst]
        unfold mysqlndMaxPacketSize at hmax
        omega
      have hbuf' : a ++ (netHeader chunk.length s.net.packetNo ++ (chunk ++ rest)) =
          (a ++ (netHeader chunk.length s.net.packetNo ++ first)) ++ (last ++ rest) := by
        simp only [hsplit, append_assoc]
      have hsub : payload.length - chunk.length = rest.length := by omega
      have hcompress' : s.net.compressed = true →
          7 + (min rest.length mysqlndMaxPacketSize + 4) ≤ compressBuf.length := by
        intro hc
        have := hcompress hc
        omega
      obtain ⟨ret, t, ht, hwrites, htbuf⟩ := ih (s := { s with
          buf := a ++ (netHeader chunk.length s.net.packetNo ++ (chunk ++ rest))
          safeStorage := netHeader chunk.length s.net.packetNo
          compressBuf
          writes := s.writes ++
            [written z s.net.compressed { sequence := s.net.packetNo, payload := chunk }]
          net := { s.net with
            compressedEnvelopePacketNo := s.net.compressedEnvelopePacketNo + 1
            packetNo := s.net.packetNo + 1 }
          packetsSent := s.packetsSent + 1 }) hbuf' hlast hcompress'
        (by rw [Nat.succ_mul] at hfuel; omega)
      rw [hlength] at ht
      rw [hsub]
      refine ⟨ret, t, ht, ?_, ?_⟩
      · rw [hwrites]
        simp only [map_cons, append_assoc, singleton_append]
      · have htake' : payload.take (chunk.length - 4) = first := by
          rw [← hfirst, hpayload, hsplit, append_assoc, take_left]
        rw [htbuf, htake', ← hmax]
        simp only [append_assoc]

def HeadersInPlace (sequence : UInt8) (payload : List UInt8) : Prop :=
  ∀ k, (k + 1) * mysqlndMaxPacketSize ≤ payload.length →
    (payload.drop ((k + 1) * mysqlndMaxPacketSize - 4)).take 4 =
      netHeader (min (payload.length - (k + 1) * mysqlndMaxPacketSize) mysqlndMaxPacketSize)
        (sequence + .ofNat (k + 1))

theorem headersInPlace_of_lt (sequence : UInt8) (h : payload.length < mysqlndMaxPacketSize)
    : HeadersInPlace sequence payload := by
  intro k hk
  rw [Nat.succ_mul] at hk
  omega

theorem headersInPlace_append (sequence : UInt8) {first last rest : List UInt8}
    (hfirst : first.length = mysqlndMaxPacketSize - 4) (hlast : last.length = 4) :
    HeadersInPlace sequence (first ++ (last ++ rest)) ↔
      last = netHeader (min rest.length mysqlndMaxPacketSize) (sequence + 1) ∧
        HeadersInPlace (sequence + 1) rest := by
  have hmax : 4 ≤ mysqlndMaxPacketSize := by decide
  have hlen : (first ++ (last ++ rest)).length = mysqlndMaxPacketSize + rest.length := by
    simp only [length_append, hfirst, hlast]
    omega
  have hdrop : ∀ n, (first ++ (last ++ rest)).drop (mysqlndMaxPacketSize + n) = rest.drop n := by
    intro n
    rw [← append_assoc, drop_append, drop_eq_nil_of_le, nil_append]
    · congr 1
      rw [length_append]
      omega
    · rw [length_append]
      omega
  have hzero : ((first ++ (last ++ rest)).drop ((0 + 1) * mysqlndMaxPacketSize - 4)).take 4 = last := by
    rw [Nat.zero_add, Nat.one_mul, ← hfirst, drop_left, ← hlast, take_left]
  have hsucc : ∀ k, (k + 1 + 1) * mysqlndMaxPacketSize =
      mysqlndMaxPacketSize + (k + 1) * mysqlndMaxPacketSize := by
    intro k
    rw [Nat.succ_mul, Nat.add_comm]
  have hsequence : ∀ k, sequence + UInt8.ofNat (k + 1 + 1) = sequence + 1 + UInt8.ofNat (k + 1) := by
    intro k
    rw [Nat.add_comm (k + 1) 1, UInt8.ofNat_add, ← UInt8.add_assoc]
    rfl
  unfold HeadersInPlace
  rw [hlen]
  constructor
  · intro h
    refine ⟨?_, fun k hk => ?_⟩
    · have h₀ := h 0 (by omega)
      rw [hzero, Nat.zero_add, Nat.one_mul, Nat.add_sub_cancel_left] at h₀
      exact h₀
    · have hk' := h (k + 1) (by rw [hsucc]; omega)
      rw [hsucc, hsequence, Nat.add_sub_assoc, hdrop, Nat.add_sub_add_left] at hk'
      · exact hk'
      · rw [Nat.succ_mul]
        omega
  · rintro ⟨hlast', h⟩ k hk
    cases k with
    | zero =>
      rw [hzero, Nat.zero_add, Nat.one_mul, Nat.add_sub_cancel_left]
      exact hlast'
    | succ k =>
      rw [hsucc] at hk
      rw [hsucc, hsequence, Nat.add_sub_assoc, hdrop, Nat.add_sub_add_left]
      · exact h k (by omega)
      · rw [Nat.succ_mul]
        omega

theorem overwritten_eq_iff (sequence : UInt8) (payload : List UInt8) :
    overwritten sequence payload = payload ↔ HeadersInPlace sequence payload := by
  induction sequence, payload using overwritten.induct with
  | case1 sequence payload hlt =>
    rw [overwritten, if_pos hlt]
    exact iff_of_true rfl (headersInPlace_of_lt sequence hlt)
  | case2 sequence payload hge ih =>
    obtain ⟨first, r, rfl, hfirst⟩ := exists_append (n := mysqlndMaxPacketSize - 4)
      (by omega : mysqlndMaxPacketSize - 4 ≤ payload.length)
    have hmax : 4 ≤ mysqlndMaxPacketSize := by decide
    rw [length_append] at hge
    obtain ⟨last, rest, rfl, hlast⟩ := exists_append (n := 4) (by omega : 4 ≤ r.length)
    have hdrop : (first ++ (last ++ rest)).drop mysqlndMaxPacketSize = rest := by
      rw [← append_assoc]
      apply drop_left'
      rw [length_append]
      omega
    have hsub : (first ++ (last ++ rest)).length - mysqlndMaxPacketSize = rest.length := by
      simp only [length_append]
      omega
    rw [hdrop] at ih
    rw [headersInPlace_append sequence hfirst hlast, overwritten, if_neg, hdrop, hsub, ← hfirst,
      take_left, append_cancel_left_eq, ← ih]
    · constructor
      · intro h
        obtain ⟨hheader, hrest⟩ := append_inj h (by rw [length_netHeader, hlast])
        exact ⟨hheader.symm, hrest⟩
      · rintro ⟨hheader, hrest⟩
        rw [hrest, ← hheader]
    · rw [length_append]
      omega

theorem send_eq (z : Compressor) (emalloc : Emalloc) {write : NetworkWrite}
    (hwrite : ∀ before bytes, write before bytes = bytes.length) (net : MysqlndNet)
    {space : List UInt8} (payload : List UInt8) (hspace : space.length = mysqlndHeaderSize) :
    ∃ r, send z emalloc write net (space ++ payload) payload.length = some r ∧
      r.state.writes =
        (packetsFrom net.packetNo (chunksOf payload)).map (written z net.compressed) ∧
      r.state.buf.drop mysqlndHeaderSize = overwritten net.packetNo payload := by
  have hfuel : payload.length < (payload.length / mysqlndMaxPacketSize + 1) * mysqlndMaxPacketSize := by
    unfold mysqlndMaxPacketSize
    omega
  obtain ⟨ret, t, ht, hwrites, hbuf⟩ := sendLoop_eq z hwrite _ (s :=
    { net, buf := space ++ payload, safeStorage := []
      compressBuf := if net.compressed then (emalloc (mysqlndHeaderSize + compressedHeaderSize +
        mysqlndHeaderSize + min payload.length mysqlndMaxPacketSize)).1 else []
      writes := [], packetsSent := 1 }) (a := []) rfl hspace
    (by
      intro hc
      dsimp only at hc ⊢
      rw [if_pos hc, (emalloc _).2]
      unfold mysqlndHeaderSize compressedHeaderSize
      omega) hfuel
  unfold send
  rw [length_nil] at ht
  simp only [bind, Option.bind, ht]
  refine ⟨_, rfl, hwrites, ?_⟩
  dsimp only
  rw [hbuf]
  rfl

/-- What the caller and the server expect of `send`. -/
structure SentCorrectly (z : Compressor) (net : MysqlndNet) (payload : List UInt8) (r : SendResult) :
    Prop where
  carried : ∃ chunks, Chunked chunks payload ∧
    List.Forall₂ (Carries z net.compressed) r.state.writes (packetsFrom net.packetNo chunks)
  payload : r.state.buf.drop mysqlndHeaderSize = payload

/-- Compressed, the packet and its header have to fit the 24 bits of an envelope.  Otherwise the
headers behind the first one have to be in the payload already. -/
def Sendable (net : MysqlndNet) (payload : List UInt8) : Prop :=
  if net.compressed then payload.length + mysqlndHeaderSize < 2 ^ 24
  else HeadersInPlace net.packetNo payload

theorem sentCorrectly_iff {net : MysqlndNet} {r : SendResult} (hwrites : r.state.writes =
      (packetsFrom net.packetNo (chunksOf payload)).map (written z net.compressed))
    (hbuf : r.state.buf.drop mysqlndHeaderSize = overwritten net.packetNo payload) :
    SentCorrectly z net payload r ↔ Sendable net payload := by
  have hcarried : ∀ packets : List Packet,
      (∀ p ∈ packets, net.compressed = true → p.payload.length + 4 < 2 ^ 24) →
      List.Forall₂ (Carries z net.compressed) (packets.map (written z net.compressed)) packets := by
    intro packets hpackets
    rw [forall₂_map_left_iff, forall₂_same]
    exact fun p hp => carries_written (hpackets p hp)
  have hchunked := chunked_chunksOf payload
  unfold Sendable
  cases hc : net.compressed with
  | false =>
    rw [if_neg Bool.false_ne_true, ← overwritten_eq_iff, ← hbuf]
    rw [hc] at hcarried hwrites
    constructor
    · exact fun h => h.payload
    · intro h
      refine ⟨⟨chunksOf payload, hchunked, ?_⟩, h⟩
      rw [hc, hwrites]
      exact hcarried _ fun p _ hfalse => nomatch hfalse
  | true =>
    rw [if_pos rfl]
    rw [hc] at hcarried hwrites
    constructor
    · intro h
      obtain ⟨chunks, hchunks, hall⟩ := h.carried
      obtain ⟨c, cs, rfl, hlen⟩ := hchunks.head_length
      rw [hc] at hall
      generalize r.state.writes = writes at hall
      cases hall with
      | cons hw _ =>
        have hlt : c.length + 4 < 2 ^ 24 := hw.length_lt
        unfold mysqlndHeaderSize
        unfold mysqlndMaxPacketSize at hlen
        omega
    · intro h
      have hsmall : payload.length < mysqlndMaxPacketSize := by
        unfold mysqlndMaxPacketSize
        unfold mysqlndHeaderSize at h
        omega
      refine ⟨⟨chunksOf payload, hchunked, ?_⟩, ?_⟩
      · rw [hc, hwrites]
        apply hcarried
        intro p hp _
        have hle := hchunked.length_le (mem_packetsFrom hp)
        have hmem := mem_packetsFrom hp
        rw [chunksOf, if_pos hsmall] at hmem
        rw [mem_singleton.mp hmem]
        exact h
      · rw [hbuf, overwritten, if_pos hsmall]

/-- No store leaves its buffer, and the payload is sent as it has to be if and only if it is
`Sendable`; the stream then is received as packets with the parts of the payload. -/
theorem send_sends_the_payload (z : Compressor) (emalloc : Emalloc) {write : NetworkWrite}
    (hwrite : ∀ before bytes, write before bytes = bytes.length) (net : MysqlndNet)
    (space payload : List UInt8) (hspace : space.length = mysqlndHeaderSize) :
    ∃ r, send z emalloc write net (space ++ payload) payload.length = some r ∧
      (SentCorrectly z net payload r ↔ Sendable net payload) ∧
      (SentCorrectly z net payload r → ∃ chunks, Chunked chunks payload ∧
        Receives z net.compressed r.state.writes.flatten (packetsFrom net.packetNo chunks)) := by
  obtain ⟨r, hr, hwrites, hbuf⟩ := send_eq z emalloc hwrite net payload hspace
  refine ⟨r, hr, sentCorrectly_iff hwrites hbuf, fun h => ?_⟩
  obtain ⟨chunks, hchunks, hall⟩ := h.carried
  refine ⟨chunks, hchunks, receives_of_carries hall fun p hp => ?_⟩
  have hle := hchunks.length_le (mem_packetsFrom hp)
  unfold Packet.Valid
  unfold mysqlndMaxPacketSize at hle
  omega

def Compressor.stored : Compressor where
  compress _ _ := none
  fits h := nomatch h
  injective h := nomatch h

theorem send_sends_the_payload_query :
    ∃ r, send .stored (fun n => ⟨replicate n 0, length_replicate⟩)
        (fun _ bytes => bytes.length)
        { compressed := true, packetNo := 0, compressedEnvelopePacketNo := 0 }
        ([0, 0, 0, 0] ++ [3, 65]) [3, 65].length = some r ∧
      (SentCorrectly .stored { compressed := true, packetNo := 0, compressedEnvelopePacketNo := 0 }
        [3, 65] r ↔ Sendable { compressed := true, packetNo := 0, compressedEnvelopePacketNo := 0 }
        [3, 65]) ∧
      (SentCorrectly .stored { compressed := true, packetNo := 0, compressedEnvelopePacketNo := 0 }
        [3, 65] r → ∃ chunks, Chunked chunks [3, 65] ∧
        Receives .stored true r.state.writes.flatten (packetsFrom 0 chunks)) :=
  send_sends_the_payload .stored _ (fun _ _ => rfl) _ [0, 0, 0, 0] [3, 65] rfl

/-- A payload of the maximal length is not restored: the header of the empty packet stays in it. -/
theorem send_changes_a_full_payload :
    ¬ ∃ r, send .stored (fun n => ⟨replicate n 0, length_replicate⟩)
        (fun _ bytes => bytes.length)
        { compressed := false, packetNo := 0, compressedEnvelopePacketNo := 0 }
        ([0, 0, 0, 0] ++ replicate mysqlndMaxPacketSize 0)
        (replicate mysqlndMaxPacketSize (0 : UInt8)).length = some r ∧
      r.state.buf.drop mysqlndHeaderSize = replicate mysqlndMaxPacketSize 0 := by
  rintro ⟨r, hr, hsame⟩
  obtain ⟨r', hr', -, hbuf⟩ := @send_eq .stored
    (fun n => ⟨replicate n 0, length_replicate⟩) (fun _ bytes => bytes.length)
    (fun _ _ => rfl) { compressed := false, packetNo := 0, compressedEnvelopePacketNo := 0 }
    [0, 0, 0, 0] (replicate mysqlndMaxPacketSize 0) rfl
  rw [hr] at hr'
  obtain rfl := Option.some.inj hr'
  have hplace := (overwritten_eq_iff _ _).mp (hbuf.symm.trans hsame) 0
    (Nat.le_of_eq (by simp))
  have hzeros : ((replicate mysqlndMaxPacketSize (0 : UInt8)).drop
      ((0 + 1) * mysqlndMaxPacketSize - 4)).take 4 = [0, 0, 0, 0] := by
    rw [List.drop_replicate, List.take_replicate]
    rfl
  rw [hzeros, length_replicate] at hplace
  exact absurd hplace (by decide)

end Php53.Mysqlnd
