import Php53.Sapi.FcgiOutput

/-!
# FcgiFraming — the records that a FastCGI request sends

`Writing` relates the buffer to the records that have been finished and to the open packet.
-/

namespace Php53.Sapi

open Reasoning List

namespace FcgiRequest

variable {a g c buf : List UInt8}

theorem prefix_store (h : a <+: buf) (bytes z : List UInt8) :
    a ++ bytes <+: buf.take a.length ++ (bytes ++ z) := by
  rw [prefix_iff_eq_take.mp h |>.symm, ← append_assoc]
  exact prefix_append _ _

theorem prefix_overwrite (h : a ++ (g ++ c) <+: buf) (hdr : List UInt8)
    (hlen : hdr.length = g.length) :
    a ++ (hdr ++ c) <+: buf.take a.length ++ (hdr ++ buf.drop (a.length + hdr.length)) := by
  obtain ⟨z, rfl⟩ := h
  have htake : (a ++ (g ++ c) ++ z).take a.length = a := by simp
  have hdrop : (a ++ (g ++ c) ++ z).drop (a.length + hdr.length) = c ++ z := by
    rw [hlen, ← drop_drop]
    simp
  rw [htake, hdrop]
  exact ⟨z, by simp⟩

theorem getD_of_prefix (h : a ++ (g ++ c) <+: buf) {t : UInt8} (hg : g[1]? = some t) :
    buf.getD (a.length + 1) 0 = t := by
  obtain ⟨z, rfl⟩ := h
  have hlt : 1 < g.length := (List.getElem?_eq_some_iff.mp hg).1
  rw [List.getD_eq_getElem?_getD, List.getElem?_append_left (by simp; omega),
    List.getElem?_append_right (by omega), Nat.add_sub_cancel_left,
    List.getElem?_append_left hlt, hg]
  rfl

theorem fcgiHeader_mod (type : UInt8) (id len pad : Nat) :
    fcgiHeader type (id % 65536) len pad = fcgiHeader type id len pad := by
  have hmask : ∀ m : Nat, m &&& 0xff = m % 256 := fun m => Nat.and_two_pow_sub_one_eq_mod m 8
  have h1 : byteB1 (id % 65536) = byteB1 id := by
    unfold byteB1
    simp only [hmask, Nat.shiftRight_eq_div_pow]
    congr 1
    omega
  have h0 : byteB0 (id % 65536) = byteB0 id := by
    unfold byteB0
    simp only [hmask]
    congr 1
    omega
  unfold fcgiHeader
  rw [h1, h0]

theorem padOf_lt (len : Nat) : padOf len < 8 := by
  unfold padOf
  omega

theorem padOf_aligned (len : Nat) : (len + padOf len) % 8 = 0 := by
  unfold padOf
  omega

def packet (id : Nat) (type : UInt8) (content : List UInt8) : FcgiRecord :=
  { type := type, requestId := id % 65536, content := content,
    padding := replicate (padOf content.length) 0 }

theorem encode_packet (id : Nat) (type : UInt8) (content : List UInt8) :
    (packet id type content).encode = fcgiHeader type id content.length (padOf content.length) ++
      (content ++ replicate (padOf content.length) 0) := by
  unfold FcgiRecord.encode packet
  rw [fcgiHeader_mod, length_replicate]

def finish (id : Nat) (recs : List FcgiRecord) (cur : Option (UInt8 × List UInt8)) :
    List FcgiRecord :=
  recs ++ cur.toList.map fun p => packet id p.1 p.2

/-- `out_buf` holds the bytes `done` of finished records, and behind them the open packet. -/
def Buffered (req : FcgiRequest) (done : List UInt8) : Option (UInt8 × List UInt8) → Prop
  | none => req.outHdr = none ∧ req.outPos = done.length ∧ done <+: req.outBuf
  | some (type, content) =>
    req.outHdr = some done.length ∧ req.outPos = done.length + headerSize + content.length ∧
      ∃ hdr : List UInt8, hdr.length = headerSize ∧ hdr[1]? = some type ∧
        done ++ (hdr ++ content) <+: req.outBuf

def isStream (type : UInt8) : Prop :=
  type = FcgiRequestType.stdout.code ∨ type = FcgiRequestType.stderr.code

structure Writing (id : Nat) (req : FcgiRequest) (recs : List FcgiRecord)
    (cur : Option (UInt8 × List UInt8)) : Prop where
  size : req.outBuf.length = outBufSize + headerSize + endRequestSize
  id_eq : req.id = id
  live : 0 ≤ req.fd ∧ req.closed = false
  buffered : ∃ done : List UInt8, req.sent ++ done = FcgiRecord.framing.encodeAll recs ∧
    done.length % 8 = 0 ∧ req.Buffered done cur
  packets : ∀ r ∈ finish id recs cur, ∃ type content, r = packet id type content ∧ isStream type ∧
    r.content.length ≤ fcgiMaxLength

variable {id : Nat} {req : FcgiRequest} {recs : List FcgiRecord} {type : UInt8}
  {content str hdr : List UInt8} {done : List UInt8}

theorem store_eq {pos : Nat} {bytes : List UInt8} (h : pos + bytes.length ≤ req.outBuf.length) :
    req.store pos bytes = some { req with
      outBuf := req.outBuf.take pos ++ (bytes ++ req.outBuf.drop (pos + bytes.length)) } :=
  if_pos h

theorem length_stored {pos : Nat} {bytes : List UInt8} (h : pos + bytes.length ≤ req.outBuf.length) :
    (req.outBuf.take pos ++ (bytes ++ req.outBuf.drop (pos + bytes.length))).length =
      req.outBuf.length := by
  simp only [length_append, length_take, length_drop]
  omega

theorem Writing.openPacket (h : Writing id req recs none) (t : FcgiRequestType)
    (ht : isStream t.code) (hroom : req.outPos + headerSize ≤ req.outBuf.length) :
    ∃ r, req.openPacket t = some r ∧ Writing id r recs (some (t.code, [])) ∧
      r.outPos = req.outPos + headerSize := by
  obtain ⟨done, hsent, halign, hhdr, hpos, hpre⟩ := h.buffered
  have hstore : req.outPos + 1 + [t.code].length ≤ req.outBuf.length := by
    simp only [headerSize, length_singleton] at hroom ⊢
    omega
  have hlen := length_stored hstore
  refine ⟨_, by rw [FcgiRequest.openPacket, if_pos hroom, store_eq hstore]; rfl, ?_, rfl⟩
  -- the header: its second byte is written, the others are what was there
  have hdone : done <+: req.outBuf.take (req.outPos + 1) ++
      ([t.code] ++ req.outBuf.drop (req.outPos + 1 + 1)) := by
    apply List.IsPrefix.trans _ (prefix_append _ _)
    rw [prefix_iff_eq_take] at hpre ⊢
    rw [take_take, Nat.min_eq_left (by omega), ← hpre]
  have hsplit : ∀ buf : List UInt8, done <+: buf → done ++ ((buf.drop done.length).take 8 ++ []) <+: buf := by
    intro buf hbuf
    obtain ⟨z, rfl⟩ := hbuf
    rw [append_nil, drop_left]
    exact (prefix_append_right_inj done).mpr (List.take_prefix _ _)
  refine ⟨hlen.trans h.size, h.id_eq, h.live, ⟨done, hsent, halign, ?_, ?_, _, ?_, ?_,
    hsplit _ hdone⟩, ?_⟩
  · show some req.outPos = _
    rw [hpos]
  · show req.outPos + headerSize = _
    rw [hpos]
    rfl
  · rw [length_take, length_drop]
    simp only [length_append, length_take, length_drop, length_singleton,
      headerSize] at hlen hroom ⊢
    omega
  · rw [List.getElem?_take_of_lt (by decide), List.getElem?_drop, ← hpos,
      List.getElem?_append_right (by rw [length_take]; omega), length_take,
      Nat.min_eq_left (by simp only [length_singleton] at hstore; omega), Nat.sub_self]
    rfl
  · intro r hr
    rcases mem_append.mp hr with hr | hr
    · exact h.packets r (mem_append_left _ hr)
    · obtain rfl := mem_singleton.mp hr
      exact ⟨t.code, [], rfl, ht, Nat.zero_le _⟩

theorem Writing.append (h : Writing id req recs (some (type, content))) (str : List UInt8)
    (hroom : req.outPos + str.length ≤ req.outBuf.length) :
    ∃ r, req.append str = some r ∧ Writing id r recs (some (type, content ++ str)) ∧
      r.outPos = req.outPos + str.length := by
  obtain ⟨done, hsent, halign, hhdr, hpos, hdr, hdrlen, htype, hpre⟩ := h.buffered
  have hlen := length_stored hroom
  have hend : (done ++ (hdr ++ content)).length = req.outPos := by
    simp only [length_append]
    omega
  refine ⟨_, by rw [FcgiRequest.append, store_eq hroom]; rfl, ?_, rfl⟩
  refine ⟨hlen.trans h.size, h.id_eq, h.live, ⟨done, hsent, halign, hhdr, ?_, hdr, hdrlen, htype,
    ?_⟩, ?_⟩
  · show req.outPos + str.length = _
    rw [length_append]
    omega
  · rw [← append_assoc hdr, ← append_assoc done]
    have hp := prefix_store hpre str (req.outBuf.drop (req.outPos + str.length))
    rwa [hend] at hp
  · intro r hr
    rcases mem_append.mp hr with hr | hr
    · exact h.packets r (mem_append_left _ hr)
    · obtain rfl := mem_singleton.mp hr
      obtain ⟨t, c, hp, hstream, -⟩ := h.packets (packet id type content) (by simp [finish])
      refine ⟨type, content ++ str, rfl, ?_, ?_⟩
      · have htc : type = t := congrArg FcgiRecord.type hp
        rw [htc]
        exact hstream
      · -- the content fits into the buffer
        show (content ++ str).length ≤ fcgiMaxLength
        rw [h.size] at hroom
        simp only [length_append, outBufSize, headerSize, endRequestSize, fcgiMaxLength]
          at hroom hpos ⊢
        omega

theorem fcgiMakeHeader_eq (t : UInt8) (hdrlen : hdr.length = headerSize)
    (hpre : done ++ (hdr ++ content) <+: req.outBuf)
    (hroom : done.length + headerSize + content.length + padOf content.length ≤ req.outBuf.length) :
    ∃ buf, req.fcgiMakeHeader done.length t content.length = some { req with outBuf := buf } ∧
      buf.length = req.outBuf.length ∧
      done ++ (fcgiHeader t req.id content.length (padOf content.length) ++
        (content ++ replicate (padOf content.length) 0)) <+: buf := by
  have hlen8 : (fcgiHeader t req.id content.length (padOf content.length)).length = 8 := rfl
  have hstore : done.length + (fcgiHeader t req.id content.length (padOf content.length)).length ≤
      req.outBuf.length := by
    simp only [headerSize] at hroom
    omega
  have hhead := prefix_overwrite hpre _ (hlen8.trans hdrlen.symm)
  have hsize := length_stored hstore
  unfold fcgiMakeHeader
  rw [store_eq hstore, Option.bind_some]
  by_cases hpad : padOf content.length = 0
  · rw [if_pos hpad]
    refine ⟨_, rfl, hsize, ?_⟩
    rw [hpad] at hhead ⊢
    simpa using hhead
  · -- the padding is the store behind the content
    rw [if_neg hpad, store_eq (by rw [length_replicate, hsize]; exact hroom)]
    refine ⟨_, rfl, ?_, ?_⟩
    · apply Eq.trans _ hsize
      apply length_stored
      rw [length_replicate, hsize]
      exact hroom
    · have hend : (done ++ (fcgiHeader t req.id content.length (padOf content.length) ++
          content)).length = done.length + headerSize + content.length := by
        simp only [length_append, length_fcgiHeader, headerSize]
        omega
      rw [← append_assoc (fcgiHeader t req.id _ _), ← append_assoc done, ← hend]
      exact prefix_store hhead _ _

theorem store_behind (hpre : done <+: req.outBuf) (bytes : List UInt8)
    (hroom : done.length + bytes.length ≤ req.outBuf.length) :
    ∃ buf, req.store done.length bytes = some { req with outBuf := buf } ∧
      buf.length = req.outBuf.length ∧ done ++ bytes <+: buf :=
  ⟨_, store_eq hroom, length_stored hroom, prefix_store hpre _ _⟩

theorem fcgiMakeHeader_bare (t : UInt8) {len : Nat} (hpre : done <+: req.outBuf)
    (hroom : done.length + headerSize ≤ req.outBuf.length) (hpad : padOf len = 0) :
    ∃ buf, req.fcgiMakeHeader done.length t len = some { req with outBuf := buf } ∧
      buf.length = req.outBuf.length ∧ done ++ fcgiHeader t req.id len 0 <+: buf := by
  obtain ⟨buf, hstore, hlen, hbuf⟩ := store_behind hpre (fcgiHeader t req.id len 0) hroom
  refine ⟨buf, ?_, hlen, hbuf⟩
  unfold fcgiMakeHeader
  rw [hpad, hstore, Option.bind_some, if_pos rfl]

theorem Writing.closePacket (h : Writing id req recs (some (type, content)))
    (hroom : (req.outPos + 7) / 8 * 8 ≤ req.outBuf.length) :
    ∃ r, req.closePacket = some r ∧ Writing id r (recs ++ [packet id type content]) none ∧
      r.outPos = (req.outPos + 7) / 8 * 8 := by
  obtain ⟨done, hsent, halign, hhdr, hpos, hdr, hdrlen, htype, hpre⟩ := h.buffered
  have hpad : req.outPos + padOf content.length = (req.outPos + 7) / 8 * 8 := by
    unfold padOf
    simp only [headerSize] at hpos
    omega
  have hcontent : req.outPos - (done.length + headerSize) = content.length := by omega
  obtain ⟨buf, hmake, hsize, hprebuf⟩ := fcgiMakeHeader_eq type hdrlen hpre (by omega)
  have htypeAt : req.typeAt done.length = type := getD_of_prefix hpre htype
  refine ⟨{ req with outBuf := buf, outHdr := none, outPos := req.outPos + padOf content.length },
    ?_, ?_, hpad⟩
  · unfold FcgiRequest.closePacket
    simp only [hhdr, hcontent, htypeAt, hmake]
    rfl
  have hrecord : FcgiRecord.framing.encodeAll (recs ++ [packet id type content]) =
      FcgiRecord.framing.encodeAll recs ++ (packet id type content).encode := by
    rw [Framing.encodeAll_append, Framing.encodeAll_cons, Framing.encodeAll_nil, append_nil]
    rfl
  refine ⟨hsize.trans h.size, h.id_eq, h.live,
    ⟨done ++ (packet id type content).encode, ?_, ?_, rfl, ?_, ?_⟩, ?_⟩
  · show req.sent ++ _ = _
    rw [hrecord, ← hsent, append_assoc]
  · rw [encode_packet]
    simp only [length_append, length_fcgiHeader, length_replicate]
    have hal := padOf_aligned content.length
    omega
  · show req.outPos + padOf content.length = _
    rw [encode_packet]
    simp only [length_append, length_fcgiHeader, length_replicate]
    simp only [headerSize] at hpos
    omega
  · rw [encode_packet, ← h.id_eq]
    exact hprebuf
  · intro r hr
    apply h.packets r
    simpa [finish] using hr

theorem Writing.close {cur : Option (UInt8 × List UInt8)} (h : Writing id req recs cur)
    (hroom : (req.outPos + 7) / 8 * 8 ≤ req.outBuf.length) :
    ∃ r, req.closePacket = some r ∧ Writing id r (finish id recs cur) none ∧
      r.outPos = (req.outPos + 7) / 8 * 8 := by
  cases cur with
  | some p => exact h.closePacket hroom
  | none =>
    obtain ⟨done, -, halign, hhdr, hpos, -⟩ := h.buffered
    refine ⟨req, ?_, ?_, by omega⟩
    · unfold FcgiRequest.closePacket
      rw [hhdr]
    · have hfinish : finish id recs none = recs := by simp [finish]
      rwa [hfinish]

section Socket

variable {socket : Nat → Option Nat} (hsocket : ∀ k, socket k ≠ none)

include hsocket

theorem safeWriteLoop_eq (fuel : Nat) (req : FcgiRequest) (buf : List UInt8)
    (hfuel : buf.length ≤ fuel) :
    ∃ writes, safeWriteLoop socket fuel req buf =
      (true, { req with writes := writes, sent := req.sent ++ buf }) := by
  induction fuel using Nat.strongRecOn generalizing req buf with
  | ind fuel ih =>
    cases buf with
    | nil => exact ⟨req.writes, by cases fuel <;> simp [safeWriteLoop]⟩
    | cons b buf =>
      cases fuel with
      | zero => exact absurd hfuel (Nat.not_succ_le_zero _)
      | succ fuel =>
        obtain ⟨n, hn⟩ := Option.ne_none_iff_exists'.mp (hsocket req.writes)
        rw [safeWriteLoop]
        simp only [hn]
        obtain ⟨writes, hw⟩ := ih fuel (Nat.lt_succ_self _)
          { req with writes := req.writes + 1, sent := req.sent ++ (b :: buf).take (n + 1) }
          ((b :: buf).drop (n + 1)) (by simp only [length_drop, length_cons] at *; omega)
        refine ⟨writes, hw.trans ?_⟩
        rw [append_assoc, take_append_drop]

theorem safeWrite_eq (req : FcgiRequest) (buf : List UInt8) :
    ∃ writes, req.safeWrite socket buf =
      (true, { req with writes := writes, sent := req.sent ++ buf }) :=
  safeWriteLoop_eq hsocket _ req buf (Nat.le_refl _)

theorem Writing.flush {cur : Option (UInt8 × List UInt8)} (h : Writing id req recs cur)
    (hroom : (req.outPos + 7) / 8 * 8 ≤ req.outBuf.length) :
    ∃ r, req.fcgiFlush socket false = some (true, r) ∧ Writing id r (finish id recs cur) none ∧
      r.outPos = 0 := by
  obtain ⟨r, hclose, hr, hpos⟩ := h.close hroom
  obtain ⟨done, hsent, -, hhdr, hdone, hpre⟩ := hr.buffered
  have hbuf : r.outBuf.take r.outPos = done := by
    rw [hdone]
    exact (prefix_iff_eq_take.mp hpre).symm
  obtain ⟨writes, hwrite⟩ := safeWrite_eq hsocket r done
  refine ⟨{ r with writes := writes, sent := r.sent ++ done, outPos := 0 }, ?_, ?_, rfl⟩
  · unfold fcgiFlush flushBuffer
    have hle : r.outPos ≤ r.outBuf.length := by rw [hdone]; exact hpre.length_le
    simp only [hclose, Option.bind_some, Bool.false_eq_true, if_false, hbuf, hwrite, if_pos hle]
  · refine ⟨hr.size, hr.id_eq, hr.live, ⟨[], ?_, rfl, hhdr, rfl, nil_prefix⟩, hr.packets⟩
    rw [append_nil]
    exact hsent

theorem Writing.writeThrough (h : Writing id req recs none) (t : FcgiRequestType)
    (ht : isStream t.code) (chunk : List UInt8) (hchunk : chunk.length % 8 = 0)
    (hmax : chunk.length ≤ fcgiMaxLength) (hroom : req.outPos + headerSize ≤ req.outBuf.length) :
    ∃ r, req.writeThrough socket t chunk = some (true, r) ∧
      Writing id r (recs ++ [packet id t.code chunk]) none ∧ r.outPos = 0 := by
  obtain ⟨r, hopen, hr, hrpos⟩ := h.openPacket t ht hroom
  obtain ⟨done, hsent, -, -, hpos, hdr, -, -, hpre⟩ := hr.buffered
  have hpad : padOf chunk.length = 0 := by
    unfold padOf
    omega
  have hdone : done.length = req.outPos := by
    simp only [length_nil] at hpos
    omega
  have hdonepre : done <+: r.outBuf := List.IsPrefix.trans (prefix_append _ _) hpre
  obtain ⟨buf, hmake, hsize, hbuf⟩ := fcgiMakeHeader_bare t.code hdonepre (by
    rw [hr.size, hdone, ← h.size]
    exact hroom) hpad
  rw [hdone] at hmake
  have htake : buf.take r.outPos = done ++ fcgiHeader t.code r.id chunk.length 0 := by
    have hlen : r.outPos = (done ++ fcgiHeader t.code r.id chunk.length 0).length := by
      rw [length_append, length_fcgiHeader, hrpos, hdone]
      rfl
    rw [hlen]
    exact (prefix_iff_eq_take.mp hbuf).symm
  have hle : r.outPos ≤ buf.length := by
    rw [hsize, hr.size, hrpos, ← h.size]
    exact hroom
  -- the buffer with the header is flushed, then the chunk is written
  obtain ⟨writes, hflush⟩ := safeWrite_eq hsocket { r with outHdr := none, outBuf := buf }
    (done ++ fcgiHeader t.code r.id chunk.length 0)
  obtain ⟨writes', hwrite⟩ := safeWrite_eq hsocket { r with
    outHdr := none, outBuf := buf, outPos := 0, writes := writes
    sent := r.sent ++ (done ++ fcgiHeader t.code r.id chunk.length 0) } chunk
  refine ⟨{ r with
    outHdr := none, outBuf := buf, outPos := 0, writes := writes'
    sent := r.sent ++ (done ++ fcgiHeader t.code r.id chunk.length 0) ++ chunk }, ?_, ?_, rfl⟩
  · unfold FcgiRequest.writeThrough fcgiFlush flushBuffer FcgiRequest.closePacket
    simp only [hopen, Option.bind_some, hmake, Bool.false_eq_true, if_false, if_pos hle, htake,
      hflush, hwrite, Option.map_some, if_true]
  refine ⟨hsize.trans hr.size, hr.id_eq, hr.live, ⟨[], ?_, rfl, rfl, rfl, nil_prefix⟩, ?_⟩
  · have hrecord : (packet id t.code chunk).encode =
        fcgiHeader t.code r.id chunk.length 0 ++ chunk := by
      rw [encode_packet, hpad, hr.id_eq]
      simp
    rw [Framing.encodeAll_append, Framing.encodeAll_cons, Framing.encodeAll_nil,
      append_nil, append_nil, ← hsent]
    show _ = _ ++ (packet id t.code chunk).encode
    rw [hrecord]
    simp only [append_assoc]
  · intro x hx
    rw [finish, Option.toList_none, map_nil, append_nil] at hx
    rcases mem_append.mp hx with hx | hx
    · exact h.packets x (mem_append_left _ hx)
    · obtain rfl := mem_singleton.mp hx
      exact ⟨t.code, chunk, rfl, ht, hmax⟩

theorem Writing.writeLoop (h : Writing id req recs none) (t : FcgiRequestType)
    (ht : isStream t.code) (fuel : Nat) (str : List UInt8) (hroom : req.outPos + headerSize ≤ req.outBuf.length)
    (hfuel : str.length ≤ fuel) (hlen : 8 ≤ str.length) :
    ∃ r left, ∃ chunks : List (List UInt8),
      req.writeLoop socket t fuel str = some (true, left, r) ∧
      Writing id r (recs ++ chunks.map (packet id t.code)) none ∧ chunks.flatten ++ left = str ∧
      (∀ c ∈ chunks, c ≠ []) ∧ left.length ≤ fcgiMaxLength ∧ 8 ≤ left.length ∧
      r.outPos + headerSize ≤ r.outBuf.length := by
  induction fuel generalizing req recs str with
  | zero => omega
  | succ fuel ih =>
    rw [FcgiRequest.writeLoop]
    by_cases hlong : str.length > 0xffff
    · rw [if_pos hlong]
      have htake : (str.take 0xfff8).length = 0xfff8 := by
        rw [length_take]
        omega
      obtain ⟨r, hwrite, hr, hpos⟩ := h.writeThrough hsocket t ht _
        (by rw [htake]) (by rw [htake]; decide) hroom
      simp only [hwrite, Option.bind_some, if_true]
      have hroom' : r.outPos + headerSize ≤ r.outBuf.length := by
        rw [hpos, hr.size]
        decide
      -- the chunk of this round, then those of the others
      obtain ⟨r', left, chunks, hloop, hr', hflat, hne, hmax, hmin, hroom''⟩ :=
        ih hr (str.drop 0xfff8) hroom' (by rw [length_drop]; omega) (by rw [length_drop]; omega)
      refine ⟨r', left, str.take 0xfff8 :: chunks, hloop, ?_, ?_, ?_, hmax, hmin, hroom''⟩
      · rw [map_cons, ← singleton_append, ← append_assoc]
        exact hr'
      · rw [flatten_cons, append_assoc, hflat, take_append_drop]
      · intro c hc
        rcases mem_cons.mp hc with rfl | hc
        · apply ne_nil_of_length_pos
          omega
        · exact hne c hc
    · rw [if_neg hlong]
      refine ⟨req, str, [], rfl, ?_, rfl, by simp, ?_, hlen, hroom⟩
      · rwa [map_nil, append_nil]
      · unfold fcgiMaxLength
        omega

end Socket

def contentOf (cur : Option (UInt8 × List UInt8)) : List UInt8 := (cur.map Prod.snd).getD []

/-- The state between two calls. -/
structure Settled (id : Nat) (req : FcgiRequest) (recs : List FcgiRecord)
    (cur : Option (UInt8 × List UInt8)) : Prop where
  writing : Writing id req recs cur
  start : cur = none → req.outPos = 0
  bound : ∀ p ∈ cur, req.outPos < outBufSize ∧ p.2 ≠ []

/-- The data of a call goes into records behind `recs`, with what the open packet held in front;
    `good` says when none of them is empty. -/
def Sends (id : Nat) (t : FcgiRequestType) (recs : List FcgiRecord)
    (cur : Option (UInt8 × List UInt8)) (str : List UInt8) (good : Prop)
    (result : Option (Int × FcgiRequest)) : Prop :=
  ∃ r recs' cur', ∃ chunks : List (List UInt8),
    result = some ((str.length : Int), r) ∧ Settled id r recs' cur' ∧
    finish id recs' cur' = recs ++ chunks.map (packet id t.code) ∧
    chunks.flatten = contentOf cur ++ str ∧ ((∀ c ∈ chunks, c ≠ []) ↔ good)

variable {cur : Option (UInt8 × List UInt8)} {t : FcgiRequestType}

theorem Writing.limit_eq (h : Writing id req recs cur) :
    req.limit = if cur = none then max 0 ((outBufSize : Int) - req.outPos - headerSize)
      else (outBufSize : Int) - req.outPos := by
  obtain ⟨done, -, -, hbuf⟩ := h.buffered
  unfold FcgiRequest.limit
  cases cur with
  | none =>
    rw [hbuf.1, if_pos rfl]
  | some p =>
    rw [hbuf.1, if_neg (by simp)]

theorem Writing.ensurePacket (h : Writing id req recs cur) (ht : isStream t.code)
    (hcur : ∀ p ∈ cur, p.1 = t.code)
    (hroom : req.outPos + headerSize ≤ req.outBuf.length) :
    ∃ r, req.ensurePacket t = some r ∧ Writing id r recs (some (t.code, contentOf cur)) ∧
      r.outPos = if cur = none then req.outPos + headerSize else req.outPos := by
  obtain ⟨done, -, -, hbuf⟩ := h.buffered
  unfold FcgiRequest.ensurePacket
  cases cur with
  | none =>
    rw [hbuf.1]
    simp only [if_true]
    exact h.openPacket t ht hroom
  | some p =>
    rw [hbuf.1]
    have hp : (t.code, contentOf (some p)) = p := by
      rw [← hcur p rfl]
      rfl
    refine ⟨req, rfl, ?_, by simp⟩
    rwa [hp]

theorem Writing.writeAppend (h : Writing id req recs cur) (ht : isStream t.code)
    (hcur : ∀ p ∈ cur, p.1 = t.code) (hstr : str ≠ []) (hfit : (str.length : Int) < req.limit) :
    Sends id t recs cur str True (req.writeAppend t str) := by
  have hlimit := h.limit_eq
  have hsize := h.size
  simp only [outBufSize, headerSize, endRequestSize] at hlimit hsize
  obtain ⟨r, hopen, hr, hpos⟩ := h.ensurePacket ht hcur (by
    simp only [headerSize]
    split at hlimit <;> omega)
  simp only [headerSize] at hpos
  have hend : r.outPos + str.length < 8192 := by
    split at hlimit <;> rename_i hc
    · rw [if_pos hc] at hpos
      omega
    · rw [if_neg hc] at hpos
      omega
  obtain ⟨r', happ, hr', hpos'⟩ := hr.append str (by
    rw [hr.size]
    simp only [outBufSize, headerSize, endRequestSize]
    omega)
  refine ⟨r', recs, _, [contentOf cur ++ str], ?_, ⟨hr', by simp, ?_⟩, by simp [finish], by simp, ?_⟩
  · unfold FcgiRequest.writeAppend
    simp only [hopen, Option.bind_some, happ, Option.map_some]
  · intro p hp
    obtain rfl : (t.code, contentOf cur ++ str) = p := Option.some.inj hp
    refine ⟨?_, by simp [hstr]⟩
    rw [hpos']
    exact hend
  · simp [hstr]

section Socket

variable {socket : Nat → Option Nat} (hsocket : ∀ k, socket k ≠ none)

include hsocket

theorem Writing.writeFill (h : Writing id req recs cur) (ht : isStream t.code)
    (hcur : ∀ p ∈ cur, p.1 = t.code) (hpos8 : req.outPos ≤ outBufSize)
    (hfull : req.limit ≤ str.length)
    (hrest : str.length - req.limit < (outBufSize : Int) - headerSize) (hlimit0 : 0 ≤ req.limit) :
    Sends id t recs cur str (contentOf cur ++ str.take req.limit.toNat ≠ [])
      (req.writeFill socket t str req.limit.toNat) := by
  have hlimit := h.limit_eq
  have hsize := h.size
  generalize hn : req.limit.toNat = n at *
  simp only [outBufSize, headerSize, endRequestSize] at hlimit hsize hpos8 hrest
  obtain ⟨r, hopen, hr, hpos⟩ := h.ensurePacket ht hcur (by
    simp only [headerSize]
    omega)
  simp only [headerSize] at hpos
  have hrn : r.outPos + n ≤ 8200 := by
    split at hlimit <;> rename_i hc
    · rw [if_pos hc] at hpos
      omega
    · rw [if_neg hc] at hpos
      omega
  have htake : (str.take n).length = n := by
    rw [length_take]
    omega
  -- the packet is filled, with nothing where the buffer has no room
  obtain ⟨r₁, happ, hr₁, hpos₁⟩ : ∃ r₁, (if n > 0 then r.append (str.take n) else some r) = some r₁ ∧
      Writing id r₁ recs (some (t.code, contentOf cur ++ str.take n)) ∧ r₁.outPos ≤ 8200 := by
    by_cases hn0 : n > 0
    · rw [if_pos hn0]
      obtain ⟨r₁, happ, hr₁, hpos₁⟩ := hr.append (str.take n) (by
        rw [hr.size, htake]
        simp only [outBufSize, headerSize, endRequestSize]
        omega)
      refine ⟨r₁, happ, hr₁, ?_⟩
      rw [hpos₁, htake]
      exact hrn
    · have hz : n = 0 := by omega
      rw [if_neg hn0, hz, take_zero, append_nil]
      exact ⟨r, rfl, hr, by omega⟩
  obtain ⟨r₂, hflush, hr₂, hpos₂⟩ := hr₁.flush hsocket (by
    rw [hr₁.size]
    simp only [outBufSize, headerSize, endRequestSize]
    omega)
  have hfinish : finish id recs (some (t.code, contentOf cur ++ str.take n)) =
      recs ++ [packet id t.code (contentOf cur ++ str.take n)] := rfl
  rw [hfinish] at hr₂
  unfold FcgiRequest.writeFill
  simp only [hopen, Option.bind_some, happ, hflush, if_true]
  by_cases hmore : str.length > n
  · rw [if_pos hmore]
    obtain ⟨r₃, hopen₃, hr₃, hpos₃⟩ := hr₂.openPacket t ht (by
      rw [hpos₂, hr₂.size]
      decide)
    rw [hpos₂] at hpos₃
    simp only [headerSize] at hpos₃
    obtain ⟨r₄, happ₄, hr₄, hpos₄⟩ := hr₃.append (str.drop n) (by
      rw [hr₃.size, length_drop]
      simp only [outBufSize, headerSize, endRequestSize]
      omega)
    have hdrop : str.drop n ≠ [] := by
      apply ne_nil_of_length_pos
      rw [length_drop]
      omega
    refine ⟨r₄, _, _, [contentOf cur ++ str.take n, str.drop n], ?_, ⟨hr₄, by simp, ?_⟩,
      by simp [finish], by simp, by simp [hdrop]⟩
    · simp only [hopen₃, Option.bind_some, happ₄, Option.map_some]
    · intro p hp
      obtain rfl : (t.code, [] ++ str.drop n) = p := Option.some.inj hp
      refine ⟨?_, by simpa using hdrop⟩
      rw [hpos₄, length_drop]
      simp only [outBufSize]
      omega
  · rw [if_neg hmore]
    have hall : str.take n = str := take_of_length_le (by omega)
    refine ⟨r₂, _, none, [contentOf cur ++ str.take n], rfl, ⟨hr₂, fun _ => hpos₂, by simp⟩,
      by simp [finish], by simp [hall], by simp⟩

theorem Writing.writeLong (h : Writing id req recs cur) (ht : isStream t.code)
    (hcur : ∀ p ∈ cur, p.1 = t.code ∧ p.2 ≠ []) (hpos8 : req.outPos ≤ outBufSize)
    (hlen : 8 ≤ str.length) :
    Sends id t recs cur str True (req.writeLong socket t str) := by
  have hsize := h.size
  simp only [outBufSize, headerSize, endRequestSize] at hsize hpos8
  obtain ⟨r, hclose, hr, hpos⟩ := h.close (by omega)
  obtain ⟨r₁, left, chunks, hloop, hr₁, hflat, hne, hmax, hmin, hroom₁⟩ :=
    hr.writeLoop hsocket t ht str.length str (by
      rw [hpos, hr.size]
      simp only [outBufSize, headerSize, endRequestSize]
      omega) (Nat.le_refl _) hlen
  -- what is left is cut at the last multiple of eight bytes
  have hrest : restOf left.length = left.length % 8 := by
    unfold restOf padOf
    split <;> omega
  have hcut : (left.take (left.length - restOf left.length)).length =
      left.length - left.length % 8 := by
    rw [length_take, hrest]
    omega
  obtain ⟨r₂, hwrite, hr₂, hpos₂⟩ := hr₁.writeThrough hsocket t ht
    (left.take (left.length - restOf left.length)) (by omega) (by omega) hroom₁
  have hcutne : left.take (left.length - restOf left.length) ≠ [] := by
    apply ne_nil_of_length_pos
    omega
  unfold FcgiRequest.writeLong
  simp only [hclose, Option.bind_some, hloop, if_true, hwrite]
  have hchunks : ∀ c ∈ (cur.map Prod.snd).toList, c ≠ [] := by
    intro c hc
    cases cur with
    | none => exact nomatch hc
    | some p =>
      obtain rfl : c = p.2 := by simpa using hc
      exact (hcur p rfl).2
  have hfin : finish id recs cur = recs ++ (cur.map Prod.snd).toList.map (packet id t.code) := by
    cases cur with
    | none => rfl
    | some p =>
      show recs ++ [packet id p.1 p.2] = recs ++ [packet id t.code p.2]
      rw [(hcur p rfl).1]
  have hflatcur : (cur.map Prod.snd).toList.flatten = contentOf cur := by
    cases cur <;> simp [contentOf]
  by_cases hpad : padOf left.length ≠ 0
  · rw [if_pos hpad]
    obtain ⟨r₃, hopen₃, hr₃, hpos₃⟩ := hr₂.openPacket t ht (by
      rw [hpos₂, hr₂.size]
      decide)
    rw [hpos₂] at hpos₃
    simp only [headerSize] at hpos₃
    have hdroplen : (left.drop (left.length - restOf left.length)).length = left.length % 8 := by
      rw [length_drop, hrest]
      omega
    obtain ⟨r₄, happ₄, hr₄, hpos₄⟩ :=
      hr₃.append (left.drop (left.length - restOf left.length)) (by
        rw [hr₃.size, hdroplen]
        simp only [outBufSize, headerSize, endRequestSize]
        omega)
    have hdrop : left.drop (left.length - restOf left.length) ≠ [] := by
      apply ne_nil_of_length_pos
      rw [hdroplen]
      unfold padOf at hpad
      omega
    refine ⟨r₄, _, _, (cur.map Prod.snd).toList ++ (chunks ++
      [left.take (left.length - restOf left.length), left.drop (left.length - restOf left.length)]),
      ?_, ⟨hr₄, by simp, ?_⟩, ?_, ?_, ?_⟩
    · simp only [hopen₃, Option.bind_some, happ₄, Option.map_some]
    · intro p hp
      obtain rfl : (t.code, [] ++ left.drop (left.length - restOf left.length)) = p :=
        Option.some.inj hp
      refine ⟨?_, by simpa using hdrop⟩
      rw [hpos₄, hdroplen]
      simp only [outBufSize]
      omega
    · rw [hfin]
      simp [finish, append_assoc]
    · rw [flatten_append, flatten_append, hflatcur]
      simp [hflat]
    · simp only [iff_true]
      intro c hc
      rcases mem_append.mp hc with hc | hc
      · exact hchunks c hc
      · rcases mem_append.mp hc with hc | hc
        · exact hne c hc
        · rcases mem_cons.mp hc with rfl | hc
          · exact hcutne
          · obtain rfl := mem_singleton.mp hc
            exact hdrop
  · rw [if_neg hpad]
    have hall : left.take (left.length - restOf left.length) = left := by
      apply take_of_length_le
      rw [hrest]
      unfold padOf at hpad
      omega
    rw [hall] at hr₂ hcutne
    refine ⟨r₂, _, none, (cur.map Prod.snd).toList ++ (chunks ++ [left]), rfl,
      ⟨hr₂, fun _ => hpos₂, by simp⟩, ?_, ?_, ?_⟩
    · rw [hfin]
      simp [finish, append_assoc]
    · rw [flatten_append, flatten_append, hflatcur]
      simp [hflat]
    · simp only [iff_true]
      intro c hc
      rcases mem_append.mp hc with hc | hc
      · exact hchunks c hc
      · rcases mem_append.mp hc with hc | hc
        · exact hne c hc
        · obtain rfl := mem_singleton.mp hc
          exact hcutne

end Socket

end FcgiRequest

end Php53.Sapi
