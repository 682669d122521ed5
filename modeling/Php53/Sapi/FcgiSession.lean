import Php53.Reasoning.Run
import Php53.Sapi.FcgiFraming

/-!
# FcgiSession — what a FastCGI request sends as a whole
-/

namespace Php53.Sapi

open Reasoning List

theorem FcgiStream.isStream_code (stream : FcgiStream) : FcgiRequest.isStream stream.type.code := by
  cases stream
  · exact Or.inl rfl
  · exact Or.inr rfl

theorem FcgiStream.code_inj (s s' : FcgiStream) : s.type.code = s'.type.code ↔ s = s' := by
  cases s <;> cases s' <;> decide

namespace FcgiRequest

variable {id : Nat} {req : FcgiRequest} {recs : List FcgiRecord} {type : UInt8}
  {str : List UInt8} {cur : Option (UInt8 × List UInt8)} {t : FcgiRequestType}

def contents (type : UInt8) (recs : List FcgiRecord) : List UInt8 :=
  recs.flatMap fun r => if r.type = type then r.content else []

def NonEmpty (recs : List FcgiRecord) : Prop := ∀ r ∈ recs, r.content ≠ []

theorem contents_append (ty : UInt8) (rs rs' : List FcgiRecord) :
    contents ty (rs ++ rs') = contents ty rs ++ contents ty rs' :=
  flatMap_append

theorem contents_packets (ty : UInt8) (chunks : List (List UInt8)) :
    contents ty (chunks.map (packet id type)) = if type = ty then chunks.flatten else [] := by
  induction chunks with
  | nil => simp [contents]
  | cons c chunks ih =>
    rw [map_cons, ← singleton_append, contents_append, ih]
    by_cases hty : type = ty <;> simp [contents, packet, hty]

theorem nonEmpty_append (rs rs' : List FcgiRecord) :
    NonEmpty (rs ++ rs') ↔ NonEmpty rs ∧ NonEmpty rs' := by
  unfold NonEmpty
  simp only [mem_append, or_imp, forall_and]

theorem nonEmpty_packets (chunks : List (List UInt8)) :
    NonEmpty (chunks.map (packet id type)) ↔ ∀ c ∈ chunks, c ≠ [] := by
  unfold NonEmpty
  simp [packet]

/-- A call of `fcgi_write` that does not send an empty record: it does not switch the type of a
    packet that leaves no room for another one. -/
def WriteOk (req : FcgiRequest) (t : FcgiRequestType) (str : List UInt8) : Prop :=
  ¬ (req.openOther t = true ∧ req.outPos > outBufSize - headerSize - 8 ∧ 0 < str.length ∧
    str.length < outBufSize - headerSize)

instance : Decidable (WriteOk req t str) := inferInstanceAs (Decidable (¬ _))

theorem Writing.openOther_iff (h : Writing id req recs cur) :
    req.openOther t = true ↔ ∃ p ∈ cur, p.1 ≠ t.code := by
  obtain ⟨done, -, -, hbuf⟩ := h.buffered
  unfold FcgiRequest.openOther
  cases cur with
  | none =>
    rw [hbuf.1]
    simp
  | some p =>
    obtain ⟨hhdr, -, hdr, -, htype, hpre⟩ := hbuf
    have htypeAt : req.typeAt done.length = p.1 := getD_of_prefix hpre htype
    rw [hhdr]
    simp [htypeAt]

def Adds (id : Nat) (recs : List FcgiRecord) (cur : Option (UInt8 × List UInt8)) (ty : UInt8)
    (str : List UInt8) (good : Prop) (r : FcgiRequest) : Prop :=
  ∃ recs' cur', Settled id r recs' cur' ∧
    (∀ ty', contents ty' (finish id recs' cur') =
      contents ty' (finish id recs cur) ++ if ty = ty' then str else []) ∧
    (NonEmpty (finish id recs' cur') ↔ NonEmpty (finish id recs cur) ∧ good)

theorem Sends.adds {good : Prop} {result : Option (Int × FcgiRequest)}
    (h : Sends id t recs cur str good result) (hcur : ∀ p ∈ cur, p.1 = t.code ∧ p.2 ≠ []) :
    ∃ r, result = some ((str.length : Int), r) ∧ Adds id recs cur t.code str good r := by
  obtain ⟨r, recs', cur', chunks, hresult, hsettled, hfinish, hflat, hgood⟩ := h
  have hopen : finish id recs cur = recs ++ cur.toList.map fun p => packet id t.code p.2 := by
    unfold finish
    congr 1
    apply map_congr_left
    intro p hp
    rw [(hcur p (Option.mem_toList.mp hp)).1]
  refine ⟨r, hresult, recs', cur', hsettled, fun ty' => ?_, ?_⟩
  · rw [hfinish, contents_append, contents_packets, hflat, hopen, contents_append]
    cases cur with
    | none => simp [contents, contentOf]
    | some p => by_cases hty : t.code = ty' <;> simp [contents, contentOf, packet, hty]
  · rw [hfinish, nonEmpty_append, nonEmpty_packets, hgood, hopen, nonEmpty_append]
    have hcurne : NonEmpty (cur.toList.map fun p => packet id t.code p.2) := by
      intro r hr
      obtain ⟨p, hp, rfl⟩ := mem_map.mp hr
      exact (hcur p (Option.mem_toList.mp hp)).2
    tauto

theorem Settled.outPos_le (h : Settled id req recs cur) : req.outPos ≤ outBufSize := by
  cases cur with
  | none =>
    rw [h.start rfl]
    exact Nat.zero_le _
  | some p => exact Nat.le_of_lt (h.bound p rfl).1

section Socket

variable {socket : Nat → Option Nat} (hsocket : ∀ k, socket k ≠ none)

include hsocket

theorem Writing.paths (h : Writing id req recs cur) (ht : isStream t.code)
    (hcur : ∀ p ∈ cur, p.1 = t.code ∧ p.2 ≠ []) (hpos : req.outPos ≤ outBufSize)
    (hlimit : 0 ≤ req.limit) (hstr : str ≠ []) (good : Prop)
    (hgood : req.limit ≤ str.length → str.length - req.limit < (outBufSize : Int) - headerSize →
      (contentOf cur ++ str.take req.limit.toNat ≠ [] ↔ good))
    (htrue : (str.length : Int) < req.limit ∨
      ¬ str.length - req.limit < (outBufSize : Int) - headerSize → good) :
    ∃ r, (if (str.length : Int) < req.limit then req.writeAppend t str
        else if str.length - req.limit < outBufSize - headerSize then
          req.writeFill socket t str req.limit.toNat
        else req.writeLong socket t str) = some ((str.length : Int), r) ∧
      Adds id recs cur t.code str good r := by
  have htype : ∀ p ∈ cur, p.1 = t.code := fun p hp => (hcur p hp).1
  by_cases hfit : (str.length : Int) < req.limit
  · rw [if_pos hfit]
    have hsends := h.writeAppend ht htype hstr hfit
    rw [eq_true (htrue (Or.inl hfit))]
    exact hsends.adds hcur
  · rw [if_neg hfit]
    by_cases hfill : str.length - req.limit < (outBufSize : Int) - headerSize
    · rw [if_pos hfill]
      have hsends := h.writeFill hsocket ht htype hpos (by omega) hfill hlimit
      rw [propext (hgood (by omega) hfill)] at hsends
      exact hsends.adds hcur
    · rw [if_neg hfill]
      have hlen : 8 ≤ str.length := by
        simp only [outBufSize, headerSize] at hfill
        omega
      have hsends := h.writeLong hsocket ht hcur hpos hlen
      rw [eq_true (htrue (Or.inr hfill))]
      exact hsends.adds hcur

theorem Settled.fcgiWrite (h : Settled id req recs cur) (ht : isStream t.code)
    (str : List UInt8) : ∃ r, req.fcgiWrite socket t str = some ((str.length : Int), r) ∧
      Adds id recs cur t.code str (req.WriteOk t str) r := by
  unfold FcgiRequest.fcgiWrite
  by_cases hstr : str = []
  · -- nothing is written
    subst hstr
    refine ⟨req, by simp, recs, cur, h, by simp, ?_⟩
    have hok : req.WriteOk t [] := fun hn => absurd hn.2.2.1 (Nat.lt_irrefl 0)
    exact ⟨fun hne => ⟨hne, hok⟩, fun hne => hne.1⟩
  have hlen : str.length ≠ 0 := fun hz => hstr (eq_nil_of_length_eq_zero hz)
  rw [if_neg hlen]
  have hpos := h.outPos_le
  by_cases hother : req.openOther t = true
  · -- the open packet is closed, and the new one starts behind its padding
    obtain ⟨p, hp, hne⟩ := h.writing.openOther_iff.mp hother
    have hbound := (h.bound p hp).1
    simp only [outBufSize] at hbound
    obtain ⟨r, hclose, hr, hrpos⟩ := h.writing.close (by
      rw [h.writing.size]
      simp only [outBufSize, headerSize, endRequestSize]
      omega)
    rw [if_pos hother, hclose, Option.bind_some]
    have hlimit := hr.limit_eq
    rw [if_pos rfl] at hlimit
    simp only [outBufSize, headerSize] at hlimit
    have hok : req.WriteOk t str ↔ 0 < r.limit ∨ 8184 ≤ str.length := by
      unfold WriteOk
      simp only [hother, true_and, outBufSize, headerSize]
      omega
    have hpaths := hr.paths hsocket ht (by simp) (by rw [hrpos]; simp only [outBufSize]; omega)
      (by omega) hstr (req.WriteOk t str) (fun hfull hrest => ?_) (fun hpath => ?_)
    · have hfinish : finish id (finish id recs cur) none = finish id recs cur := by
        simp [finish]
      obtain ⟨r', hresult, recs', cur', hsettled, hcontents, hempty⟩ := hpaths
      rw [hfinish] at hempty
      refine ⟨r', hresult, recs', cur', hsettled, fun ty' => ?_, hempty⟩
      rw [hcontents ty', hfinish]
    · rw [hok]
      simp only [outBufSize, headerSize] at hrest
      have htake : contentOf none ++ str.take r.limit.toNat ≠ [] ↔ 0 < r.limit := by
        rw [show (contentOf none : List UInt8) = [] from rfl, nil_append, ne_eq,
          take_eq_nil_iff]
        simp only [hstr, or_false]
        omega
      rw [htake]
      omega
    · rw [hok]
      simp only [outBufSize, headerSize] at hpath
      omega
  · rw [if_neg hother, Option.bind_some]
    have hcur : ∀ p ∈ cur, p.1 = t.code ∧ p.2 ≠ [] := by
      intro p hp
      refine ⟨?_, (h.bound p hp).2⟩
      by_contra hne
      exact hother (h.writing.openOther_iff.mpr ⟨p, hp, hne⟩)
    have hlimit := h.writing.limit_eq
    have hlimit0 : 0 < req.limit := by
      simp only [outBufSize, headerSize] at hlimit
      cases cur with
      | none =>
        rw [if_pos rfl, h.start rfl] at hlimit
        omega
      | some p =>
        rw [if_neg (by simp)] at hlimit
        have hb := (h.bound p rfl).1
        simp only [outBufSize] at hb
        omega
    have hok : req.WriteOk t str := fun hn => hother hn.1
    apply h.writing.paths hsocket ht hcur hpos (by omega) hstr _ (fun _ _ => ?_) (fun _ => hok)
    refine ⟨fun _ => hok, fun _ hnil => ?_⟩
    rw [append_eq_nil_iff, take_eq_nil_iff] at hnil
    rcases hnil.2 with hz | hz
    · omega
    · exact hstr hz

theorem Settled.fcgiFinishRequest (h : Settled id req recs cur) (forceClose : Bool) :
    ∃ (r : FcgiRequest) (last : FcgiRecord),
      req.fcgiFinishRequest socket forceClose = some (true, r) ∧
      r.sent = FcgiRecord.framing.encodeAll (finish id recs cur ++ [last]) ∧
      last.type = FcgiRequestType.endRequest.code ∧ last.requestId = id % 65536 ∧
      last.content.length = endRequestSize ∧ last.padding = [] := by
  have hpos := h.outPos_le
  have hsize := h.writing.size
  simp only [outBufSize, headerSize, endRequestSize] at hpos hsize
  obtain ⟨r, hclose, hr, hrpos⟩ := h.writing.close (by omega)
  obtain ⟨done, hsent, -, -, hdone, hpre⟩ := hr.buffered
  have hrsize := hr.size
  simp only [outBufSize, headerSize, endRequestSize] at hrsize
  -- the header of the record, and its body
  obtain ⟨buf1, hmake, hlen1, hpre1⟩ := fcgiMakeHeader_bare FcgiRequestType.endRequest.code
    hpre (by simp only [headerSize]; omega) (rfl : padOf endRequestSize = 0)
  have hend : (done ++ fcgiHeader FcgiRequestType.endRequest.code r.id endRequestSize 0).length =
      r.outPos + headerSize := by
    rw [length_append, length_fcgiHeader, hdone]
    rfl
  obtain ⟨buf2, hstore, hlen2, hpre2⟩ :=
    @store_behind { r with outBuf := buf1 } _ hpre1 [0, 0, 0, 0, 0] (by
      rw [hend]
      simp only [headerSize, length_cons, length_nil]
      omega)
  rw [← hdone] at hmake
  rw [hend] at hstore
  change buf2.length = buf1.length at hlen2
  have htake : buf2.take (r.outPos + headerSize + endRequestSize) =
      done ++ (fcgiHeader FcgiRequestType.endRequest.code r.id endRequestSize 0 ++
        (buf2.drop (r.outPos + headerSize)).take endRequestSize) := by
    have hrec := List.IsPrefix.trans (prefix_append _ _) hpre2
    rw [take_add, ← append_assoc]
    congr 1
    rw [← hend]
    exact (prefix_iff_eq_take.mp hrec).symm
  obtain ⟨writes, hwrite⟩ := safeWrite_eq hsocket { r with outBuf := buf2 }
    (buf2.take (r.outPos + headerSize + endRequestSize))
  have hle : r.outPos + headerSize + endRequestSize ≤ buf2.length := by
    simp only [headerSize, endRequestSize]
    omega
  have hflush : req.fcgiFlush socket true = some (true, { r with
      outBuf := buf2, writes := writes, outPos := 0
      sent := r.sent ++ buf2.take (r.outPos + headerSize + endRequestSize) }) := by
    unfold fcgiFlush flushBuffer
    simp only [hclose, Option.bind_some, if_true, hmake, hstore, if_pos hle, hwrite]
  -- whether the connection is kept does not matter for what has been sent
  obtain ⟨r', hfinish, hsent'⟩ : ∃ r', req.fcgiFinishRequest socket forceClose = some (true, r') ∧
      r'.sent = r.sent ++ buf2.take (r.outPos + headerSize + endRequestSize) := by
    have hclosed : req.closed = false := h.writing.live.2
    refine ⟨_, by
      unfold FcgiRequest.fcgiFinishRequest
      rw [if_pos h.writing.live.1, hclosed, hflush]
      rfl, ?_⟩
    split <;> rfl
  refine ⟨r', FcgiRecord.mk FcgiRequestType.endRequest.code (id % 65536)
    ((buf2.drop (r.outPos + headerSize)).take endRequestSize) [], hfinish, ?_, rfl, rfl, ?_, rfl⟩
  · rw [hsent', htake, ← append_assoc, hsent, Framing.encodeAll_append, Framing.encodeAll_cons,
      Framing.encodeAll_nil, append_nil]
    congr 1
    show _ = FcgiRecord.encode _
    unfold FcgiRecord.encode
    rw [fcgiHeader_mod, hr.id_eq]
    have hbody : ((buf2.drop (r.outPos + headerSize)).take endRequestSize).length = 8 := by
      rw [length_take, length_drop]
      simp only [endRequestSize] at hle ⊢
      omega
    simp only [hbody, append_nil]
    rfl
  · rw [length_take, length_drop]
    simp only [endRequestSize] at hle ⊢
    omega

end Socket

inductive FcgiOp where
  | write (stream : FcgiStream) (str : List UInt8)
  | flush

def fcgiStep (socket : Nat → Option Nat) (req : FcgiRequest) : FcgiOp → Option FcgiRequest
  | .write stream str => (req.fcgiWrite socket stream.type str).map Prod.snd
  | .flush => (req.fcgiFlush socket false).map Prod.snd

def fresh (fd id : Nat) (buf : Fin (outBufSize + headerSize + endRequestSize) → UInt8) :
    FcgiRequest :=
  { fd := fd, id := id, keep := true, closed := false, outHdr := none, outPos := 0,
    outBuf := List.ofFn buf, writes := 0, sent := [] }

def written (stream : FcgiStream) (ops : List FcgiOp) : List UInt8 :=
  ops.flatMap fun op => match op with
    | .write s str => if s = stream then str else []
    | .flush => []

/-- The records are aligned and belong to the request, carry what was written to the two streams,
    and only the last one of them ends the request. -/
structure Framed (id : Nat) (ops : List FcgiOp) (recs : List FcgiRecord) (last : FcgiRecord) :
    Prop where
  aligned : ∀ r ∈ recs ++ [last], (r.content.length + r.padding.length) % 8 = 0
  request : ∀ r ∈ recs ++ [last], r.requestId = id % 65536
  streams : ∀ r ∈ recs, isStream r.type
  ended : last.type = FcgiRequestType.endRequest.code ∧ last.content.length = endRequestSize
  delivered : ∀ stream : FcgiStream, contents stream.type.code recs = written stream ops
  nonEmpty : NonEmpty recs

def FramedOutput (id : Nat) (ops : List FcgiOp) (sent : List UInt8) : Prop :=
  ∃ recs last, FcgiRecord.framing.parse sent = some (recs ++ [last]) ∧ Framed id ops recs last

def OpOk (req : FcgiRequest) : FcgiOp → Prop
  | .write stream str => req.WriteOk stream.type str
  | .flush => True

instance (req : FcgiRequest) (op : FcgiOp) : Decidable (req.OpOk op) :=
  match op with
  | .write stream str => inferInstanceAs (Decidable (req.WriteOk stream.type str))
  | .flush => .isTrue trivial

theorem settled_fresh (fd id : Nat)
    (buf : Fin (outBufSize + headerSize + endRequestSize) → UInt8) :
    Settled id (fresh fd id buf) [] none := by
  have hsize : (fresh fd id buf).outBuf.length = outBufSize + headerSize + endRequestSize := by
    simp only [fresh, length_ofFn]
  refine ⟨⟨hsize, rfl, ⟨Int.natCast_nonneg fd, rfl⟩, ⟨[], rfl, rfl, rfl, rfl, nil_prefix⟩,
    fun r hr => nomatch hr⟩, fun _ => rfl, by simp⟩

section Socket

variable {socket : Nat → Option Nat} (hsocket : ∀ k, socket k ≠ none)

include hsocket

theorem Settled.step (h : Settled id req recs cur) (op : FcgiOp) :
    ∃ r recs' cur', FcgiRequest.fcgiStep socket req op = some r ∧ Settled id r recs' cur' ∧
      (∀ stream : FcgiStream, contents stream.type.code (finish id recs' cur') =
        contents stream.type.code (finish id recs cur) ++ written stream [op]) ∧
      (NonEmpty (finish id recs' cur') ↔ NonEmpty (finish id recs cur) ∧ req.OpOk op) := by
  cases op with
  | write stream str =>
    obtain ⟨r, hwrite, recs', cur', hsettled, hcontents, hempty⟩ :=
      h.fcgiWrite hsocket stream.isStream_code str
    refine ⟨r, recs', cur', ?_, hsettled, fun stream' => ?_, hempty⟩
    · show (FcgiRequest.fcgiWrite socket req stream.type str).map Prod.snd = some r
      rw [hwrite]
      rfl
    · rw [hcontents]
      simp [written, FcgiStream.code_inj]
  | flush =>
    have hpos := h.outPos_le
    simp only [outBufSize] at hpos
    obtain ⟨r, hflush, hr, hrpos⟩ := h.writing.flush hsocket (by
      rw [h.writing.size]
      simp only [outBufSize, headerSize, endRequestSize]
      omega)
    have hfinish : finish id (finish id recs cur) none = finish id recs cur := by simp [finish]
    refine ⟨r, _, none, ?_, ⟨hr, fun _ => hrpos, by simp⟩, fun stream => ?_, ?_⟩
    · show (FcgiRequest.fcgiFlush socket req false).map Prod.snd = some r
      rw [hflush]
      rfl
    · rw [hfinish]
      simp [written]
    · rw [hfinish]
      exact ⟨fun hne => ⟨hne, trivial⟩, fun hne => hne.1⟩

theorem Settled.run (h : Settled id req recs cur) (ops : List FcgiOp) :
    ∃ r recs' cur', exec (fcgiStep socket) (fun _ _ => True) req ops = some r ∧
      Settled id r recs' cur' ∧
      (∀ stream : FcgiStream, contents stream.type.code (finish id recs' cur') =
        contents stream.type.code (finish id recs cur) ++ written stream ops) ∧
      (NonEmpty (finish id recs' cur') ↔ NonEmpty (finish id recs cur) ∧
        (exec (fcgiStep socket) OpOk req ops).isSome) := by
  induction ops generalizing req recs cur with
  | nil =>
    refine ⟨req, recs, cur, rfl, h, by simp [written], ?_⟩
    exact ⟨fun hne => ⟨hne, rfl⟩, fun hne => hne.1⟩
  | cons op ops ih =>
    obtain ⟨r, recs', cur', hstep, hsettled, hcontents, hempty⟩ := h.step hsocket op
    obtain ⟨r', recs'', cur'', hexec, hsettled', hcontents', hempty'⟩ := ih hsettled
    refine ⟨r', recs'', cur'', ?_, hsettled', fun stream => ?_, ?_⟩
    · simp only [exec, if_true, hstep, Option.bind_some, hexec]
    · rw [hcontents', hcontents, append_assoc]
      congr 1
      simp [written]
    · rw [hempty', hempty]
      by_cases hok : req.OpOk op
      · have hperm : exec (fcgiStep socket) OpOk req (op :: ops) =
            exec (fcgiStep socket) OpOk r ops := by
          rw [exec, if_pos hok, hstep]
          rfl
        rw [hperm]
        tauto
      · simp [exec, hok]

theorem Settled.framedOutput (h : Settled id req [] none) (ops : List FcgiOp) (forceClose : Bool) :
    ∃ r r', exec (fcgiStep socket) (fun _ _ => True) req ops = some r ∧
      r.outPos ≤ outBufSize ∧ r.fcgiFinishRequest socket forceClose = some (true, r') ∧
      (FramedOutput id ops r'.sent ↔ (exec (fcgiStep socket) OpOk req ops).isSome) := by
  obtain ⟨r, recs, cur, hexec, hsettled, hcontents, hempty⟩ := h.run hsocket ops
  obtain ⟨r', last, hfinish, hsent, htype, hid, hlen, hpad⟩ :=
    hsettled.fcgiFinishRequest hsocket forceClose
  have hlastvalid : last.Valid := by
    unfold FcgiRecord.Valid fcgiMaxLength
    rw [hid, hlen, hpad]
    simp only [endRequestSize, length_nil]
    omega
  have hvalid : ∀ x ∈ finish id recs cur ++ [last], x.Valid := by
    intro x hx
    rcases mem_append.mp hx with hx | hx
    · obtain ⟨ty, c, rfl, -, hmax⟩ := hsettled.writing.packets x hx
      refine ⟨Nat.mod_lt _ (by decide), hmax, ?_⟩
      show (replicate (padOf c.length) (0 : UInt8)).length < 256
      rw [length_replicate]
      have hpadlt := padOf_lt c.length
      omega
    · exact mem_singleton.mp hx ▸ hlastvalid
  have hparse : FcgiRecord.framing.parse r'.sent = some (finish id recs cur ++ [last]) := by
    rw [hsent]
    exact FcgiRecord.framing.parse_encodeAll hvalid
  refine ⟨r, r', hexec, hsettled.outPos_le, hfinish, ?_, fun hok => ?_⟩
  · -- the parsed records are those of the invariant
    rintro ⟨recs', last', hparse', hframed⟩
    rw [hparse] at hparse'
    obtain ⟨heq, -⟩ := append_inj' (Option.some.inj hparse') rfl
    exact (hempty.mp (heq ▸ hframed.nonEmpty)).2
  · refine ⟨finish id recs cur, last, hparse, ?_, ?_, ?_, ⟨htype, hlen⟩, ?_, ?_⟩
    · intro x hx
      rcases mem_append.mp hx with hx | hx
      · obtain ⟨ty, c, rfl, -, -⟩ := hsettled.writing.packets x hx
        show (c.length + (replicate (padOf c.length) (0 : UInt8)).length) % 8 = 0
        rw [length_replicate]
        exact padOf_aligned c.length
      · obtain rfl := mem_singleton.mp hx
        rw [hlen, hpad]
        rfl
    · intro x hx
      rcases mem_append.mp hx with hx | hx
      · obtain ⟨ty, c, rfl, -, -⟩ := hsettled.writing.packets x hx
        rfl
      · exact mem_singleton.mp hx ▸ hid
    · intro x hx
      obtain ⟨ty, c, rfl, hstream, -⟩ := hsettled.writing.packets x hx
      exact hstream
    · intro stream
      rw [hcontents stream]
      simp [finish, contents]
    · exact hempty.mpr ⟨by simp [NonEmpty, finish], hok⟩

end Socket

/-- For every request and every sequence of calls whose socket writes all succeed. -/
theorem fcgi_output_framed (socket : Nat → Option Nat) (hsocket : ∀ k, socket k ≠ none)
    (fd id : Nat) (buf : Fin (outBufSize + headerSize + endRequestSize) → UInt8)
    (ops : List FcgiOp) (forceClose : Bool) :
    ∃ r r', exec (fcgiStep socket) (fun _ _ => True) (fresh fd id buf) ops = some r ∧
      r.outPos ≤ outBufSize ∧ r.fcgiFinishRequest socket forceClose = some (true, r') ∧
      (FramedOutput id ops r'.sent ↔
        (exec (fcgiStep socket) OpOk (fresh fd id buf) ops).isSome) :=
  (settled_fresh fd id buf).framedOutput hsocket ops forceClose

def shortResponse : List FcgiOp :=
  [.write .stdout [104, 105], .write .stderr [33], .flush, .write .stdout [10]]

def fullBuffer : List FcgiOp := [.write .stdout (replicate 8176 97), .write .stderr [98]]

/-- A short response, through a socket that takes at most five bytes at a time. -/
theorem fcgi_output_framed_short :
    ∃ r r', exec (fcgiStep fun _ => some 4) (fun _ _ => True) (fresh 3 1 fun _ => 0) shortResponse =
        some r ∧ r.fcgiFinishRequest (fun _ => some 4) false = some (true, r') ∧
      FramedOutput 1 shortResponse r'.sent := by
  obtain ⟨r, r', hexec, -, hfinish, hframed⟩ := fcgi_output_framed (fun _ => some 4)
    (fun _ hn => nomatch hn) 3 1 (fun _ => 0) shortResponse false
  exact ⟨r, r', hexec, hfinish, hframed.mpr (by decide +kernel)⟩

/-- The buffer is full but for sixteen bytes when the type is switched: an empty record is sent. -/
theorem fcgi_output_empty_record :
    ¬ ∀ (ops : List FcgiOp) (r r' : FcgiRequest),
      exec (fcgiStep fun _ => some 4) (fun _ _ => True) (fresh 3 1 fun _ => 0) ops = some r →
        r.fcgiFinishRequest (fun _ => some 4) false = some (true, r') →
          FramedOutput 1 ops r'.sent := by
  intro h
  have hsocket : ∀ k, (fun _ : Nat => some 4) k ≠ none := fun _ hn => nomatch hn
  obtain ⟨r, r', hexec, -, hfinish, hframed⟩ :=
    (settled_fresh 3 1 fun _ => 0).framedOutput hsocket fullBuffer false
  have hok := hframed.mp (h fullBuffer r r' hexec hfinish)
  have hnot : (exec (fcgiStep fun _ => some 4) OpOk (fresh 3 1 fun _ => 0) fullBuffer).isSome =
      false := by decide +kernel
  rw [hnot] at hok
  exact nomatch hok

end FcgiRequest

end Php53.Sapi
