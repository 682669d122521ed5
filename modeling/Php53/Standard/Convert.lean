import Mathlib.Algebra.GroupWithZero.Nat
import Mathlib.Data.List.Basic
import Mathlib.Logic.Relation

/-!
# Convert — the conversion filters of `ext/standard/filters.c`

A `php_conv` converts what it is given into the room it is given, and is called again when the
room was too small.  `strfilter_convert_append_bucket` offers a buffer as long as the bucket and
doubles it.  A converter is a function from its state, the input (`none` for the `NULL` that asks
for what is left) and the room; it has no result where the C code has undefined behaviour.
-/

namespace Php53.Standard

inductive ConvErr where
  | success | unknown | tooBig | invalidSeq | unexpectedEos
  | alreadyExists | more | alloc | notFound
  deriving DecidableEq, Repr

/-- What `convert_op` leaves in `*inst`, `*in_pp` and `*out_pp`, and what it returns. -/
structure Converted (σ : Type) where
  inst : σ
  rest : List UInt8
  out : List UInt8
  err : ConvErr

/-- `php_conv_convert_func` -/
abbrev ConvertOp (σ : Type) := σ → Option (List UInt8) → Nat → Option (Converted σ)

structure ConvertFilter (σ : Type) where
  cd : σ
  stub : List UInt8

/-- `sizeof(inst->stub)` -/
def sizeofStub : Nat := 128

/-- The variables of `strfilter_convert_append_bucket`.  `outBuf` is what was written to `out_buf`,
and `buckets` what was appended to `buckets_out`. -/
structure Append (σ : Type) where
  inst : ConvertFilter σ
  ps : Option (List UInt8)
  icnt : Nat
  outBuf : List UInt8
  outBufSize : Nat
  buckets : List (List UInt8)

/-- How `strfilter_convert_append_bucket` ends.  A failure frees `out_buf`. -/
inductive Appended (σ : Type) where
  | success (inst : ConvertFilter σ) (buckets : List (List UInt8))
  | failure (inst : ConvertFilter σ) (buckets : List (List UInt8)) (outBuf : List UInt8)
  | undefined
  | running

namespace Append

variable {σ : Type}

/-- `ocnt` -/
def ocnt (a : Append σ) : Nat := a.outBufSize - a.outBuf.length

/-- `PHP_CONV_ERR_TOO_BIG`: a buffer of twice the size, or a bucket and a new buffer.  `perealloc`
does not return `NULL`. -/
def grow (initialOutBufSize : Nat) (a : Append σ) : Append σ :=
  let newOutBufSize := a.outBufSize <<< 1 % 2 ^ 64
  if newOutBufSize < a.outBufSize then
    { a with buckets := a.buckets ++ [a.outBuf], outBuf := [], outBufSize := initialOutBufSize }
  else { a with outBufSize := newOutBufSize }

def fail (a : Append σ) : Appended σ := .failure a.inst a.buckets a.outBuf

/-- `if (out_buf_size - ocnt > 0)` -/
def finish (a : Append σ) : Appended σ :=
  .success a.inst (if a.outBuf.length > 0 then a.buckets ++ [a.outBuf] else a.buckets)

/-- `while (tcnt > 0)`: the bytes that an earlier call has left in the stub. -/
def stubLoop (op : ConvertOp σ) (initialOutBufSize : Nat) :
    Nat → List UInt8 → Append σ → Append σ ⊕ Appended σ
  | 0, _, _ => .inr .running
  | fuel + 1, pt, a =>
    if pt.length > 0 then
      match op a.inst.cd (some pt) a.ocnt with
      | none => .inr .undefined
      | some r =>
        let a := { a with inst := { a.inst with cd := r.inst }, outBuf := a.outBuf ++ r.out }
        match r.err with
        | .invalidSeq | .unexpectedEos | .unknown => .inr a.fail
        | .more =>
          match a.ps with
          | none => stubLoop op initialOutBufSize fuel r.rest a
          | some [] => .inl { a with inst := { a.inst with stub := [] } }
          | some (c :: ps) =>
            if a.inst.stub.length ≥ sizeofStub then .inr a.fail
            else
              let stub := a.inst.stub ++ [c]
              stubLoop op initialOutBufSize fuel stub
                { a with inst := { a.inst with stub }, ps := some ps, icnt := a.icnt - 1 }
        | .tooBig => stubLoop op initialOutBufSize fuel r.rest (a.grow initialOutBufSize)
        | _ => stubLoop op initialOutBufSize fuel r.rest a
    else .inl { a with inst := { a.inst with stub := [] } }

def called (a : Append σ) (r : Converted σ) : Append σ :=
  { a with
    inst := { a.inst with cd := r.inst }
    outBuf := a.outBuf ++ r.out
    ps := a.ps.map fun _ => r.rest
    icnt := if a.ps.isSome then r.rest.length else a.icnt }

/-- `while (icnt > 0)` -/
def step (op : ConvertOp σ) (initialOutBufSize : Nat) (a : Append σ) : Append σ ⊕ Appended σ :=
  if a.icnt > 0 then
    match op a.inst.cd a.ps a.ocnt with
    | none => .inr .undefined
    | some r =>
      let a := a.called r
      match r.err with
      | .invalidSeq | .unknown => .inr a.fail
      | .more =>
        if a.ps.isSome then
          if a.icnt > sizeofStub then .inr a.fail
          else .inl { a with inst := { a.inst with stub := r.rest }, ps := some [], icnt := 0 }
        else .inr a.fail
      | .tooBig => .inl (a.grow initialOutBufSize)
      | _ => .inl (if a.ps.isSome then a else { a with icnt := 0 })
  else .inr a.finish

def loop (op : ConvertOp σ) (initialOutBufSize : Nat) : Nat → Append σ → Appended σ
  | 0, _ => .running
  | fuel + 1, a =>
    match a.step op initialOutBufSize with
    | .inl a => loop op initialOutBufSize fuel a
    | .inr r => r

/-- The variables at the start; `icnt` is 1 for `NULL`. -/
def start (inst : ConvertFilter σ) (ps : Option (List UInt8)) : Append σ :=
  { inst, ps, icnt := (ps.map List.length).getD 1, outBuf := []
    outBufSize := (ps.map List.length).getD 64, buckets := [] }

end Append

def strfilterConvertAppendBucket {σ : Type} (op : ConvertOp σ) (fuel : Nat) (inst : ConvertFilter σ)
    (ps : Option (List UInt8)) : Appended σ :=
  let a := Append.start inst ps
  let initialOutBufSize := a.outBufSize
  if inst.stub.length > 0 then
    match a.stubLoop op initialOutBufSize fuel inst.stub with
    | .inl a => a.loop op initialOutBufSize fuel
    | .inr r => r
  else a.loop op initialOutBufSize fuel

/-- `strfilter_convert_filter`: the buckets one after the other and, where `flags` asks for it, the
`NULL` at the end.  The last component of a failure is the buffer that was freed. -/
def strfilterConvertFilter {σ : Type} (op : ConvertOp σ) (fuel : Nat) (inst : ConvertFilter σ) :
    List (Option (List UInt8)) → Appended σ
  | [] => .success inst []
  | ps :: pss =>
    match strfilterConvertAppendBucket op fuel inst ps with
    | .success inst buckets =>
      match strfilterConvertFilter op fuel inst pss with
      | .success inst buckets' => .success inst (buckets ++ buckets')
      | .failure inst buckets' outBuf => .failure inst (buckets ++ buckets') outBuf
      | .undefined => .undefined
      | .running => .running
    | r => r

/-! ## 2. Converters that resume

`sem cd xs` is what a converter in the state `cd` makes of the input `xs` and the `NULL` behind it.
Each call writes a beginning of it, and what is left is what the new state makes of the rest. -/

variable {σ : Type} {op : ConvertOp σ} {Inv : σ → Prop}
  {Ok : σ → Option (List UInt8) → Nat → Prop} {sem : σ → List UInt8 → List UInt8} {need : Nat}
  {inst : ConvertFilter σ}

def Ends (sem : σ → List UInt8 → List UInt8) (need : Nat) (ps : Option (List UInt8)) (room : Nat)
    (r : Converted σ) : Prop :=
  (r.err = .success ∧ r.rest = [] ∧ (ps = none → sem r.inst [] = [])) ∨
    (r.err = .tooBig ∧ (r.out = [] → room < need))

/-- This holds of the calls that meet `Ok`. -/
structure Resumes (op : ConvertOp σ) (Inv : σ → Prop) (Ok : σ → Option (List UInt8) → Nat → Prop)
    (sem : σ → List UInt8 → List UInt8) (need : Nat) : Prop where
  call : ∀ cd ps room, Inv cd → Ok cd ps room → ∃ r, op cd ps room = some r ∧ Inv r.inst ∧
    Ends sem need ps room r ∧ (ps = none → r.rest = []) ∧
    ∀ more, (ps = none → more = []) →
      sem cd (ps.getD [] ++ more) = r.out ++ sem r.inst (r.rest ++ more)

namespace Append

def written (a : Append σ) : List UInt8 := a.buckets.flatten ++ a.outBuf

/-- `icnt` counts the bytes left. -/
def Counts (a : Append σ) : Prop := ∀ ps, a.ps = some ps → a.icnt = ps.length

theorem written_grow (n : Nat) (a : Append σ) : (a.grow n).written = a.written := by
  rw [grow]
  split
  · rw [written, written, List.flatten_append, List.flatten_singleton, List.append_nil]
  · rfl

def work (sem : σ → List UInt8 → List UInt8) (a : Append σ) : Nat :=
  2 ^ 65 * (sem a.inst.cd (a.ps.getD [])).length +
    (2 ^ 64 * (if a.outBuf = [] then 0 else 1) + (2 ^ 63 - a.outBufSize))

variable {a : Append σ} {n : Nat}

theorem work_grow (hsize : 0 < a.outBufSize)
    (hempty : a.outBuf = [] → a.outBufSize < 2 ^ 63) : (a.grow n).work sem < a.work sem := by
  rw [grow]
  have hshift : a.outBufSize <<< 1 = a.outBufSize * 2 := Nat.shiftLeft_eq _ 1
  rw [hshift]
  split
  · have hne : a.outBuf ≠ [] := fun h => by
      have := hempty h
      omega
    rw [work, work, if_neg hne, if_pos rfl]
    dsimp only
    omega
  · rw [work, work]
    dsimp only
    omega

theorem work_lt (a : Append σ) :
    a.work sem < 2 ^ 65 * ((sem a.inst.cd (a.ps.getD [])).length + 1) := by
  rw [work]
  split <;> omega

@[simp] theorem grow_inst (n : Nat) (a : Append σ) : (a.grow n).inst = a.inst := by
  rw [grow]
  split <;> rfl

@[simp] theorem grow_ps (n : Nat) (a : Append σ) : (a.grow n).ps = a.ps := by
  rw [grow]
  split <;> rfl

@[simp] theorem grow_icnt (n : Nat) (a : Append σ) : (a.grow n).icnt = a.icnt := by
  rw [grow]
  split <;> rfl

theorem grow_outBufSize_pos (hn : 0 < n) (h : 0 < a.outBufSize) :
    0 < (a.grow n).outBufSize := by
  rw [grow]
  split
  · exact hn
  · exact Nat.lt_of_lt_of_le h (Nat.le_of_not_lt ‹_›)

theorem written_called (a : Append σ) (r : Converted σ) :
    (a.called r).written = a.written ++ r.out :=
  (List.append_assoc _ _ _).symm

variable {r : Converted σ}

theorem called_ps_eq_none : (a.called r).ps = none ↔ a.ps = none :=
  Option.map_eq_none_iff

theorem called_rest (h : a.ps = none → r.rest = []) :
    (a.called r).ps.getD [] = r.rest := by
  cases hps : a.ps with
  | none =>
    rw [h hps, called, hps]
    rfl
  | some ps =>
    rw [called, hps]
    rfl

theorem called_counts (r : Converted σ) : (a.called r).Counts := by
  intro ps hps
  rw [called] at hps ⊢
  cases ha : a.ps with
  | none =>
    rw [ha] at hps
    exact nomatch hps
  | some _ =>
    rw [ha] at hps
    exact congrArg List.length (Option.some.inj hps)

theorem work_called_grow (hneed : need ≤ 2 ^ 63) (hsize : 0 < a.outBufSize)
    (hroom : r.out = [] → a.ocnt < need) (hrest : a.ps = none → r.rest = [])
    (hsem : sem a.inst.cd (a.ps.getD []) = r.out ++ sem r.inst r.rest) :
    ((a.called r).grow n).work sem < a.work sem := by
  have hleft := called_rest hrest
  by_cases hout : r.out = []
  · have hwork : (a.called r).work sem = a.work sem := by
      rw [work, work, hsem, hleft, called, hout, List.append_nil, List.nil_append]
    rw [← hwork]
    refine work_grow hsize fun hempty => ?_
    have hlt := hroom hout
    rw [ocnt, (List.append_eq_nil_iff.mp hempty).1] at hlt
    exact Nat.lt_of_lt_of_le hlt hneed
  · have hlen : 0 < r.out.length := List.length_pos_iff.mpr hout
    have hlt : ((a.called r).grow n).work sem <
        2 ^ 65 * ((sem ((a.called r).grow n).inst.cd (((a.called r).grow n).ps.getD [])).length + 1) :=
      work_lt _
    rw [grow_inst, grow_ps, hleft] at hlt
    refine Nat.lt_of_lt_of_le hlt ?_
    rw [work, hsem, List.length_append]
    show 2 ^ 65 * ((sem r.inst r.rest).length + 1) ≤ _
    omega

theorem step_tooBig (hicnt : a.icnt > 0) (hop : op a.inst.cd a.ps a.ocnt = some r)
    (herr : r.err = .tooBig) :
    a.step op n = .inl ((a.called r).grow n) := by
  rw [step, if_pos hicnt, hop]
  simp only [herr]

theorem step_end (hicnt : ¬ a.icnt > 0) : a.step op n = .inr a.finish := by
  rw [step, if_neg hicnt]

theorem loop_success {k : Nat} (hicnt : a.icnt > 0) (hop : op a.inst.cd a.ps a.ocnt = some r)
    (herr : r.err = .success) (hrest : r.rest = []) :
    a.loop op n (k + 2) = { a.called r with icnt := 0 }.finish := by
  have hstep : a.step op n = .inl { a.called r with icnt := 0 } := by
    rw [step, if_pos hicnt, hop]
    simp only [herr]
    cases hps : a.ps with
    | none =>
      simp only [called, hps]
      rfl
    | some ps =>
      simp only [called, hps, hrest]
      rfl
  rw [loop, hstep]
  show loop op n (k + 1) { a.called r with icnt := 0 } = _
  rw [loop, step_end (Nat.lt_irrefl 0)]

/-- The calls that the loop makes from `a` on meet `Ok`. -/
def CallsOk (op : ConvertOp σ) (Ok : σ → Option (List UInt8) → Nat → Prop) (n : Nat)
    (a : Append σ) : Prop :=
  ∀ b, Relation.ReflTransGen (fun a b => step op n a = .inl b) a b → b.icnt > 0 →
    Ok b.inst.cd b.ps b.ocnt

theorem CallsOk.step {b : Append σ} (h : CallsOk op Ok n a)
    (hstep : a.step op n = .inl b) : CallsOk op Ok n b :=
  fun c hc => h c (Relation.ReflTransGen.head hstep hc)

theorem loop_resumes (h : Resumes op Inv Ok sem need) (hneed : need ≤ 2 ^ 63) (hn : 0 < n)
    (hinv : Inv a.inst.cd) (hok : CallsOk op Ok n a) (hcounts : a.Counts)
    (hnull : a.ps = none → a.icnt > 0) (hsize : 0 < a.outBufSize) :
    ∃ fuel b, (∀ k, fuel ≤ k → a.loop op n k = Append.finish b) ∧ Inv b.inst.cd ∧
      b.inst.stub = a.inst.stub ∧ (a.ps = none → sem b.inst.cd [] = []) ∧
      ∃ out, b.written = a.written ++ out ∧ ∀ more, (a.ps = none → more = []) →
        sem a.inst.cd (a.ps.getD [] ++ more) = out ++ sem b.inst.cd more := by
  generalize hw : a.work sem = w
  induction w using Nat.strongRecOn generalizing a with
  | ind w ih =>
    by_cases hicnt : a.icnt > 0
    · obtain ⟨r, hop, hinv', hends, hrest, hsem⟩ :=
        h.call a.inst.cd a.ps a.ocnt hinv (hok a Relation.ReflTransGen.refl hicnt)
      rcases hends with ⟨herr, hdone, hnil⟩ | ⟨herr, hroom⟩
      · -- all of the input is read, and the loop ends
        refine ⟨2, { a.called r with icnt := 0 }, fun k hk => ?_, hinv', rfl, hnil, r.out,
          written_called a r, fun more hmore => ?_⟩
        · obtain ⟨k, rfl⟩ : ∃ j, k = j + 2 := ⟨k - 2, by omega⟩
          exact loop_success hicnt hop herr hdone
        · rw [hsem more hmore, hdone]
          rfl
      · -- the buffer was too small: it grows, and the loop goes on
        have hstep := step_tooBig (n := n) hicnt hop herr
        have hwork : ((a.called r).grow n).work sem < w := by
          have hsem' := hsem [] fun _ => rfl
          rw [List.append_nil, List.append_nil] at hsem'
          exact hw ▸ work_called_grow hneed hsize hroom hrest hsem'
        have hcounts' : ((a.called r).grow n).Counts := by
          intro ps hps
          rw [grow_ps] at hps
          rw [grow_icnt]
          exact called_counts r ps hps
        have hnull' : ((a.called r).grow n).ps = none → ((a.called r).grow n).icnt > 0 := by
          intro hps
          rw [grow_ps, called_ps_eq_none] at hps
          rw [grow_icnt, called, hps]
          exact hicnt
        obtain ⟨fuel, b, hloop, hinvb, hstub, hnil, out, hout, hsemb⟩ :=
          ih _ hwork (a := (a.called r).grow n) (by rwa [grow_inst]) (hok.step hstep) hcounts' hnull'
            (grow_outBufSize_pos hn hsize) rfl
        rw [grow_ps, called_ps_eq_none] at hnil hsemb
        rw [grow_inst, called_rest hrest] at hsemb
        refine ⟨fuel + 1, b, fun k hk => ?_, hinvb, ?_, hnil, r.out ++ out, ?_, fun more hmore => ?_⟩
        · obtain ⟨k, rfl⟩ : ∃ j, k = j + 1 := ⟨k - 1, by omega⟩
          rw [loop, hstep]
          exact hloop k (by omega)
        · rw [hstub, grow_inst]
          rfl
        · rw [hout, written_grow, written_called, List.append_assoc]
        · rw [hsem more hmore, List.append_assoc]
          exact congrArg (r.out ++ ·) (hsemb more hmore)
    · refine ⟨1, a, fun k hk => ?_, hinv, rfl, fun hps => absurd (hnull hps) hicnt, [],
        (List.append_nil _).symm, fun more _ => ?_⟩
      · obtain ⟨k, rfl⟩ : ∃ j, k = j + 1 := ⟨k - 1, by omega⟩
        rw [loop, step_end hicnt]
      · obtain ⟨ps, hps⟩ := Option.ne_none_iff_exists'.mp fun hps => hicnt (hnull hps)
        have hnil : ps = [] := List.length_eq_zero_iff.mp (by rw [← hcounts ps hps]; omega)
        rw [hps, hnil]
        rfl

theorem finish_eq (a : Append σ) :
    ∃ buckets, a.finish = .success a.inst buckets ∧ buckets.flatten = a.written := by
  rw [finish, written]
  split
  · exact ⟨_, rfl, by rw [List.flatten_append, List.flatten_singleton]⟩
  · have hnil : a.outBuf = [] := List.length_eq_zero_iff.mp (by omega)
    exact ⟨_, rfl, by rw [hnil, List.append_nil]⟩

end Append

theorem append_eq_loop (hstub : inst.stub = []) (ps : Option (List UInt8))
    (fuel : Nat) : strfilterConvertAppendBucket op fuel inst ps =
      (Append.start inst ps).loop op (Append.start inst ps).outBufSize fuel := by
  have hlen : ¬ inst.stub.length > 0 := by
    rw [hstub]
    exact Nat.lt_irrefl 0
  rw [strfilterConvertAppendBucket, if_neg hlen]

theorem append_resumes (h : Resumes op Inv Ok sem need) (hneed : need ≤ 2 ^ 63)
    (hstub : inst.stub = []) (hinv : Inv inst.cd) {ps : Option (List UInt8)}
    (hok : Append.CallsOk op Ok (Append.start inst ps).outBufSize (.start inst ps)) :
    ∃ fuel inst' buckets,
      (∀ k, fuel ≤ k → strfilterConvertAppendBucket op k inst ps = .success inst' buckets) ∧
      inst'.stub = [] ∧ Inv inst'.cd ∧ (ps = none → sem inst'.cd [] = []) ∧
      ∀ more, (ps = none → more = []) →
        sem inst.cd (ps.getD [] ++ more) = buckets.flatten ++ sem inst'.cd more := by
  by_cases hempty : ps = some []
  · refine ⟨1, inst, [], fun k hk => ?_, hstub, hinv, fun hps => ?_, fun more _ => ?_⟩
    · obtain ⟨k, rfl⟩ : ∃ j, k = j + 1 := ⟨k - 1, by omega⟩
      rw [append_eq_loop hstub, hempty]
      rfl
    · rw [hempty] at hps
      exact nomatch hps
    · rw [hempty]
      rfl
  · have hpos : 0 < (Append.start inst ps).outBufSize := by
      cases ps with
      | none => exact Nat.succ_pos 63
      | some ps => exact List.length_pos_iff.mpr fun hnil => hempty (congrArg some hnil)
    have hcounts : (Append.start inst ps).Counts := by
      intro ps' hps
      have hps : ps = some ps' := hps
      rw [hps]
      rfl
    have hnull : (Append.start inst ps).ps = none → (Append.start inst ps).icnt > 0 := by
      intro hps
      have hps : ps = none := hps
      rw [hps]
      exact Nat.one_pos
    obtain ⟨fuel, b, hloop, hinvb, hstubb, hnil, out, hout, hsem⟩ :=
      Append.loop_resumes h hneed hpos hinv hok hcounts hnull hpos
    obtain ⟨buckets, hfinish, hflatten⟩ := b.finish_eq
    refine ⟨fuel, b.inst, buckets, fun k hk => ?_, hstubb.trans hstub, hinvb, hnil,
      fun more hmore => ?_⟩
    · rw [append_eq_loop hstub, hloop k hk, hfinish]
    · rw [hflatten, hout]
      exact hsem more hmore

/-- The calls made for the inputs `pss` meet `Ok`. -/
inductive FilterOk (op : ConvertOp σ) (Ok : σ → Option (List UInt8) → Nat → Prop) :
    ConvertFilter σ → List (Option (List UInt8)) → Prop where
  | nil (inst : ConvertFilter σ) : FilterOk op Ok inst []
  | cons {inst : ConvertFilter σ} {ps : Option (List UInt8)} {pss : List (Option (List UInt8))} :
      Append.CallsOk op Ok (Append.start inst ps).outBufSize (.start inst ps) →
      (∀ fuel inst' buckets, strfilterConvertAppendBucket op fuel inst ps = .success inst' buckets →
        FilterOk op Ok inst' pss) →
      FilterOk op Ok inst (ps :: pss)

theorem FilterOk.of_forall (h : ∀ cd ps room, Ok cd ps room) (inst : ConvertFilter σ)
    (pss : List (Option (List UInt8))) : FilterOk op Ok inst pss := by
  induction pss generalizing inst with
  | nil => exact .nil inst
  | cons ps pss ih => exact .cons (fun _ _ _ => h _ _ _) fun _ inst' _ _ => ih inst'

theorem filter_resumes (h : Resumes op Inv Ok sem need) (hneed : need ≤ 2 ^ 63)
    (hstub : inst.stub = []) (hinv : Inv inst.cd) {xs : List (List UInt8)}
    (hok : FilterOk op Ok inst (xs.map some ++ [none])) :
    ∃ fuel inst' buckets, buckets.flatten = sem inst.cd xs.flatten ∧ ∀ k, fuel ≤ k →
      strfilterConvertFilter op k inst (xs.map some ++ [none]) = .success inst' buckets := by
  induction xs generalizing inst with
  | nil =>
    cases hok with
    | cons hcalls _ =>
      obtain ⟨fuel, inst', buckets, hrun, -, -, hnil, hsem⟩ :=
        append_resumes h hneed hstub hinv hcalls
      refine ⟨fuel, inst', buckets, ?_, fun k hk => ?_⟩
      · have hsem := hsem [] fun _ => rfl
        rw [hnil rfl, List.append_nil, List.append_nil] at hsem
        exact hsem.symm
      · show strfilterConvertFilter op k inst [none] = _
        rw [strfilterConvertFilter, hrun k hk]
        simp only [strfilterConvertFilter, List.append_nil]
  | cons x xs ih =>
    cases hok with
    | cons hcalls hrest =>
      obtain ⟨fuel, inst', buckets, hrun, hstub', hinv', -, hsem⟩ :=
        append_resumes h hneed hstub hinv hcalls
      obtain ⟨fuel', inst'', buckets', hout, hrun'⟩ :=
        ih hstub' hinv' (hrest fuel inst' buckets (hrun fuel (Nat.le_refl _)))
      refine ⟨max fuel fuel', inst'', buckets ++ buckets', ?_, fun k hk => ?_⟩
      · rw [List.flatten_append, hout, List.flatten_cons]
        exact (hsem xs.flatten fun h => nomatch h).symm
      · show strfilterConvertFilter op k inst (some x :: (xs.map some ++ [none])) = _
        rw [strfilterConvertFilter, hrun k (by omega)]
        simp only [hrun' k (by omega)]

theorem append_nil (hstub : inst.stub = []) {fuel : Nat} (hfuel : 1 ≤ fuel) :
    strfilterConvertAppendBucket op fuel inst (some []) = .success inst [] := by
  obtain ⟨k, rfl⟩ : ∃ j, fuel = j + 1 := ⟨fuel - 1, by omega⟩
  rw [append_eq_loop hstub]
  rfl

theorem append_once (hstub : inst.stub = []) {ps : List UInt8} (hps : ps ≠ []) {r : Converted σ}
    (hop : op inst.cd (some ps) ps.length = some r) (herr : r.err = .success)
    (hrest : r.rest = []) :
    ∃ buckets, buckets.flatten = r.out ∧ ∀ fuel, 2 ≤ fuel →
      strfilterConvertAppendBucket op fuel inst (some ps) =
        .success { inst with cd := r.inst } buckets := by
  obtain ⟨buckets, hfinish, hflatten⟩ :=
    Append.finish_eq { (Append.start inst (some ps)).called r with icnt := 0 }
  refine ⟨buckets, hflatten, fun fuel hfuel => ?_⟩
  obtain ⟨k, rfl⟩ : ∃ j, fuel = j + 2 := ⟨fuel - 2, by omega⟩
  rw [append_eq_loop hstub]
  exact (Append.loop_success (List.length_pos_iff.mpr hps) hop herr hrest).trans hfinish

theorem append_null (hstub : inst.stub = []) {r : Converted σ} (hop : op inst.cd none 64 = some r)
    (herr : r.err = .success ∨ r.err = .unexpectedEos) (hout : r.out = []) {fuel : Nat}
    (hfuel : 2 ≤ fuel) :
    strfilterConvertAppendBucket op fuel inst none = .success { inst with cd := r.inst } [] := by
  obtain ⟨k, rfl⟩ : ∃ j, fuel = j + 2 := ⟨fuel - 2, by omega⟩
  have hstep : (Append.start inst none).step op 64 =
      .inl { (Append.start inst none).called r with icnt := 0 } := by
    have hocnt : (Append.start inst none).ocnt = 64 := rfl
    rw [Append.step, if_pos (show (Append.start inst none).icnt > 0 from Nat.one_pos), hocnt,
      show op (Append.start inst none).inst.cd (Append.start inst none).ps 64 = some r from hop]
    rcases herr with herr | herr
    · simp only [herr]
      rfl
    · simp only [herr]
      rfl
  rw [append_eq_loop hstub]
  show (Append.start inst none).loop op 64 (k + 2) = _
  rw [Append.loop, hstep]
  show Append.loop op 64 (k + 1) { (Append.start inst none).called r with icnt := 0 } = _
  rw [Append.loop, Append.step_end (Nat.lt_irrefl 0), Append.finish]
  simp only [Append.called, Append.start, hout]
  rfl

end Php53.Standard
