import Php53.Standard.Unpack
import Mathlib.Tactic.Linarith

/-!
# UnpackRounds — the rounds of `unpack`

The position stays in the input whatever a code does.  A code of a fixed size goes from value to value
as long as there is one; where the end of a value is `INT_MAX + 1` the check for it wraps around.
-/

open Reasoning

namespace Php53.Standard.Unpack

open Zend

def IsInt (x : Int) : Prop := -2 ^ 31 ≤ x ∧ x ≤ intMax

theorem wrapInt_spec (x : Int) : IsInt (wrapInt x) ∧ ∃ k, wrapInt x = x - 2 ^ 32 * k := by
  unfold wrapInt IsInt intMax
  constructor
  · have hlow : -2 ^ 31 ≤ (BitVec.ofInt 32 x).toInt := BitVec.le_toInt _
    have hhigh : (BitVec.ofInt 32 x).toInt < 2 ^ 31 := BitVec.toInt_lt
    omega
  · rw [BitVec.toInt_ofInt, Int.bmod_def]
    have hcast : ((2 ^ 32 : Nat) : Int) = 2 ^ 32 := by norm_num
    rw [hcast]
    split
    · exact ⟨x / 2 ^ 32, by omega⟩
    · exact ⟨x / 2 ^ 32 + 1, by omega⟩

theorem wrapInt_eq {x : Int} (h : IsInt x) : wrapInt x = x := by
  have ⟨hint, k, hk⟩ := wrapInt_spec x
  unfold IsInt intMax at h hint
  omega

/-- What the first switch leaves in the variables of a code. -/
def Code.WellFormed (c : Code) : Prop :=
  IsInt c.argb ∧
    match c.kind with
    | .back => c.size = -1 ∧ c.arg = c.argb
    | .position => c.size = 0 ∧ c.arg = c.argb
    | .string _ => c.size = c.argb ∧ c.arg = 1
    | .hex _ => c.size = hexSize c.argb ∧ c.arg = 1
    | .fixed none => c.size = 1 ∧ c.arg = c.argb
    | .fixed (some _) => c.size ∈ [1, 2, 4, 8] ∧ c.arg = c.argb

theorem fixedTypes_spec : ∀ t ∈ fixedTypes,
    t.2.1 ∈ [1, 2, 4, 8] ∧ (t.2.2 = none → t.2.1 = 1) := by
  simp [fixedTypes]

theorem codeOf_wellFormed {type : UInt8} {arg : Int} {name : List UInt8} {c : Code} (harg : IsInt arg)
    (h : codeOf type arg name = some c) : c.WellFormed := by
  unfold codeOf at h
  split_ifs at h
  · cases h
    exact ⟨harg, rfl, rfl⟩
  · cases h
    exact ⟨harg, rfl, rfl⟩
  · cases h
    exact ⟨harg, rfl, rfl⟩
  · cases h
    exact ⟨harg, rfl, rfl⟩
  · cases h
    exact ⟨harg, rfl, rfl⟩
  · cases h
    exact ⟨harg, rfl, rfl⟩
  · have ⟨t, ht, hc⟩ := Option.map_eq_some_iff.mp h
    have ⟨hsize, hnone⟩ := fixedTypes_spec t (List.mem_of_find?_eq_some ht)
    subst hc
    refine ⟨harg, ?_⟩
    cases hvalue : t.2.2 with
    | none => exact ⟨hnone hvalue, rfl⟩
    | some value => exact ⟨hsize, rfl⟩

theorem repeatArg_isInt (format : List UInt8) : IsInt (repeatArg format).1 := by
  have hone : IsInt 1 := ⟨by decide, by decide⟩
  have hstar : IsInt (-1) := ⟨by decide, by decide⟩
  unfold repeatArg
  split
  · exact hone
  · split_ifs
    · unfold Dba.atoi
      have hlow : ∀ x : BitVec 32, -2 ^ 31 ≤ x.toInt := fun x => BitVec.le_toInt x
      have hhigh : ∀ x : BitVec 32, x.toInt < 2 ^ 31 := fun x => BitVec.toInt_lt
      exact ⟨hlow _, Int.le_sub_one_of_lt (hhigh _)⟩
    · exact hstar
    · exact hone

theorem codesLoop_wellFormed {fuel : Nat} {format : List UInt8} {c : Code}
    (h : some c ∈ codesLoop fuel format) : c.WellFormed := by
  induction fuel generalizing format with
  | zero => exact absurd h List.not_mem_nil
  | succ fuel ih =>
    cases format with
    | nil => exact absurd h List.not_mem_nil
    | cons type format =>
      rw [codesLoop] at h
      rcases List.mem_cons.mp h with hc | hrest
      · exact codeOf_wellFormed (repeatArg_isInt format) hc.symm
      · exact ih hrest

def Inside (input : List UInt8) (inputpos : Int) : Prop := 0 ≤ inputpos ∧ inputpos ≤ input.length

section

variable {input : List UInt8} {c : Code} {inputpos inputpos' i i' : Int} {value : Option Element}

theorem overflowCheck_inside (size : Int) (h : Inside input inputpos) :
    Inside input (overflowCheck size inputpos) := by
  unfold overflowCheck
  split
  · exact ⟨le_refl 0, by omega⟩
  · exact h

theorem advance_inside {size : Int} {value' : Option Element}
    (h : wrapInt (inputpos + size) ≤ input.length)
    (hnext : advance inputpos size i value = some (.next inputpos' i' value')) :
    Inside input inputpos' := by
  unfold advance at hnext
  cases hnext
  unfold Inside
  split <;> omega

theorem exists_loadAt {len : Int} (h : Inside input inputpos) (hlen : 0 ≤ len)
    (hend : inputpos + len ≤ input.length) : ∃ bs, loadAt input inputpos len = some bs := by
  unfold loadAt
  rw [if_pos ⟨h.1, hlen, hend⟩]
  exact ⟨_, rfl⟩

theorem loadAt_eq_none {len : Int} (h : (input.length : Int) < inputpos + len) :
    loadAt input inputpos len = none := by
  unfold loadAt
  rw [if_neg]
  omega

theorem switchKind_inside (hc : c.WellFormed) (hfits : (input.length : Int) ≤ intMax)
    (h : Inside input inputpos) (hsum : wrapInt (inputpos + c.size) ≤ input.length)
    (hnext : switchKind input c inputpos i = some (.next inputpos' i' value)) :
    Inside input inputpos' := by
  have ⟨hargb, hkind⟩ := hc
  have hint : ∀ x, 0 ≤ x → x ≤ (input.length : Int) → wrapInt x = x := by
    intro x hlow hhigh
    apply wrapInt_eq
    unfold IsInt intMax at *
    omega
  unfold switchKind at hnext
  cases hk : c.kind with
  | back =>
    rw [hk] at hnext hkind
    dsimp only at hnext hkind
    rw [if_neg (by unfold Inside at h; omega)] at hnext
    exact advance_inside hsum hnext
  | position =>
    rw [hk] at hnext hkind
    apply advance_inside _ hnext
    rw [hkind.1, add_zero]
    split
    · rw [hkind.2, wrapInt_eq hargb, ← hkind.2]
      assumption
    · rw [hint _ h.1 h.2]
      exact h.2
  | string pad =>
    rw [hk] at hnext
    have ⟨bs, _, hadvance⟩ := Option.bind_eq_some_iff.mp hnext
    apply advance_inside _ hadvance
    unfold Inside at h
    rw [hint] <;> split <;> omega
  | hex nibbleshift =>
    rw [hk] at hnext
    dsimp only at hnext
    split_ifs at hnext
    · exact nomatch hnext
    · have ⟨bs, _, hadvance⟩ := Option.bind_eq_some_iff.mp hnext
      exact advance_inside hsum hadvance
  | fixed value =>
    rw [hk] at hnext
    cases value with
    | none => exact advance_inside hsum hnext
    | some value =>
      have ⟨bs, _, hadvance⟩ := Option.bind_eq_some_iff.mp hnext
      exact advance_inside hsum hadvance

theorem switchKind_ne_endOfInput : switchKind input c inputpos i ≠ some (.endOfInput inputpos') := by
  have hadvance : ∀ p size i value, advance p size i value ≠ some (.endOfInput inputpos') :=
    fun _ _ _ _ heq => nomatch heq
  intro heq
  unfold switchKind at heq
  cases hk : c.kind with
  | back =>
    rw [hk] at heq
    dsimp only at heq
    split at heq
    · exact hadvance _ _ _ _ heq
    · exact hadvance _ _ _ _ heq
  | position =>
    rw [hk] at heq
    exact hadvance _ _ _ _ heq
  | string pad =>
    rw [hk] at heq
    have ⟨bs, _, hstring⟩ := Option.bind_eq_some_iff.mp heq
    exact hadvance _ _ _ _ hstring
  | hex nibbleshift =>
    rw [hk] at heq
    dsimp only at heq
    split_ifs at heq
    · exact nomatch heq
    · have ⟨bs, _, hstring⟩ := Option.bind_eq_some_iff.mp heq
      exact hadvance _ _ _ _ hstring
  | fixed value =>
    rw [hk] at heq
    cases value with
    | none => exact hadvance _ _ _ _ heq
    | some value =>
      have ⟨bs, _, hvalue⟩ := Option.bind_eq_some_iff.mp heq
      exact hadvance _ _ _ _ hvalue

theorem loop_inside (hc : c.WellFormed) (hfits : (input.length : Int) ≤ intMax) {fuel : Nat}
    {s s' : LoopState} (h : Inside input s.inputpos) (hloop : loop input c fuel s = some (s', .done)) :
    Inside input s'.inputpos := by
  induction fuel generalizing s with
  | zero => exact nomatch hloop
  | succ fuel ih =>
    rw [loop] at hloop
    split at hloop
    · cases hloop
      exact h
    · have ⟨r, hr, hrest⟩ := Option.bind_eq_some_iff.mp hloop
      have hcheck := overflowCheck_inside c.size h
      unfold round at hr
      dsimp only at hr
      split at hr
      · next hsum =>
        cases r with
        | next inputpos' i' value => exact ih (switchKind_inside hc hfits hcheck hsum hr) hrest
        | endOfInput inputpos' => exact absurd hr switchKind_ne_endOfInput
        | failed => exact nomatch hrest
        | bailout => exact nomatch hrest
      · split at hr
        · cases hr
          cases hrest
          exact hcheck
        · cases hr
          exact nomatch hrest

end

end Php53.Standard.Unpack
