import Mathlib.Algebra.GroupWithZero.Nat
import Mathlib.Algebra.Group.Int.Defs
import Mathlib.Algebra.BigOperators.Group.List.Basic
import Mathlib.Algebra.Ring.Int.Defs
import Mathlib.Tactic.SplitIfs

/-!
# ArraySum — `array_sum` and `array_product` of longs

A double is the integer that it stands for: no integer in the loops needs a fraction, and it has a
significand of 53 bits.  The range is tested on the double, the operation is carried out on longs of
64 bits, which wrap around.
-/

namespace Php53.Standard

def roundSignificand (m : Nat) : Nat :=
  let unit := 2 ^ (m.log2 + 1 - 53)
  let q := m / unit
  let r := m % unit
  if 2 * r < unit ∨ (2 * r = unit ∧ q % 2 = 0) then q * unit else (q + 1) * unit

def toDouble (n : Int) : Int := n.sign * roundSignificand n.natAbs

example : toDouble (2 ^ 63 - 1) = 2 ^ 63 ∧ toDouble (2 ^ 53 + 1) = 2 ^ 53 := by decide

/-- `(double)LONG_MIN <= dval && dval <= (double)LONG_MAX` -/
def InLongRange (dval : Int) : Prop := toDouble (-2 ^ 63) ≤ dval ∧ dval ≤ toDouble (2 ^ 63 - 1)

instance (dval : Int) : Decidable (InLongRange dval) := inferInstanceAs (Decidable (_ ∧ _))

/-- `return_value` -/
inductive ArrayNumber where
  | long (lval : BitVec 64)
  | double (dval : Int)
  deriving DecidableEq, Repr

/-- An operation on longs, and the same one on doubles. -/
structure NumberOp where
  onLongs : BitVec 64 → BitVec 64 → BitVec 64
  onDoubles : Int → Int → Int

/-- `dval` -/
def NumberOp.dval (op : NumberOp) (acc entry : BitVec 64) : Int :=
  op.onDoubles (toDouble acc.toInt) (toDouble entry.toInt)

def accumulate (op : NumberOp) : ArrayNumber → List (BitVec 64) → ArrayNumber
  | value, [] => value
  | .long acc, entry :: entries =>
    if InLongRange (op.dval acc entry) then accumulate op (.long (op.onLongs acc entry)) entries
    else accumulate op (.double (op.dval acc entry)) entries
  | .double acc, entry :: entries =>
    accumulate op (.double (op.onDoubles acc (toDouble entry.toInt))) entries

def sumOp : NumberOp := ⟨fun a b => a + b, fun a b => toDouble (a + b)⟩

def productOp : NumberOp := ⟨fun a b => a * b, fun a b => toDouble (a * b)⟩

def arraySum (entries : List (BitVec 64)) : ArrayNumber := accumulate sumOp (.long 0) entries

def arrayProduct (entries : List (BitVec 64)) : ArrayNumber :=
  accumulate productOp (.long 1) entries

def LeavesRange (op : NumberOp) (acc : BitVec 64) (entries : List (BitVec 64)) : Prop :=
  ∃ (before : List (BitVec 64)) (entry : BitVec 64) (after : List (BitVec 64)),
    entries = before ++ entry :: after ∧
    ¬ InLongRange (op.dval (before.foldl op.onLongs acc) entry)

variable {op : NumberOp}

theorem accumulate_double (acc : Int) (entries : List (BitVec 64)) :
    ∃ d, accumulate op (.double acc) entries = .double d := by
  induction entries generalizing acc with
  | nil => exact ⟨acc, rfl⟩
  | cons entry entries ih =>
    unfold accumulate
    exact ih _

theorem leavesRange_cons (acc entry : BitVec 64) (entries : List (BitVec 64)) :
    LeavesRange op acc (entry :: entries) ↔
      ¬ InLongRange (op.dval acc entry) ∨ LeavesRange op (op.onLongs acc entry) entries := by
  constructor
  · rintro ⟨before, x, after, heq, hout⟩
    cases before with
    | nil =>
      obtain ⟨rfl, -⟩ := List.cons.inj heq
      exact Or.inl hout
    | cons y before =>
      obtain ⟨rfl, hrest⟩ := List.cons.inj heq
      exact Or.inr ⟨before, x, after, hrest, hout⟩
  · rintro (hout | ⟨before, x, after, rfl, hout⟩)
    · exact ⟨[], entry, entries, rfl, hout⟩
    · exact ⟨entry :: before, x, after, rfl, hout⟩

theorem accumulate_eq_long_iff (acc r : BitVec 64) (entries : List (BitVec 64)) :
    accumulate op (.long acc) entries = .long r ↔
      ¬ LeavesRange op acc entries ∧ r = entries.foldl op.onLongs acc := by
  induction entries generalizing acc with
  | nil =>
    have hnone : ¬ LeavesRange op acc [] := by
      rintro ⟨before, x, after, heq, -⟩
      exact absurd heq.symm (by simp)
    unfold accumulate
    rw [List.foldl_nil, ArrayNumber.long.injEq]
    exact ⟨fun h => ⟨hnone, h.symm⟩, fun h => h.2.symm⟩
  | cons entry entries ih =>
    unfold accumulate
    rw [leavesRange_cons, List.foldl_cons]
    by_cases hin : InLongRange (op.dval acc entry)
    · rw [if_pos hin, ih]
      simp only [hin, not_true_eq_false, false_or]
    · obtain ⟨d, hd⟩ := accumulate_double (op.dval acc entry) entries
      rw [if_neg hin, hd]
      simp [hin]

theorem foldl_toInt {f : Int → Int → Int}
    (hf : ∀ a b, (op.onLongs a b).toInt = (f a.toInt b.toInt).bmod (2 ^ 64))
    (hmod : ∀ a b, (f (a.bmod (2 ^ 64)) b).bmod (2 ^ 64) = (f a b).bmod (2 ^ 64))
    (entries : List (BitVec 64)) {acc : BitVec 64} {n : Int} (hacc : acc.toInt = n.bmod (2 ^ 64)) :
    (entries.foldl op.onLongs acc).toInt =
      ((entries.map BitVec.toInt).foldl f n).bmod (2 ^ 64) := by
  induction entries generalizing acc n with
  | nil => exact hacc
  | cons entry entries ih =>
    rw [List.foldl_cons, List.map_cons, List.foldl_cons]
    apply ih
    rw [hf, hacc, hmod]

theorem bmod_eq_self_iff (n : Int) :
    n.bmod (2 ^ 64) = n ↔ -2 ^ 63 ≤ n ∧ n ≤ 2 ^ 63 - 1 := by
  rw [Int.bmod_eq_emod]
  split <;> omega

/-- Sums: at some entry the double is outside the range, the sum so far being the exact one modulo
    2^64. -/
def SumLeavesRange (entries : List (BitVec 64)) : Prop :=
  ∃ (before : List (BitVec 64)) (entry : BitVec 64) (after : List (BitVec 64)),
    entries = before ++ entry :: after ∧
    ¬ InLongRange (sumOp.onDoubles (toDouble ((before.map BitVec.toInt).sum.bmod (2 ^ 64)))
      (toDouble entry.toInt))

def ProductLeavesRange (entries : List (BitVec 64)) : Prop :=
  ∃ (before : List (BitVec 64)) (entry : BitVec 64) (after : List (BitVec 64)),
    entries = before ++ entry :: after ∧
    ¬ InLongRange (productOp.onDoubles (toDouble ((before.map BitVec.toInt).prod.bmod (2 ^ 64)))
      (toDouble entry.toInt))

theorem foldl_sumOp (entries : List (BitVec 64)) :
    (entries.foldl sumOp.onLongs 0).toInt = (entries.map BitVec.toInt).sum.bmod (2 ^ 64) := by
  rw [List.sum_eq_foldl]
  exact foldl_toInt (fun a b => BitVec.toInt_add a b) (fun a b => Int.bmod_add_bmod) entries rfl

theorem foldl_productOp (entries : List (BitVec 64)) :
    (entries.foldl productOp.onLongs 1).toInt =
      (entries.map BitVec.toInt).prod.bmod (2 ^ 64) := by
  rw [List.prod_eq_foldl]
  exact foldl_toInt (fun a b => BitVec.toInt_mul a b) (fun a b => Int.bmod_mul_bmod) entries rfl

theorem leavesRange_sumOp (entries : List (BitVec 64)) :
    LeavesRange sumOp 0 entries ↔ SumLeavesRange entries := by
  unfold LeavesRange SumLeavesRange NumberOp.dval
  simp only [foldl_sumOp]

theorem leavesRange_productOp (entries : List (BitVec 64)) :
    LeavesRange productOp 1 entries ↔ ProductLeavesRange entries := by
  unfold LeavesRange ProductLeavesRange NumberOp.dval
  simp only [foldl_productOp]

theorem accumulate_exact_iff {acc : BitVec 64} {entries : List (BitVec 64)} {total : Int}
    (htotal : (entries.foldl op.onLongs acc).toInt = total.bmod (2 ^ 64)) :
    (∀ r, accumulate op (.long acc) entries = .long r → r.toInt = total) ↔
      (-2 ^ 63 ≤ total ∧ total ≤ 2 ^ 63 - 1) ∨ LeavesRange op acc entries := by
  rw [← bmod_eq_self_iff, ← htotal]
  constructor
  · intro hexact
    by_cases hleaves : LeavesRange op acc entries
    · exact Or.inr hleaves
    · exact Or.inl (hexact _ ((accumulate_eq_long_iff _ _ _).mpr ⟨hleaves, rfl⟩))
  · intro hcase r hr
    have ⟨hstays, hr⟩ := (accumulate_eq_long_iff _ _ _).mp hr
    rw [hr]
    exact hcase.resolve_right hstays

/-- A long is the exact sum or product, unless that is no long and the doubles stay in the range
    all the way. -/
theorem sum_and_product_exact_iff (entries : List (BitVec 64)) :
    ((∀ r, arraySum entries = .long r → r.toInt = (entries.map BitVec.toInt).sum) ↔
      (-2 ^ 63 ≤ (entries.map BitVec.toInt).sum ∧ (entries.map BitVec.toInt).sum ≤ 2 ^ 63 - 1) ∨
        SumLeavesRange entries) ∧
      ((∀ r, arrayProduct entries = .long r → r.toInt = (entries.map BitVec.toInt).prod) ↔
        (-2 ^ 63 ≤ (entries.map BitVec.toInt).prod ∧
            (entries.map BitVec.toInt).prod ≤ 2 ^ 63 - 1) ∨
          ProductLeavesRange entries) := by
  rw [← leavesRange_sumOp, ← leavesRange_productOp]
  exact ⟨accumulate_exact_iff (foldl_sumOp entries), accumulate_exact_iff (foldl_productOp entries)⟩

/-- `LONG_MAX + 1`, and `2^62 * 2`. -/
theorem sum_and_product_wrap :
    (arraySum [BitVec.intMax 64, 1] = .long (BitVec.intMin 64) ∧
        (BitVec.intMin 64).toInt ≠ ([BitVec.intMax 64, 1].map BitVec.toInt).sum) ∧
      arrayProduct [BitVec.ofNat 64 (2 ^ 62), 2] = .long (BitVec.intMin 64) ∧
        (BitVec.intMin 64).toInt ≠ ([BitVec.ofNat 64 (2 ^ 62), 2].map BitVec.toInt).prod := by
  decide

end Php53.Standard
