import Mathlib.Data.Int.Notation
import Mathlib.Tactic.Common

/-!
# Comparison — functions that compare by the sign of an integer

`Comparison f` is what a sort needs of `f`: the result changes its sign with the order of the
arguments, and "not greater" is transitive.  A function that compares keys by an ordering has both.
-/

namespace Reasoning

def outcomeSign : Ordering → ℤ
  | .lt => -1
  | .eq => 0
  | .gt => 1

theorem outcomeSign_swap (o : Ordering) : outcomeSign o.swap = -outcomeSign o := by
  cases o <;> rfl

theorem outcomeSign_nonpos {o : Ordering} : outcomeSign o ≤ 0 ↔ o.isLE = true := by
  cases o <;> decide

theorem outcomeSign_eq_zero {o : Ordering} : outcomeSign o = 0 ↔ o = .eq := by
  cases o <;> decide

theorem sign_outcomeSign (o : Ordering) : (outcomeSign o).sign = outcomeSign o := by
  cases o <;> rfl

theorem sign_nonpos {n : ℤ} : n.sign ≤ 0 ↔ n ≤ 0 := by
  rw [Int.sign_nonpos_iff]

theorem outcomeSign_then (o o' : Ordering) :
    outcomeSign (o.then o') = if outcomeSign o ≠ 0 then outcomeSign o else outcomeSign o' := by
  cases o <;> rfl

theorem outcomeSign_lt {m n : ℕ} (h : m < n) : outcomeSign (compare m n) = -1 := by
  rw [Nat.compare_eq_lt.mpr h]
  rfl

theorem outcomeSign_gt {m n : ℕ} (h : n < m) : outcomeSign (compare m n) = 1 := by
  rw [Nat.compare_eq_gt.mpr h]
  rfl

theorem sign_sub_eq (m n : ℤ) : (m - n).sign = outcomeSign (compare m n) := by
  rcases Int.lt_trichotomy m n with h | h | h
  · rw [Int.compare_eq_lt.mpr h]
    exact Int.sign_eq_neg_one_of_neg (by omega)
  · rw [Int.compare_eq_eq.mpr h, h, Int.sub_self]
    rfl
  · rw [Int.compare_eq_gt.mpr h]
    exact Int.sign_eq_one_of_pos (by omega)

variable {α β : Type}

structure Comparison (f : α → α → ℤ) : Prop where
  opposite : ∀ a b, (f a b).sign = -(f b a).sign
  trans : ∀ a b c, f a b ≤ 0 → f b c ≤ 0 → f a c ≤ 0

theorem Comparison.of_key {f : α → α → ℤ} (cmp : β → β → Ordering) [Std.TransCmp cmp] (key : α → β)
    (h : ∀ a b, (f a b).sign = outcomeSign (cmp (key a) (key b))) : Comparison f := by
  constructor
  · intro a b
    rw [h a b, h b a, ← outcomeSign_swap]
    exact congrArg outcomeSign Std.OrientedCmp.eq_swap
  · intro a b c hab hbc
    rw [← sign_nonpos, h, outcomeSign_nonpos] at hab hbc ⊢
    exact Std.TransCmp.isLE_trans hab hbc

end Reasoning
