import Mathlib.Algebra.GroupWithZero.Nat
import Mathlib.Algebra.Group.Int.Defs
import Mathlib.Algebra.Order.Monoid.Unbundled.Pow
import Mathlib.Tactic.Common

/-!
# Numeral — digits read one by one

A numeral is a list of characters, some of which are digits.  `boundedNumeral` is a reader that
stops at the first number above its limit.
-/

namespace Reasoning

variable {α : Type} (base : Nat) (digit : α → Option Nat)

/-- The number that the characters make of `n`, which stands in front of them. -/
def numeral : Nat → List α → Nat
  | n, [] => n
  | n, c :: s => numeral (n * base + (digit c).getD 0) s

def boundedNumeral (limit : Nat) : Nat → List α → Option Nat
  | n, [] => some n
  | n, c :: s =>
    match digit c with
    | none => none
    | some d => if n * base + d ≤ limit then boundedNumeral limit (n * base + d) s else none

def AllDigits (s : List α) : Prop := ∀ c ∈ s, (digit c).isSome = true

instance (s : List α) : Decidable (AllDigits digit s) := inferInstanceAs (Decidable (∀ c ∈ s, _))

variable {base : Nat} {digit : α → Option Nat}

theorem allDigits_nil : AllDigits digit [] := fun _ h => nomatch h

theorem allDigits_cons {c : α} {s : List α} :
    AllDigits digit (c :: s) ↔ (digit c).isSome = true ∧ AllDigits digit s := List.forall_mem_cons

theorem le_numeral (n : Nat) (s : List α) : n * base ^ s.length ≤ numeral base digit n s := by
  induction s generalizing n with
  | nil =>
    rw [List.length_nil, Nat.pow_zero, Nat.mul_one]
    exact Nat.le_refl n
  | cons c s ih =>
    calc n * base ^ (s.length + 1)
        = n * base * base ^ s.length := by rw [Nat.pow_succ', Nat.mul_assoc]
      _ ≤ (n * base + (digit c).getD 0) * base ^ s.length :=
          Nat.mul_le_mul_right _ (Nat.le_add_right _ _)
      _ ≤ numeral base digit n (c :: s) := ih _

theorem le_numeral_self (hbase : 0 < base) (n : Nat) (s : List α) : n ≤ numeral base digit n s :=
  Nat.le_trans (Nat.le_mul_of_pos_right n (Nat.pow_pos hbase)) (le_numeral n s)

theorem boundedNumeral_eq_some_iff (hbase : 0 < base) {limit n r : Nat} (hn : n ≤ limit)
    {s : List α} :
    boundedNumeral base digit limit n s = some r ↔
      AllDigits digit s ∧ numeral base digit n s = r ∧ r ≤ limit := by
  induction s generalizing n with
  | nil =>
    rw [boundedNumeral, numeral, Option.some.injEq]
    constructor
    · intro h
      exact ⟨allDigits_nil, h, h ▸ hn⟩
    · intro h
      exact h.2.1
  | cons c s ih =>
    rw [boundedNumeral, numeral, allDigits_cons]
    cases hd : digit c with
    | none => simp
    | some d =>
      show (if n * base + d ≤ limit then _ else none) = some r ↔ _
      by_cases hle : n * base + d ≤ limit
      · rw [if_pos hle, ih hle]
        simp
      · rw [if_neg hle]
        -- the number is too large already, and it only grows
        have hlarge : limit < numeral base digit (n * base + d) s :=
          Nat.lt_of_lt_of_le (Nat.lt_of_not_le hle) (le_numeral_self hbase _ s)
        constructor
        · intro h
          exact nomatch h
        · intro h
          have hr : numeral base digit (n * base + d) s = r := h.2.1
          omega

end Reasoning
