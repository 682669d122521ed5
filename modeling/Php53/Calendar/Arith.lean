import Mathlib.Algebra.GroupWithZero.Nat
import Mathlib.Algebra.Group.Int.Defs
import Mathlib.Data.Option.Basic
import Mathlib.Tactic.SplitIfs

/-!
# Arith — the integers that the calendar conversions compute with

The conversions are written over the results of `int` and `long` operations and of conversions to
these types: `exact` takes them as integers, `lp64` fails where the value does not fit a 32-bit
`int` or a 64-bit `long`, and wraps an `unsigned long`.  Division truncates, so it is written with
`Int.tdiv` and `Int.tmod`.
-/

namespace Php53.Calendar

def longMax : Int := 2 ^ 63 - 1
def intMax : Int := 2 ^ 31 - 1
def intMin : Int := -2 ^ 31
def longMin : Int := -2 ^ 63

structure Arith where
  int : Int → Option Int
  long : Int → Option Int
  ulong : Int → Nat

def exact : Arith := { int := some, long := some, ulong := Int.toNat }

def lp64 : Arith where
  int x := if intMin ≤ x ∧ x ≤ intMax then some x else none
  long x := if longMin ≤ x ∧ x ≤ longMax then some x else none
  ulong x := (x % 2 ^ 64).toNat

@[simp] theorem exact_int (x : Int) : exact.int x = some x := rfl

@[simp] theorem exact_long (x : Int) : exact.long x = some x := rfl

theorem lp64_int {x : Int} (h : -2147483648 ≤ x ∧ x ≤ 2147483647) : lp64.int x = some x :=
  if_pos h

theorem lp64_long {x : Int} (h : -9223372036854775808 ≤ x ∧ x ≤ 9223372036854775807) :
    lp64.long x = some x :=
  if_pos h

theorem lp64_int_overflow {x : Int} (h : x < -2147483648 ∨ 2147483647 < x) :
    lp64.int x = none := by
  refine if_neg fun hx => ?_
  unfold intMin intMax at hx
  omega

/-- The arithmetic is exact on the values of its types, and on an `int` up to `hi`. -/
structure Arith.ExactTo (A : Arith) (hi : Int) : Prop where
  int : ∀ x, -2147483648 ≤ x ∧ x ≤ hi → A.int x = some x
  long : ∀ x, -9223372036854775808 ≤ x ∧ x ≤ 9223372036854775807 → A.long x = some x
  ulong : ∀ x, 0 ≤ x ∧ x ≤ 18446744073709551615 → A.ulong x = x.toNat

namespace Arith.ExactTo

variable {A : Arith} {hi : Int} {α : Type} (hA : A.ExactTo hi) (x : Int) {f : Int → Option α}

include hA

theorem int_bind (h : -2147483648 ≤ x ∧ x ≤ hi) : (A.int x).bind f = f x := by
  rw [hA.int x h, Option.bind_some]

theorem long_bind (h : -9223372036854775808 ≤ x ∧ x ≤ 9223372036854775807) :
    (A.long x).bind f = f x := by
  rw [hA.long x h, Option.bind_some]

end Arith.ExactTo

theorem exact_exactTo (hi : Int) : exact.ExactTo hi :=
  ⟨fun _ _ => rfl, fun _ _ => rfl, fun _ _ => rfl⟩

theorem lp64_exactTo : lp64.ExactTo 2147483647 where
  int _ h := lp64_int h
  long _ h := lp64_long h
  ulong x h := by
    show (x % 2 ^ 64).toNat = x.toNat
    rw [Int.emod_eq_of_lt h.1 (by omega)]

/-- What `x` yields, `y` yields too. -/
def Yields {α : Type} (x y : Option α) : Prop := ∀ a, x = some a → y = some a

namespace Yields

variable {α β : Type} {x y : Option α}

theorem refl (x : Option α) : Yields x x := fun _ h => h

theorem bind {f g : α → Option β} (h : Yields x y) (hfg : ∀ a, Yields (f a) (g a)) :
    Yields (x >>= f) (y >>= g) := by
  intro b hb
  obtain ⟨a, ha, hb⟩ := Option.bind_eq_some_iff.mp hb
  exact Option.bind_eq_some_iff.mpr ⟨a, h a ha, hfg a b hb⟩

theorem ite {p : Prop} [Decidable p] {x' y' : Option α} (h : Yields x y) (h' : Yields x' y') :
    Yields (if p then x else x') (if p then y else y') := by
  split_ifs
  · exact h
  · exact h'

theorem int (x : Int) : Yields (lp64.int x) (exact.int x) := by
  intro a ha
  unfold lp64 at ha
  dsimp only at ha
  split_ifs at ha
  exact ha

theorem long (x : Int) : Yields (lp64.long x) (exact.long x) := by
  intro a ha
  unfold lp64 at ha
  dsimp only at ha
  split_ifs at ha
  exact ha

end Yields

end Php53.Calendar
