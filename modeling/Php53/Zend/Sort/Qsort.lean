import Mathlib.Algebra.Group.Int.Defs
import Php53.Reasoning.BinaryHeap
import Php53.Reasoning.Fallible

/-!
# Qsort — `zend_qsort`

The array is a block of bytes, and a pointer is its offset from `base`, which may be one element in
front of it.  A comparison or a swap of anything that is not an element of the array is
`QsortError.outside`.
-/

open Reasoning

namespace Php53.Zend

inductive QsortError where
  | outside  -- not an element of the array
  | stack  -- a slot behind begin_stack and end_stack
  | fuel  -- a loop has not ended
  deriving DecidableEq, Repr

/-- The bytes of the array, and the state of the code that the comparator runs. -/
structure QsortState (σ : Type) where
  mem : List UInt8
  user : σ

/-- Exchanging `width` bytes through a variable. -/
def exchange (width : Nat) (mem : List UInt8) (a b : Nat) : List UInt8 :=
  let t := (mem.drop a).take width
  let mem := mem.take a ++ (mem.drop b).take width ++ mem.drop (a + width)
  mem.take b ++ t ++ mem.drop (b + width)

/-- `for (; i <= siz; i += width)`, with the pointers into both elements. -/
def swapLoop (width siz : Nat) :
    Nat → Nat → List UInt8 × Nat × Nat → Nat × List UInt8 × Nat × Nat
  | 0, i, s => (i, s)
  | fuel + 1, i, (mem, a, b) =>
    if i ≤ siz then swapLoop width siz fuel (i + width) (exchange width mem a b, a + width, b + width)
    else (i, mem, a, b)

def zendQsortSwap (siz : Nat) (mem : List UInt8) (a b : Nat) : List UInt8 :=
  let (i, s) := swapLoop 4 siz (siz + 1) 4 (mem, a, b)
  (swapLoop 1 siz (siz + 1) (i - 4 + 1) s).2.1

def qsortStackSize : Nat := 8 * 8

section

variable {σ : Type} (siz : Nat) (cmp : List UInt8 → List UInt8 → σ → Int × σ)

abbrev Qsort (σ α : Type) : Type := Fallible (QsortState σ) QsortError α

def IsElement (mem : List UInt8) (p : Int) : Prop := 0 ≤ p ∧ p + siz ≤ mem.length ∧ p % siz = 0

instance (mem : List UInt8) (p : Int) : Decidable (IsElement siz mem p) :=
  inferInstanceAs (Decidable (_ ∧ _ ∧ _))

def element (mem : List UInt8) (p : Int) : List UInt8 := (mem.drop p.toNat).take siz

/-- `compare(p, q)` -/
def compareAt (p q : Int) : Qsort σ Int := fun s =>
  if IsElement siz s.mem p ∧ IsElement siz s.mem q then
    let (result, user) := cmp (element siz s.mem p) (element siz s.mem q) s.user
    (.ok result, { s with user })
  else (.error .outside, s)

def swapAt (p q : Int) : Qsort σ Unit := fun s =>
  if IsElement siz s.mem p ∧ IsElement siz s.mem q then
    (.ok (), { s with mem := zendQsortSwap siz s.mem p.toNat q.toNat })
  else (.error .outside, s)

/-- `for (; seg1 < seg2 && compare(begin, seg1) > 0; seg1 += siz)` -/
def seg1Loop (first seg2 : Int) : Nat → Int → Qsort σ Int
  | 0, _ => .stop .fuel
  | fuel + 1, seg1 =>
    if seg1 < seg2 then do
      let result ← compareAt siz cmp first seg1
      if result > 0 then seg1Loop first seg2 fuel (seg1 + siz) else pure seg1
    else pure seg1

/-- `for (; seg2 >= seg1 && compare(seg2, begin) > 0; seg2 -= siz)` -/
def seg2Loop (first seg1 : Int) : Nat → Int → Qsort σ Int
  | 0, _ => .stop .fuel
  | fuel + 1, seg2 =>
    if seg2 ≥ seg1 then do
      let result ← compareAt siz cmp seg2 first
      if result > 0 then seg2Loop first seg1 fuel (seg2 - siz) else pure seg2
    else pure seg2

/-- `while (1)`, up to the value of `seg2` at its end. -/
def partitionLoop (nmemb : Nat) (first : Int) : Nat → Int → Int → Qsort σ Int
  | 0, _, _ => .stop .fuel
  | fuel + 1, seg1, seg2 => do
    let seg1 ← seg1Loop siz cmp first seg2 (nmemb + 1) seg1
    let seg2 ← seg2Loop siz cmp first seg1 (nmemb + 1) seg2
    if seg1 ≥ seg2 then pure seg2
    else do
      swapAt siz seg1 seg2
      partitionLoop nmemb first fuel (seg1 + siz) (seg2 - siz)

/-- The body of `while (begin < end)` up to `seg2p`. -/
def partitionSegment (nmemb : Nat) (first last : Int) : Qsort σ Int := do
  -- uint offset
  let offset : Int := (last - first) / 2 % 2 ^ 32
  swapAt siz first (first + (offset - offset % siz))
  let seg2 ← partitionLoop siz cmp nmemb first (nmemb + 1) (first + siz) last
  swapAt siz first seg2
  pure seg2

/-- Both loops around it; `stack` holds the slots before `loop`, the last one first. -/
def segmentLoop (nmemb : Nat) : Nat → Int → Int → List (Int × Int) → Qsort σ Unit
  | 0, _, _, _ => .stop .fuel
  | fuel + 1, first, last, stack =>
    if first < last then do
      let seg2p ← partitionSegment siz cmp nmemb first last
      if seg2p - first ≤ last - seg2p then
        if seg2p + siz < last then
          if stack.length < qsortStackSize then
            segmentLoop nmemb fuel first (seg2p - siz) ((seg2p + siz, last) :: stack)
          else .stop .stack
        else segmentLoop nmemb fuel first (seg2p - siz) stack
      else
        if seg2p - siz > first then
          if stack.length < qsortStackSize then
            segmentLoop nmemb fuel (seg2p + siz) last ((first, seg2p - siz) :: stack)
          else .stop .stack
        else segmentLoop nmemb fuel (seg2p + siz) last stack
    else
      match stack with
      | [] => pure ()
      | (first, last) :: stack => segmentLoop nmemb fuel first last stack

def zendQsort (nmemb : Nat) : Qsort σ Unit :=
  segmentLoop siz cmp nmemb (2 * nmemb + 2) 0 ((nmemb - 1) * siz) []

end

end Php53.Zend
