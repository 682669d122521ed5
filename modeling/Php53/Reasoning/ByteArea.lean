import Mathlib.Algebra.GroupWithZero.Nat
import Mathlib.Algebra.Group.Int.Defs
import Mathlib.Data.List.Basic

/-!
# ByteArea — numbers and texts in an array of bytes

An access is defined where all its bytes are inside.  A number is stored with its least significant
byte first.
-/

namespace Reasoning

/-- The low `8 * count` bits of a number. -/
def littleEndian : Nat → Nat → List UInt8
  | 0, _ => []
  | count + 1, n => UInt8.ofNat n :: littleEndian count (n / 256)

def ofLittleEndian : List UInt8 → Nat
  | [] => 0
  | b :: bs => b.toNat + 256 * ofLittleEndian bs

@[simp] theorem length_littleEndian (count n : Nat) : (littleEndian count n).length = count := by
  induction count generalizing n with
  | zero => rfl
  | succ count ih => rw [littleEndian, List.length_cons, ih]

theorem ofLittleEndian_littleEndian (count n : Nat) :
    ofLittleEndian (littleEndian count n) = n % 256 ^ count := by
  induction count generalizing n with
  | zero => rw [littleEndian, ofLittleEndian, Nat.pow_zero, Nat.mod_one]
  | succ count ih =>
    have hbyte : (UInt8.ofNat n).toNat = n % 256 := UInt8.toNat_ofNat'
    rw [littleEndian, ofLittleEndian, ih, hbyte, Nat.pow_succ', Nat.mod_mul]

def loadAt (mem : List UInt8) (pos len : Int) : Option (List UInt8) :=
  if 0 ≤ pos ∧ 0 ≤ len ∧ pos + len ≤ mem.length then some ((mem.drop pos.toNat).take len.toNat)
  else none

def storeAt (mem : List UInt8) (pos : Int) (bs : List UInt8) : Option (List UInt8) :=
  if 0 ≤ pos ∧ pos + bs.length ≤ mem.length then
    some (mem.take pos.toNat ++ bs ++ mem.drop (pos.toNat + bs.length))
  else none

theorem loadAt_append (a b c : List UInt8) :
    loadAt (a ++ (b ++ c)) a.length b.length = some b := by
  have hin : 0 ≤ (a.length : Int) ∧ 0 ≤ (b.length : Int) ∧
      (a.length : Int) + b.length ≤ (a ++ (b ++ c)).length := by
    rw [List.length_append, List.length_append]
    omega
  rw [loadAt, if_pos hin, Int.toNat_natCast, Int.toNat_natCast, List.drop_left, List.take_left]

theorem storeAt_append {a old bs : List UInt8} (h : bs.length ≤ old.length) :
    storeAt (a ++ old) a.length bs = some (a ++ (bs ++ old.drop bs.length)) := by
  have hin : 0 ≤ (a.length : Int) ∧ (a.length : Int) + bs.length ≤ (a ++ old).length := by
    rw [List.length_append]
    omega
  rw [storeAt, if_pos hin, Int.toNat_natCast, List.take_left, List.drop_length_add_append,
    List.append_assoc]

theorem storeAt_eq_none {mem bs : List UInt8} {pos : Int} (h : (mem.length : Int) < pos + bs.length) :
    storeAt mem pos bs = none := by
  rw [storeAt, if_neg]
  omega

end Reasoning
