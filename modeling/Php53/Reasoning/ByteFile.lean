import Mathlib.Algebra.GroupWithZero.Nat
import Mathlib.Data.List.Basic

/-!
# ByteFile — an array of bytes with a position in it
-/

namespace Reasoning

@[ext] structure ByteFile where
  bytes : List UInt8
  pos : Nat
  inside : pos ≤ bytes.length

namespace ByteFile

def empty : ByteFile := ⟨[], 0, Nat.le_refl 0⟩

/-- The bytes from the position on, at most `n`, and the position behind them. -/
def read (f : ByteFile) (n : Nat) : List UInt8 × ByteFile :=
  ((f.bytes.drop f.pos).take n,
    { bytes := f.bytes, pos := min (f.pos + n) f.bytes.length, inside := Nat.min_le_right _ _ })

def write (f : ByteFile) (data : List UInt8) : ByteFile where
  bytes := f.bytes.take f.pos ++ data ++ f.bytes.drop (f.pos + data.length)
  pos := f.pos + data.length
  inside := by
    have h := f.inside
    rw [List.length_append, List.length_append, List.length_take]
    omega

def seek (f : ByteFile) (target : Int) : Int × ByteFile :=
  if h : 0 ≤ target ∧ target ≤ f.bytes.length then
    (0, { bytes := f.bytes, pos := target.toNat, inside := by omega })
  else (-1, f)

def truncate (f : ByteFile) (n : Nat) : ByteFile where
  bytes := f.bytes.take n ++ List.replicate (n - f.bytes.length) 0
  pos := min f.pos n
  inside := by
    rw [List.length_append, List.length_take, List.length_replicate]
    omega

theorem read_zero (f : ByteFile) : f.read 0 = ([], f) := by
  have h : min (f.pos + 0) f.bytes.length = f.pos := Nat.min_eq_left f.inside
  unfold read
  congr 1
  ext1
  · rfl
  · exact h

theorem write_nil (f : ByteFile) : f.write [] = f := by
  have h := List.take_append_drop f.pos f.bytes
  ext1
  · show f.bytes.take f.pos ++ [] ++ f.bytes.drop (f.pos + 0) = f.bytes
    rw [List.append_nil, Nat.add_zero, h]
  · rfl

theorem write_write (f : ByteFile) (a b : List UInt8) : (f.write a).write b = f.write (a ++ b) := by
  have hin := f.inside
  have hlen : (f.bytes.take f.pos ++ a).length = f.pos + a.length := by
    rw [List.length_append, List.length_take, Nat.min_eq_left hin]
  ext1
  · show (f.bytes.take f.pos ++ a ++ f.bytes.drop (f.pos + a.length)).take (f.pos + a.length) ++
      b ++ (f.bytes.take f.pos ++ a ++ f.bytes.drop (f.pos + a.length)).drop
        (f.pos + a.length + b.length) =
      f.bytes.take f.pos ++ (a ++ b) ++ f.bytes.drop (f.pos + (a ++ b).length)
    rw [← hlen, List.take_left, ← List.drop_drop, List.drop_left, List.drop_drop, hlen,
      List.length_append, Nat.add_assoc, List.append_assoc (f.bytes.take f.pos)]
  · show f.pos + a.length + b.length = f.pos + (a ++ b).length
    rw [List.length_append, Nat.add_assoc]

end ByteFile

end Reasoning
