import Mathlib.Order.Lattice
import Mathlib.Data.List.TakeWhile

/-!
# Scan — matching a terminated buffer without a length

A scanner looks at one byte after the other and reports where its match ends and the last offset
it looked at.  Nothing compares an offset with the length of the buffer: a scanner stays inside
because no class of bytes that it accepts contains the terminator.
-/

namespace Reasoning

def byteAt (buf : List UInt8) (off : Nat) : UInt8 := buf.getD off 0

/-- How many bytes from `off` on belong to a class. -/
def runLength (p : UInt8 → Bool) (buf : List UInt8) (off : Nat) : Nat :=
  ((buf.drop off).takeWhile p).length

abbrev Scanner := Nat → Option Nat × Nat

namespace Scanner

def byte (buf : List UInt8) (p : UInt8 → Bool) : Scanner := fun off =>
  (if p (byteAt buf off) then some (off + 1) else none, off)

def opt (buf : List UInt8) (p : UInt8 → Bool) : Scanner := fun off =>
  (some (if p (byteAt buf off) then off + 1 else off), off)

def many (buf : List UInt8) (p : UInt8 → Bool) : Scanner := fun off =>
  (some (off + runLength p buf off), off + runLength p buf off)

def seq (a b : Scanner) : Scanner := fun off =>
  match a off with
  | (none, last) => (none, last)
  | (some e, last) => ((b e).1, max last (b e).2)

def many1 (buf : List UInt8) (p : UInt8 → Bool) : Scanner := seq (byte buf p) (many buf p)

/-- `a` where the next byte is of a class, and otherwise `b`. -/
def branch (buf : List UInt8) (p : UInt8 → Bool) (a b : Scanner) : Scanner := fun off =>
  if p (byteAt buf off) then a off else b off

def skip : Scanner := fun off => (some off, off)

end Scanner

theorem byteAt_eq {p : UInt8 → Bool} {buf : List UInt8} {off i : Nat}
    (hi : i < runLength p buf off) : p (byteAt buf (off + i)) = true := by
  have hlt : i < (buf.drop off).length :=
    Nat.lt_of_lt_of_le hi (List.takeWhile_sublist p).length_le
  have hget : (buf.drop off)[i] = ((buf.drop off).takeWhile p).get ⟨i, hi⟩ :=
    ((List.takeWhile_prefix p).getElem hi).symm
  have hbyte : byteAt buf (off + i) = (buf.drop off)[i] := by
    rw [List.length_drop] at hlt
    rw [byteAt, List.getD_eq_getElem?_getD, List.getElem_drop, List.getElem?_eq_getElem (by omega)]
    rfl
  rw [hbyte, hget]
  exact List.mem_takeWhile_imp (List.getElem_mem hi)

/-- `s` does not look past the offset `n`, nor match past it. -/
def Scanner.Stays (n : Nat) (s : Scanner) : Prop :=
  ∀ off, off ≤ n → off ≤ (s off).2 ∧ (s off).2 ≤ n ∧ ∀ e ∈ (s off).1, off ≤ e ∧ e ≤ n

namespace Scanner

variable {n : Nat} {buf : List UInt8} {p : UInt8 → Bool}

section

variable (hp : p (byteAt buf n) = false)

include hp

theorem lt_of_class {off : Nat} (hle : off ≤ n) (h : p (byteAt buf off) = true) : off < n := by
  rcases Nat.lt_or_eq_of_le hle with hlt | rfl
  · exact hlt
  · rw [hp] at h
    exact absurd h Bool.false_ne_true

theorem stays_byte : Stays n (byte buf p) := by
  intro off hle
  refine ⟨Nat.le_refl _, hle, fun e he => ?_⟩
  unfold byte at he
  by_cases h : p (byteAt buf off) = true
  · have hlt := lt_of_class hp hle h
    simp only [h, if_true, Option.mem_some_iff] at he
    omega
  · simp [h] at he

theorem stays_opt : Stays n (opt buf p) := by
  intro off hle
  refine ⟨Nat.le_refl _, hle, fun e he => ?_⟩
  unfold opt at he
  by_cases h : p (byteAt buf off) = true
  · have hlt := lt_of_class hp hle h
    simp only [h, if_true, Option.mem_some_iff] at he
    omega
  · simp only [h, Option.mem_some_iff] at he
    simp at he
    omega

theorem runLength_le {off : Nat} (hle : off ≤ n) :
    off + runLength p buf off ≤ n := by
  by_contra hgt
  have hlt : n - off < runLength p buf off := by omega
  have h := byteAt_eq hlt
  rw [Nat.add_sub_cancel' hle, hp] at h
  exact absurd h Bool.false_ne_true

theorem stays_many : Stays n (many buf p) := by
  intro off hle
  have h := runLength_le (p := p) hp hle
  refine ⟨Nat.le_add_right _ _, h, fun e he => ?_⟩
  obtain rfl := Option.mem_some_iff.mp he
  exact ⟨Nat.le_add_right _ _, h⟩

end

theorem Stays.seq {a b : Scanner} (ha : Stays n a) (hb : Stays n b) : Stays n (seq a b) := by
  intro off hle
  obtain ⟨h1, h2, h3⟩ := ha off hle
  unfold Scanner.seq
  revert h1 h2 h3
  generalize a off = r
  obtain ⟨_ | e, last⟩ := r
  · exact fun h1 h2 _ => ⟨h1, h2, by simp⟩
  · intro h1 h2 h3
    obtain ⟨h4, h5⟩ := h3 e rfl
    obtain ⟨-, h7, h8⟩ := hb e h5
    refine ⟨Nat.le_trans h1 (Nat.le_max_left _ _), Nat.max_le.mpr ⟨h2, h7⟩, fun e' he' => ?_⟩
    obtain ⟨h9, h10⟩ := h8 e' he'
    exact ⟨Nat.le_trans h4 h9, h10⟩

theorem stays_many1 (hp : p (byteAt buf n) = false) : Stays n (many1 buf p) :=
  (stays_byte hp).seq (stays_many hp)

theorem Stays.branch {a b : Scanner} (ha : Stays n a) (hb : Stays n b) :
    Stays n (branch buf p a b) := by
  intro off hle
  unfold Scanner.branch
  split
  · exact ha off hle
  · exact hb off hle

theorem seq_eq_some {a b : Scanner} {off e : Nat} :
    (seq a b off).1 = some e ↔ ∃ m, (a off).1 = some m ∧ (b m).1 = some e := by
  unfold Scanner.seq
  generalize a off = r
  obtain ⟨_ | m, last⟩ := r <;> simp

theorem byte_eq_some {off e : Nat} :
    (byte buf p off).1 = some e ↔ p (byteAt buf off) = true ∧ off + 1 = e := by
  unfold byte
  by_cases h : p (byteAt buf off) = true <;> simp [h]

theorem stays_skip : Stays n skip := by
  intro off hle
  refine ⟨Nat.le_refl _, hle, fun e he => ?_⟩
  obtain rfl := Option.mem_some_iff.mp he
  exact ⟨Nat.le_refl _, hle⟩

end Scanner

end Reasoning
