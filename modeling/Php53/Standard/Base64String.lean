import Mathlib.Data.List.TakeWhile
import Php53.Reasoning.Narrow
import Php53.Standard.Base64
import Php53.Standard.StripPieces

/-!
# Base64String — `php_base64_encode` and `php_base64_decode_ex`

A string is a list of bytes with a NUL behind it, and its `int` length is the length of the list.  The
encoder stores the length of its text in an `int`.  The decoder is the one behind `base64_decode`; `Sextets` is what its loop has collected.
-/

namespace Php53.Standard

open Zend (ch)
open List

variable {c d : UInt8} {s u : List UInt8} {r : Sextets}

/-- `base64_table[i]` -/
def base64Table (i : UInt8) : UInt8 := base64Alphabet.getD i.toNat 0

def phpBase64Encode : List UInt8 → List UInt8
  | a :: b :: c :: current =>
    base64Table (a >>> 2) :: base64Table (((a &&& 0x03) <<< 4) + (b >>> 4)) ::
      base64Table (((b &&& 0x0f) <<< 2) + (c >>> 6)) :: base64Table (c &&& 0x3f) ::
      phpBase64Encode current
  | [a, b] =>
    [base64Table (a >>> 2), base64Table (((a &&& 0x03) <<< 4) + (b >>> 4)),
      base64Table ((b &&& 0x0f) <<< 2), ch '=']
  | [a] => [base64Table (a >>> 2), base64Table ((a &&& 0x03) <<< 4), ch '=', ch '=']
  | [] => []

/-- `*ret_length = (int)(p - result)` -/
def base64RetLength (str : List UInt8) : Int := ((phpBase64Encode str).length : Int).bmod (2 ^ 32)

def base64ReverseList : List Int :=
  [-2, -2, -2, -2, -2, -2, -2, -2, -2, -1, -1, -2, -2, -1, -2, -2,
   -2, -2, -2, -2, -2, -2, -2, -2, -2, -2, -2, -2, -2, -2, -2, -2,
   -1, -2, -2, -2, -2, -2, -2, -2, -2, -2, -2, 62, -2, -2, -2, 63,
   52, 53, 54, 55, 56, 57, 58, 59, 60, 61, -2, -2, -2, -2, -2, -2,
   -2, 0, 1, 2, 3, 4, 5, 6, 7, 8, 9, 10, 11, 12, 13, 14,
   15, 16, 17, 18, 19, 20, 21, 22, 23, 24, 25, -2, -2, -2, -2, -2,
   -2, 26, 27, 28, 29, 30, 31, 32, 33, 34, 35, 36, 37, 38, 39, 40,
   41, 42, 43, 44, 45, 46, 47, 48, 49, 50, 51, -2, -2, -2, -2, -2,
   -2, -2, -2, -2, -2, -2, -2, -2, -2, -2, -2, -2, -2, -2, -2, -2,
   -2, -2, -2, -2, -2, -2, -2, -2, -2, -2, -2, -2, -2, -2, -2, -2,
   -2, -2, -2, -2, -2, -2, -2, -2, -2, -2, -2, -2, -2, -2, -2, -2,
   -2, -2, -2, -2, -2, -2, -2, -2, -2, -2, -2, -2, -2, -2, -2, -2,
   -2, -2, -2, -2, -2, -2, -2, -2, -2, -2, -2, -2, -2, -2, -2, -2,
   -2, -2, -2, -2, -2, -2, -2, -2, -2, -2, -2, -2, -2, -2, -2, -2,
   -2, -2, -2, -2, -2, -2, -2, -2, -2, -2, -2, -2, -2, -2, -2, -2,
   -2, -2, -2, -2, -2, -2, -2, -2, -2, -2, -2, -2, -2, -2, -2, -2]

/-- `base64_reverse_table[c]` -/
def base64ReverseTable (c : UInt8) : Int := base64ReverseList.getD c.toNat (-2)

/-- `i`, the bytes `result[0]` to `result[j - 1]`, and `result[j]`. -/
structure Sextets where
  i : Nat
  done : List UInt8
  cur : UInt8
  deriving DecidableEq, Repr

def Sextets.start : Sextets := { i := 0, done := [], cur := 0 }

/-- `switch (i % 4)`, and `i++`. -/
def Sextets.put (r : Sextets) (d : UInt8) : Sextets :=
  match r.i % 4 with
  | 0 => { i := r.i + 1, done := r.done, cur := d <<< 2 }
  | 1 => { i := r.i + 1, done := r.done ++ [r.cur ||| (d >>> 4)], cur := (d &&& 0x0f) <<< 4 }
  | 2 => { i := r.i + 1, done := r.done ++ [r.cur ||| (d >>> 2)], cur := (d &&& 0x03) <<< 6 }
  | _ => { i := r.i + 1, done := r.done ++ [r.cur ||| d], cur := 0 }

/-- `*current` -/
def currentByte (current : List UInt8) : UInt8 := current.headD 0

/-- The loop of `php_base64_decode_ex`: the last `ch`, and what was collected; `none` is `NULL`.
What is left of `length` is the number of bytes of `current`. -/
def base64DecodeLoop (t : Ctype) (strict : Bool) : List UInt8 → Sextets → Option (UInt8 × Sextets)
  | [], r => some (0, r)
  | c :: current, r =>
    if c = 0 then some (0, r)
    else if c = ch '=' then
      if currentByte current ≠ ch '=' ∧ (r.i % 4 = 1 ∨ strict = true ∧ 0 < current.length) then
        -- `++current` comes before the first `isspace`; behind a NUL the loop ends
        if r.i % 4 ≠ 1 ∧ currentByte (current.tail.dropWhile t.isspace) = 0 then some (0, r)
        else none
      else base64DecodeLoop t strict current r
    else
      let d := base64ReverseTable c
      if (strict = false ∧ d < 0) ∨ d = -1 then base64DecodeLoop t strict current r
      else if d = -2 then none
      else base64DecodeLoop t strict current (r.put (UInt8.ofNat d.toNat))

example (t : Ctype) (r : Sextets) : base64DecodeLoop t true [] r = some (0, r) := by
  rw [base64DecodeLoop]

def phpBase64DecodeEx (t : Ctype) (str : List UInt8) (strict : Bool) : Option (List UInt8) :=
  match base64DecodeLoop t strict str Sextets.start with
  | none => none
  | some (c, r) => if c = ch '=' ∧ r.i % 4 = 1 then none else some r.done

/-- `base64_decode` of a string with an `int` length, none also where `safe_emalloc` does not return. -/
def base64Decode (t : Ctype) (str : List UInt8) (length : Int) (strict : Bool) : Option (List UInt8) :=
  if length < 0 then none else phpBase64DecodeEx t (str.take length.toNat) strict

def Base64Read (c : UInt8) : Prop := c ∈ base64Alphabet ∨ base64ReverseTable c = -1

instance (c : UInt8) : Decidable (Base64Read c) :=
  inferInstanceAs (Decidable (c ∈ base64Alphabet ∨ base64ReverseTable c = -1))

/-- The digit that the character number `n` stands for; white space is `-1`, the rest `-2`. -/
def sextetOf (n : Nat) : Int :=
  if 65 ≤ n ∧ n ≤ 90 then n - 65
  else if 97 ≤ n ∧ n ≤ 122 then n - 71
  else if 48 ≤ n ∧ n ≤ 57 then n + 4
  else if n = 43 then 62
  else if n = 47 then 63
  else if n = 32 ∨ n = 9 ∨ n = 10 ∨ n = 13 then -1
  else -2

theorem base64ReverseTable_eq (c : UInt8) : base64ReverseTable c = sextetOf c.toNat := by
  have htable : base64ReverseList = (range 256).map sextetOf := by decide +kernel
  have hc : c.toNat < 256 := c.toNat_lt
  unfold base64ReverseTable
  rw [htable]
  simp [getD, hc]

theorem mem_base64Alphabet (c : UInt8) : c ∈ base64Alphabet ↔ 0 ≤ sextetOf c.toNat := by
  have hc : c.toNat < 256 := c.toNat_lt
  have hmem : c ∈ base64Alphabet ↔
      c.toNat ∈ range' 65 26 ++ range' 97 26 ++ range' 48 10 ++ [43, 47] := by
    rw [base64Alphabet_eq, mem_map]
    constructor
    · intro ⟨n, hn, hc⟩
      have hlt : n < 256 := by
        simp only [mem_append, mem_range'_1, mem_cons, not_mem_nil, or_false] at hn
        omega
      rw [← hc, UInt8.toNat_ofNat_of_lt' hlt]
      exact hn
    · intro hn
      exact ⟨c.toNat, hn, UInt8.ofNat_toNat⟩
  rw [hmem]
  simp only [mem_append, mem_range'_1, mem_cons, not_mem_nil, or_false, sextetOf]
  omega

theorem base64ReverseTable_kind (c : UInt8) :
    (c ∈ base64Alphabet ∧ 0 ≤ base64ReverseTable c ∧ c < 128 ∧
        ¬ (c = 32 ∨ 9 ≤ c ∧ c ≤ 13) ∧ c ≠ 0 ∧ c ≠ ch '=') ∨
      (c ∉ base64Alphabet ∧ base64ReverseTable c = -1 ∧ c < 128 ∧
        (c = 32 ∨ 9 ≤ c ∧ c ≤ 13) ∧ c ≠ 0 ∧ c ≠ ch '=') ∨
      (c ∉ base64Alphabet ∧ base64ReverseTable c = -2) := by
  have hpad : ch '=' = 61 := rfl
  rw [mem_base64Alphabet, base64ReverseTable_eq, hpad]
  simp only [UInt8.lt_iff_toNat_lt, UInt8.le_iff_toNat_le, ne_eq, ← UInt8.toNat_inj, UInt8.reduceToNat]
  unfold sextetOf
  omega

theorem base64Read_ne (c : UInt8) (h : Base64Read c) : c ≠ 0 ∧ c ≠ ch '=' := by
  cases base64ReverseTable_kind c with
  | inl hdigit => exact hdigit.2.2.2.2
  | inr hrest =>
    cases hrest with
    | inl hblank => exact hblank.2.2.2.2
    | inr hother =>
      cases h with
      | inl hmem => exact absurd hmem hother.1
      | inr hblank => rw [hother.2] at hblank; omega

theorem base64ReverseTable_cases (c : UInt8) :
    (c ∈ base64Alphabet ∧ 0 ≤ base64ReverseTable c) ∨
      (c ∉ base64Alphabet ∧ (base64ReverseTable c = -1 ∨ base64ReverseTable c = -2)) := by
  cases base64ReverseTable_kind c with
  | inl hdigit => exact Or.inl ⟨hdigit.1, hdigit.2.1⟩
  | inr hrest =>
    cases hrest with
    | inl hblank => exact Or.inr ⟨hblank.1, Or.inl hblank.2.1⟩
    | inr hother => exact Or.inr ⟨hother.1, Or.inr hother.2⟩

theorem isspace_of_blank (t : Ctype) (h : base64ReverseTable c = -1) :
    t.isspace c = true := by
  cases base64ReverseTable_kind c with
  | inl hdigit =>
    have hpos := hdigit.2.1
    omega
  | inr hrest =>
    cases hrest with
    | inl hblank =>
      rw [t.isspace_ascii c hblank.2.2.1]
      exact decide_eq_true hblank.2.2.2.1
    | inr hother => rw [hother.2] at h; omega

theorem base64ReverseTable_base64Table (h : d.toNat < 64) :
    base64ReverseTable (base64Table d) = d.toNat := by
  have htable : ∀ n : Nat, n < 64 → sextetOf (((range' 65 26 ++ range' 97 26 ++ range' 48 10 ++
      [43, 47]).map UInt8.ofNat).getD n 0).toNat = n := by decide +kernel
  rw [base64ReverseTable_eq, base64Table, base64Alphabet_eq]
  exact htable d.toNat h

theorem base64Table_mem (h : d.toNat < 64) : base64Table d ∈ base64Alphabet := by
  have hlt : d.toNat < base64Alphabet.length := length_base64Alphabet.symm ▸ h
  rw [base64Table, getD_eq_getElem _ _ hlt]
  exact getElem_mem hlt

theorem isspace_zero (t : Ctype) : t.isspace 0 = false := by
  rw [t.isspace_ascii 0 (by decide)]
  decide

variable (t : Ctype) (strict : Bool)

theorem base64DecodeLoop_nul (z : List UInt8) (r : Sextets) :
    base64DecodeLoop t strict (0 :: z) r = some (0, r) := rfl

theorem base64DecodeLoop_blank (h : base64ReverseTable c = -1) (cs : List UInt8) (r : Sextets)
    : base64DecodeLoop t strict (c :: cs) r = base64DecodeLoop t strict cs r := by
  have hne := base64Read_ne c (Or.inr h)
  rw [base64DecodeLoop, if_neg hne.1, if_neg hne.2]
  exact if_pos (Or.inr h)

theorem base64DecodeLoop_char (h : c ∈ base64Alphabet) (cs : List UInt8) (r : Sextets) :
    base64DecodeLoop t strict (c :: cs) r =
      base64DecodeLoop t strict cs (r.put (UInt8.ofNat (base64ReverseTable c).toNat)) := by
  have hne := base64Read_ne c (Or.inl h)
  have hd : 0 ≤ base64ReverseTable c := by
    cases base64ReverseTable_cases c with
    | inl hc => exact hc.2
    | inr hc => exact absurd h hc.1
  rw [base64DecodeLoop, if_neg hne.1, if_neg hne.2]
  show (if _ then _ else if _ then _ else _) = _
  rw [if_neg (by omega), if_neg (by omega)]

theorem base64DecodeLoop_refused (h : ¬ Base64Read c) (h₀ : c ≠ 0) (hpad : c ≠ ch '=')
    (cs : List UInt8) (r : Sextets) : base64DecodeLoop t true (c :: cs) r = none := by
  have hd : base64ReverseTable c = -2 := by
    cases base64ReverseTable_cases c with
    | inl hc => exact absurd (Or.inl hc.1) h
    | inr hc =>
      cases hc.2 with
      | inl hblank => exact absurd (Or.inr hblank) h
      | inr hd => exact hd
  rw [base64DecodeLoop, if_neg h₀, if_neg hpad]
  show (if _ then _ else if _ then _ else _) = _
  rw [if_neg (by rw [hd]; decide), if_pos hd]

theorem base64DecodeLoop_pad_pad (cs : List UInt8) (r : Sextets) :
    base64DecodeLoop t strict (ch '=' :: ch '=' :: cs) r =
      base64DecodeLoop t strict (ch '=' :: cs) r := by
  rw [base64DecodeLoop, if_neg (by decide), if_pos rfl]
  exact if_neg fun h => h.1 rfl

theorem put_i (r : Sextets) (d : UInt8) : (r.put d).i = r.i + 1 := by
  unfold Sextets.put
  split <;> rfl

theorem base64DecodeLoop_read (h : ∀ c ∈ u, Base64Read c) (rest : List UInt8) (r : Sextets) :
    ∃ r', base64DecodeLoop t strict (u ++ rest) r = base64DecodeLoop t strict rest r' ∧
      r'.i = r.i + u.countP (· ∈ base64Alphabet) := by
  induction u generalizing r with
  | nil => exact ⟨r, rfl, rfl⟩
  | cons c u ih =>
    have hu : ∀ c ∈ u, Base64Read c := fun b hb => h b (mem_cons_of_mem _ hb)
    by_cases hc : c ∈ base64Alphabet
    · have ⟨r', hr', hi⟩ := ih hu (r.put (UInt8.ofNat (base64ReverseTable c).toNat))
      refine ⟨r', ?_, ?_⟩
      · rw [cons_append, base64DecodeLoop_char t strict hc, hr']
      · rw [countP_cons_of_pos (by simpa using hc), hi, put_i]
        omega
    · have hblank : base64ReverseTable c = -1 := by
        cases h c (mem_cons_self ..) with
        | inl hmem => exact absurd hmem hc
        | inr hblank => exact hblank
      have ⟨r', hr', hi⟩ := ih hu r
      refine ⟨r', ?_, ?_⟩
      · rw [cons_append, base64DecodeLoop_blank t strict hblank, hr']
      · rw [countP_cons_of_neg (by simpa using hc), hi]

theorem base64DecodeLoop_pads (k : Nat) (rest : List UInt8) (r : Sextets) :
    base64DecodeLoop t strict (replicate (k + 1) (ch '=') ++ rest) r =
      base64DecodeLoop t strict (ch '=' :: rest) r := by
  induction k with
  | zero => rfl
  | succ k ih =>
    rw [← ih]
    exact base64DecodeLoop_pad_pad t strict (replicate k (ch '=') ++ rest) r

/-- Only characters of the alphabet, white space and padding, and no character of the alphabet
behind padding. -/
def Base64WellFormed (s : List UInt8) : Prop :=
  (∀ c ∈ s, c ∈ base64Alphabet ∨ t.isspace c = true ∨ c = ch '=') ∧
    s.Pairwise fun b c => b = ch '=' → c ∉ base64Alphabet

def EndsAtNul (s : List UInt8) : Prop :=
  ∃ u z, (∀ c ∈ u, Base64Read c) ∧ s = u ++ 0 :: z

/-- Padding that is allowed where it stands, and behind it `c`, which is jumped over, and white
space up to the end or up to a NUL; the jump does harm if `c` is no white space, or there is a
NUL. -/
def JumpsAByte (s : List UInt8) : Prop :=
  ∃ u k c w z, (∀ b ∈ u, Base64Read b) ∧ u.countP (· ∈ base64Alphabet) % 4 ≠ 1 ∧ c ≠ ch '=' ∧
    (∀ b ∈ w, t.isspace b = true) ∧ (z = [] ∨ ∃ z', z = 0 :: z') ∧
    (t.isspace c = false ∨ z ≠ []) ∧ s = u ++ (List.replicate (k + 1) (ch '=') ++ c :: (w ++ z))

theorem currentByte_dropWhile {w z : List UInt8} (hw : ∀ b ∈ w, t.isspace b = true)
    (hz : z = [] ∨ ∃ z', z = 0 :: z') : currentByte ((w ++ z).dropWhile t.isspace) = 0 := by
  rw [dropWhile_append_of_pos hw]
  cases hz with
  | inl hz =>
    rw [hz]
    rfl
  | inr hz =>
    obtain ⟨z', rfl⟩ := hz
    rw [dropWhile_cons_of_neg (by simp [isspace_zero t])]
    rfl

theorem base64DecodeLoop_jump {cs : List UInt8} (hc : c ≠ ch '=') :
    base64DecodeLoop t true (ch '=' :: c :: cs) r =
      if r.i % 4 ≠ 1 ∧ currentByte (cs.dropWhile t.isspace) = 0 then some (0, r) else none := by
  rw [base64DecodeLoop, if_neg (by decide), if_pos rfl]
  exact if_pos ⟨hc, Or.inr ⟨rfl, Nat.succ_pos _⟩⟩

theorem base64DecodeLoop_end :
    base64DecodeLoop t strict [ch '='] r = if r.i % 4 = 1 then none else some (0, r) := by
  rw [base64DecodeLoop, if_neg (by decide), if_pos rfl]
  by_cases hi : r.i % 4 = 1
  · rw [if_pos ⟨by decide, Or.inl hi⟩, if_neg (fun h => h.1 hi), if_pos hi]
  · have hstay : ¬ (currentByte [] ≠ ch '=' ∧ (r.i % 4 = 1 ∨ strict = true ∧ 0 < ([] : List UInt8).length)) := by
      intro h
      cases h.2 with
      | inl h => exact hi h
      | inr h => exact absurd h.2 (by decide)
    rw [if_neg hstay, if_neg hi]
    rfl

theorem phpBase64DecodeEx_of_loop (h : base64DecodeLoop t strict s Sextets.start = some (0, r)) :
    phpBase64DecodeEx t s strict = some r.done := by
  unfold phpBase64DecodeEx
  rw [h]
  exact if_neg fun hpad => absurd hpad.1 (by decide)

theorem phpBase64DecodeEx_of_none (h : base64DecodeLoop t strict s Sextets.start = none) :
    phpBase64DecodeEx t s strict = none := by
  unfold phpBase64DecodeEx
  rw [h]

theorem endsAtNul_accepted (h : EndsAtNul s) :
    phpBase64DecodeEx t s true ≠ none := by
  obtain ⟨u, z, hu, rfl⟩ := h
  have ⟨r, hr, _⟩ := base64DecodeLoop_read t true hu (0 :: z) Sextets.start
  rw [base64DecodeLoop_nul] at hr
  rw [phpBase64DecodeEx_of_loop t true hr]
  exact Option.some_ne_none _

theorem jumpsAByte_accepted (h : JumpsAByte t s) :
    phpBase64DecodeEx t s true ≠ none := by
  obtain ⟨u, k, c, w, z, hu, hcount, hc, hw, hz, _, rfl⟩ := h
  have ⟨r, hr, hi⟩ := base64DecodeLoop_read t true hu
    (replicate (k + 1) (ch '=') ++ c :: (w ++ z)) Sextets.start
  have hi : r.i % 4 ≠ 1 := by
    rw [hi]
    show (0 + _) % 4 ≠ 1
    omega
  rw [base64DecodeLoop_pads, base64DecodeLoop_jump t hc, if_pos ⟨hi, currentByte_dropWhile t hw hz⟩] at hr
  rw [phpBase64DecodeEx_of_loop t true hr]
  exact Option.some_ne_none _

theorem zero_not_wellFormed (h : 0 ∈ s) : ¬ Base64WellFormed t s := by
  intro hwf
  have hzero := hwf.1 0 h
  rw [isspace_zero, mem_base64Alphabet] at hzero
  exact absurd hzero (by decide)

theorem endsAtNul_not_wellFormed (h : EndsAtNul s) : ¬ Base64WellFormed t s := by
  obtain ⟨u, z, _, rfl⟩ := h
  exact zero_not_wellFormed t (by simp)

theorem jumpsAByte_not_wellFormed (h : JumpsAByte t s) :
    ¬ Base64WellFormed t s := by
  obtain ⟨u, k, c, w, z, _, _, hc, _, hz, hharm, rfl⟩ := h
  cases hharm with
  | inl hspace =>
    intro hwf
    have hchar : c ∈ base64Alphabet := by
      rcases hwf.1 c (by simp) with hmem | hmem | hmem
      · exact hmem
      · rw [hspace] at hmem
        exact nomatch hmem
      · exact absurd hmem hc
    have hpair := (pairwise_append.mp (pairwise_append.mp hwf.2).2.1).2.2 (ch '=')
      (by simp) c (by simp)
    exact hpair rfl hchar
  | inr hne =>
    have ⟨z', hz'⟩ := hz.resolve_left hne
    rw [hz']
    exact zero_not_wellFormed t (by simp)

theorem wellFormed_append {v : List UInt8} (hu : ∀ c ∈ u, Base64Read c)
    (hv : ∀ c ∈ v, t.isspace c = true ∨ c = ch '=') (hchar : ∀ c ∈ v, c ∉ base64Alphabet)
    : Base64WellFormed t (u ++ v) := by
  constructor
  · intro c hc
    cases mem_append.mp hc with
    | inl hc =>
      cases hu c hc with
      | inl hmem => exact Or.inl hmem
      | inr hblank => exact Or.inr (Or.inl (isspace_of_blank t hblank))
    | inr hc => exact Or.inr (hv c hc)
  · rw [pairwise_append]
    refine ⟨?_, ?_, fun b hb c hc _ => hchar c hc⟩
    · apply pairwise_of_forall_mem_list
      intro b hb c _ hpad
      exact absurd hpad (base64Read_ne b (hu b hb)).2
    · apply pairwise_of_forall_mem_list
      intro b _ c hc _
      exact hchar c hc

theorem not_mem_alphabet_of_isspace (h : t.isspace c = true ∨ c = ch '=') :
    c ∉ base64Alphabet := by
  cases base64ReverseTable_kind c with
  | inl hdigit =>
    have ⟨_, _, hascii, hspace, _, hpad⟩ := hdigit
    cases h with
    | inl hc =>
      rw [t.isspace_ascii c hascii] at hc
      exact absurd (of_decide_eq_true hc) hspace
    | inr hc => exact absurd hc hpad
  | inr hrest =>
    cases hrest with
    | inl hblank => exact hblank.1
    | inr hother => exact hother.1

theorem exists_pads (v : List UInt8) :
    ∃ k rest, v = replicate k (ch '=') ++ rest ∧ ∀ c cs, rest = c :: cs → c ≠ ch '=' := by
  induction v with
  | nil => exact ⟨0, [], rfl, fun c cs h => nomatch h⟩
  | cons c v ih =>
    by_cases hc : c = ch '='
    · have ⟨k, rest, hv, hrest⟩ := ih
      exact ⟨k + 1, rest, by rw [hc, hv, replicate_succ, cons_append], hrest⟩
    · refine ⟨0, c :: v, rfl, ?_⟩
      intro d cs h
      rw [← (List.cons.inj h).1]
      exact hc

theorem exists_spaces {cs : List UInt8} (h : currentByte (cs.dropWhile t.isspace) = 0) :
    ∃ w z, cs = w ++ z ∧ (∀ b ∈ w, t.isspace b = true) ∧ (z = [] ∨ ∃ z', z = 0 :: z') := by
  refine ⟨cs.takeWhile t.isspace, cs.dropWhile t.isspace,
    takeWhile_append_dropWhile.symm, fun b hb => mem_takeWhile_imp hb, ?_⟩
  cases hz : cs.dropWhile t.isspace with
  | nil => exact Or.inl rfl
  | cons b z =>
    rw [hz] at h
    exact Or.inr ⟨z, by rw [show b = 0 from h]⟩

theorem wellFormed_of_padding {v : List UInt8} (hu : ∀ c ∈ u, Base64Read c)
    (hi : r.i = u.countP (· ∈ base64Alphabet)) (h : base64DecodeLoop t true (ch '=' :: v) r ≠ none)
    (hjump : ¬ JumpsAByte t (u ++ ch '=' :: v)) : Base64WellFormed t (u ++ ch '=' :: v) := by
  have ⟨k, rest, hv, hrest⟩ := exists_pads v
  have hpads : ch '=' :: v = replicate (k + 1) (ch '=') ++ rest := by
    rw [hv, replicate_succ, cons_append]
  rw [hpads] at hjump h ⊢
  rw [base64DecodeLoop_pads] at h
  have hblank : ∀ c ∈ replicate (k + 1) (ch '=') ++ rest, t.isspace c = true ∨ c = ch '=' := by
    intro c hc
    cases mem_append.mp hc with
    | inl hc => exact Or.inr (eq_of_mem_replicate hc)
    | inr hc =>
      -- what is left behind the padding was jumped over, and the jump did no harm
      left
      cases rest with
      | nil => exact absurd hc (by simp)
      | cons d cs =>
        have hd := hrest d cs rfl
        rw [base64DecodeLoop_jump t hd] at h
        have hif := ite_ne_right_iff.mp h
        have ⟨w, z, hcs, hw, hz⟩ := exists_spaces t hif.1.2
        have hharm : ¬ (t.isspace d = false ∨ z ≠ []) := by
          intro hharm
          refine hjump ⟨u, k, d, w, z, hu, ?_, hd, hw, hz, hharm, by rw [hcs]⟩
          rw [← hi]
          exact hif.1.1
        have hd' : t.isspace d = true := by
          cases hs : t.isspace d with
          | true => rfl
          | false => exact absurd (Or.inl hs) hharm
        have hz' : z = [] := Decidable.byContradiction fun hne => hharm (Or.inr hne)
        rw [hcs, hz', List.append_nil] at hc
        cases mem_cons.mp hc with
        | inl hc => rw [hc, hd']
        | inr hc => exact hw c hc
  exact wellFormed_append t hu hblank fun c hc => not_mem_alphabet_of_isspace t (hblank c hc)

theorem wellFormed_of_accepted (h : phpBase64DecodeEx t s true ≠ none) (hnul : ¬ EndsAtNul s)
    (hjump : ¬ JumpsAByte t s) : Base64WellFormed t s := by
  have hsplit := takeWhile_append_dropWhile (p := fun c => decide (Base64Read c)) (l := s)
  generalize hu' : s.takeWhile (fun c => decide (Base64Read c)) = u at hsplit
  generalize hv' : s.dropWhile (fun c => decide (Base64Read c)) = v at hsplit
  have hu : ∀ c ∈ u, Base64Read c := by
    intro c hc
    rw [← hu'] at hc
    have hread : decide (Base64Read c) = true := (mem_takeWhile_imp hc :)
    exact of_decide_eq_true hread
  have ⟨r, hr, hi⟩ := base64DecodeLoop_read t true hu v Sextets.start
  have hi : r.i = u.countP (· ∈ base64Alphabet) := by
    rw [hi]
    exact Nat.zero_add _
  rw [hsplit] at hr
  cases v with
  | nil =>
    rw [← hsplit]
    exact wellFormed_append t hu (by simp) (by simp)
  | cons c v =>
    have hc : ¬ Base64Read c := by
      have hne : s.dropWhile (fun c => decide (Base64Read c)) ≠ [] := by
        rw [hv']
        exact cons_ne_nil _ _
      have hhead := head_dropWhile_not (fun c => decide (Base64Read c)) hne
      simpa only [hv', head_cons, decide_eq_false_iff_not] using hhead
    by_cases h₀ : c = 0
    · exact absurd ⟨u, v, hu, by rw [← hsplit, h₀]⟩ hnul
    by_cases hpad : c = ch '='
    · rw [hpad] at hr hsplit
      have haccepted : base64DecodeLoop t true (ch '=' :: v) r ≠ none := by
        intro hnone
        exact h (phpBase64DecodeEx_of_none t true (hr.trans hnone))
      rw [← hsplit] at hjump ⊢
      exact wellFormed_of_padding t hu hi haccepted hjump
    · rw [base64DecodeLoop_refused t hc h₀ hpad] at hr
      exact absurd (phpBase64DecodeEx_of_none t true hr) h

theorem base64DecodeLoop_table (h : d.toNat < 64) (cs : List UInt8) (r : Sextets) :
    base64DecodeLoop t strict (base64Table d :: cs) r = base64DecodeLoop t strict cs (r.put d) := by
  rw [base64DecodeLoop_char t strict (base64Table_mem h), base64ReverseTable_base64Table h]
  rw [Int.toNat_natCast, UInt8.ofNat_toNat]

theorem shifted_bits :
    (∀ m < 4, ∀ n < 16,
      ((UInt8.ofNat m <<< 4) + UInt8.ofNat n).toNat < 64 ∧
        ((UInt8.ofNat m <<< 4) + UInt8.ofNat n) >>> 4 = UInt8.ofNat m ∧
        ((UInt8.ofNat m <<< 4) + UInt8.ofNat n) &&& 0x0f = UInt8.ofNat n) ∧
      (∀ m < 16, ∀ n < 4,
        ((UInt8.ofNat m <<< 2) + UInt8.ofNat n).toNat < 64 ∧
          ((UInt8.ofNat m <<< 2) + UInt8.ofNat n) >>> 2 = UInt8.ofNat m ∧
          ((UInt8.ofNat m <<< 2) + UInt8.ofNat n) &&& 0x03 = UInt8.ofNat n) ∧
      ∀ n < 256,
        (((UInt8.ofNat n) >>> 2).toNat < 64 ∧ ((UInt8.ofNat n) >>> 4).toNat < 16 ∧
            ((UInt8.ofNat n) >>> 6).toNat < 4) ∧
          (((UInt8.ofNat n) &&& 0x03).toNat < 4 ∧ ((UInt8.ofNat n) &&& 0x0f).toNat < 16 ∧
            ((UInt8.ofNat n) &&& 0x3f).toNat < 64) ∧
          (((UInt8.ofNat n) >>> 2) <<< 2) ||| ((UInt8.ofNat n) &&& 0x03) = UInt8.ofNat n ∧
          (((UInt8.ofNat n) >>> 4) <<< 4) ||| ((UInt8.ofNat n) &&& 0x0f) = UInt8.ofNat n ∧
          (((UInt8.ofNat n) >>> 6) <<< 6) ||| ((UInt8.ofNat n) &&& 0x3f) = UInt8.ofNat n := by
  decide +kernel

theorem mixed_bits {x y : UInt8} (hx : x.toNat < 4) (hy : y.toNat < 16) :
    ((x <<< 4) + y).toNat < 64 ∧ ((x <<< 4) + y) >>> 4 = x ∧ ((x <<< 4) + y) &&& 0x0f = y := by
  have h := shifted_bits.1 x.toNat hx y.toNat hy
  rw [UInt8.ofNat_toNat, UInt8.ofNat_toNat] at h
  exact h

theorem mixed_bits' {x y : UInt8} (hx : x.toNat < 16) (hy : y.toNat < 4) :
    ((x <<< 2) + y).toNat < 64 ∧ ((x <<< 2) + y) >>> 2 = x ∧ ((x <<< 2) + y) &&& 0x03 = y := by
  have h := shifted_bits.2.1 x.toNat hx y.toNat hy
  rw [UInt8.ofNat_toNat, UInt8.ofNat_toNat] at h
  exact h

theorem byte_pieces (a : UInt8) :
    ((a >>> 2).toNat < 64 ∧ (a >>> 4).toNat < 16 ∧ (a >>> 6).toNat < 4) ∧
      ((a &&& 0x03).toNat < 4 ∧ (a &&& 0x0f).toNat < 16 ∧ (a &&& 0x3f).toNat < 64) ∧
      ((a >>> 2) <<< 2) ||| (a &&& 0x03) = a ∧ ((a >>> 4) <<< 4) ||| (a &&& 0x0f) = a ∧
      ((a >>> 6) <<< 6) ||| (a &&& 0x3f) = a := by
  have h := shifted_bits.2.2 a.toNat a.toNat_lt
  rw [UInt8.ofNat_toNat] at h
  exact h

theorem loop_first (hr : r.i % 4 = 0) (a y : UInt8) (hy : y.toNat < 16) (cs : List UInt8) :
    base64DecodeLoop t strict
        (base64Table (a >>> 2) :: base64Table (((a &&& 0x03) <<< 4) + y) :: cs) r =
      base64DecodeLoop t strict cs { i := r.i + 2, done := r.done ++ [a], cur := y <<< 4 } := by
  have ⟨⟨h₂, _, _⟩, ⟨h₃, _, _⟩, hjoin, _, _⟩ := byte_pieces a
  have ⟨hlt, hhigh, hlow⟩ := mixed_bits h₃ hy
  rw [base64DecodeLoop_table t strict h₂, base64DecodeLoop_table t strict hlt]
  have hput : (r.put (a >>> 2)).put (((a &&& 0x03) <<< 4) + y) =
      { i := r.i + 2, done := r.done ++ [a], cur := y <<< 4 } := by
    have hi : (r.i + 1) % 4 = 1 := by omega
    simp only [Sextets.put, hr, hi, hhigh, hlow, hjoin]
  rw [hput]

theorem loop_second (hr : r.i % 4 = 2) (b y : UInt8) (hy : y.toNat < 4)
    (hcur : r.cur = (b >>> 4) <<< 4) (cs : List UInt8) :
    base64DecodeLoop t strict (base64Table (((b &&& 0x0f) <<< 2) + y) :: cs) r =
      base64DecodeLoop t strict cs { i := r.i + 1, done := r.done ++ [b], cur := y <<< 6 } := by
  have ⟨_, ⟨_, h₄, _⟩, _, hjoin, _⟩ := byte_pieces b
  have ⟨hlt, hhigh, hlow⟩ := mixed_bits' h₄ hy
  rw [base64DecodeLoop_table t strict hlt]
  have hput : r.put (((b &&& 0x0f) <<< 2) + y) =
      { i := r.i + 1, done := r.done ++ [b], cur := y <<< 6 } := by
    simp only [Sextets.put, hr, hcur, hhigh, hlow, hjoin]
  rw [hput]

theorem loop_third (hr : r.i % 4 = 3) (c : UInt8) (hcur : r.cur = (c >>> 6) <<< 6) (cs : List UInt8)
    :
    base64DecodeLoop t strict (base64Table (c &&& 0x3f) :: cs) r =
      base64DecodeLoop t strict cs { i := r.i + 1, done := r.done ++ [c], cur := 0 } := by
  have ⟨_, ⟨_, _, h₆⟩, _, _, hjoin⟩ := byte_pieces c
  rw [base64DecodeLoop_table t strict h₆]
  have hput : r.put (c &&& 0x3f) = { i := r.i + 1, done := r.done ++ [c], cur := 0 } := by
    simp only [Sextets.put, hr, hcur, hjoin]
  rw [hput]

theorem base64DecodeLoop_encode (s : List UInt8) (r : Sextets) (hr : r.i % 4 = 0) :
    ∃ r', base64DecodeLoop t strict (phpBase64Encode s) r = some (0, r') ∧
      r'.done = r.done ++ s := by
  induction s using phpBase64Encode.induct generalizing r with
  | case1 a b c current ih =>
    have hb := (byte_pieces b).1.2.1
    have hc := (byte_pieces c).1.2.2
    rw [phpBase64Encode, loop_first t strict hr a _ hb,
      loop_second t strict (by show (r.i + 2) % 4 = 2; omega) b _ hc rfl,
      loop_third t strict (by show (r.i + 2 + 1) % 4 = 3; omega) c rfl]
    have ⟨r', hr', hdone⟩ := ih { i := r.i + 2 + 1 + 1, done := r.done ++ [a] ++ [b] ++ [c], cur := 0 }
      (by show (r.i + 2 + 1 + 1) % 4 = 0; omega)
    refine ⟨r', hr', ?_⟩
    rw [hdone]
    simp only [append_assoc, cons_append, nil_append]
  | case2 a b =>
    have hb := (byte_pieces b).1.2.1
    have hzero : ((b &&& 0x0f) <<< 2) = ((b &&& 0x0f) <<< 2) + 0 := (UInt8.add_zero _).symm
    rw [phpBase64Encode, loop_first t strict hr a _ hb, hzero,
      loop_second t strict (by show (r.i + 2) % 4 = 2; omega) b _ (by decide) rfl,
      base64DecodeLoop_end, if_neg (by show (r.i + 2 + 1) % 4 ≠ 1; omega)]
    exact ⟨_, rfl, by simp only [append_assoc, singleton_append]⟩
  | case3 a =>
    have hzero : ((a &&& 0x03) <<< 4) = ((a &&& 0x03) <<< 4) + 0 := (UInt8.add_zero _).symm
    rw [phpBase64Encode, hzero, loop_first t strict hr a _ (by decide), base64DecodeLoop_pad_pad,
      base64DecodeLoop_end, if_neg (by show (r.i + 2) % 4 ≠ 1; omega)]
    exact ⟨_, rfl, rfl⟩
  | case4 => exact ⟨r, rfl, (List.append_nil _).symm⟩

theorem phpBase64DecodeEx_encode (s : List UInt8) :
    phpBase64DecodeEx t (phpBase64Encode s) strict = some s := by
  have ⟨r, hr, hdone⟩ := base64DecodeLoop_encode t strict s Sextets.start rfl
  rw [phpBase64DecodeEx_of_loop t strict hr, hdone]
  rfl

theorem length_phpBase64Encode (s : List UInt8) :
    (phpBase64Encode s).length = (s.length + 2) / 3 * 4 := by
  induction s using phpBase64Encode.induct with
  | case1 a b c current ih =>
    rw [phpBase64Encode]
    simp only [length_cons, ih]
    omega
  | case2 a b => simp [phpBase64Encode]
  | case3 a => simp [phpBase64Encode]
  | case4 => simp [phpBase64Encode]

/-- The length of the text fits an `int` for the strings of at most 1610612733 bytes. -/
theorem base64Decode_encode_iff (hlength : s.length < 2 ^ 31) :
    base64Decode t (phpBase64Encode s) (base64RetLength s) strict = some s ↔
      s.length < 1610612734 := by
  have htext := length_phpBase64Encode s
  unfold base64Decode base64RetLength
  constructor
  · intro hback
    by_contra hlarge
    rw [if_pos (Reasoning.narrow_neg (by omega) (by omega))] at hback
    cases hback
  · intro hfits
    rw [Reasoning.narrow_of_lt (by omega), if_neg (by omega), Int.toNat_natCast, take_length]
    exact phpBase64DecodeEx_encode t strict s

/-- Decoding restores what was encoded in both modes, where the length of the text fits an `int`, and
a strict decoding accepts well-formed text only, unless the decoder ends at a NUL of the text or jumps
over a byte behind the padding. -/
theorem base64_accepts_iff (s : List UInt8) (hlength : s.length < 2 ^ 31) :
    ((∀ strict, base64Decode t (phpBase64Encode s) (base64RetLength s) strict = some s) ∧
        (phpBase64DecodeEx t s true ≠ none → Base64WellFormed t s)) ↔
      s.length < 1610612734 ∧ ¬ (EndsAtNul s ∨ JumpsAByte t s) := by
  constructor
  · intro h
    refine ⟨(base64Decode_encode_iff t true hlength).mp (h.1 true), fun hbad => ?_⟩
    cases hbad with
    | inl hnul => exact endsAtNul_not_wellFormed t hnul (h.2 (endsAtNul_accepted t hnul))
    | inr hjump => exact jumpsAByte_not_wellFormed t hjump (h.2 (jumpsAByte_accepted t hjump))
  · intro ⟨hfits, h⟩
    refine ⟨fun strict => (base64Decode_encode_iff t strict hlength).mpr hfits, fun haccepted => ?_⟩
    exact wellFormed_of_accepted t haccepted (fun hnul => h (Or.inl hnul))
      (fun hjump => h (Or.inr hjump))

/-- `Q UI`, which stands for two bytes. -/
theorem base64_accepts_iff_space :
    (∀ strict, base64Decode Ctype.c (phpBase64Encode [ch 'Q', 32, ch 'U', ch 'I'])
        (base64RetLength [ch 'Q', 32, ch 'U', ch 'I']) strict = some [ch 'Q', 32, ch 'U', ch 'I']) ∧
      (phpBase64DecodeEx Ctype.c [ch 'Q', 32, ch 'U', ch 'I'] true ≠ none →
        Base64WellFormed Ctype.c [ch 'Q', 32, ch 'U', ch 'I']) := by
  refine (base64_accepts_iff Ctype.c _ (by decide)).mpr ⟨by decide, ?_⟩
  rintro (⟨u, z, -, hs⟩ | ⟨u, k, c, w, z, -, -, -, -, -, -, hs⟩)
  · have hnul : (0 : UInt8) ∈ [ch 'Q', 32, ch 'U', ch 'I'] := by
      rw [hs]
      exact mem_append_right _ mem_cons_self
    exact absurd hnul (by decide)
  · have hpad : ch '=' ∈ [ch 'Q', 32, ch 'U', ch 'I'] := by
      rw [hs]
      exact mem_append_right _ (mem_append_left _ mem_cons_self)
    exact absurd hpad (by decide)

/-- `base64_decode("QQ==Q", true)`: the last byte stands behind padding, and nobody looks at it. -/
theorem phpBase64DecodeEx_jumps :
    phpBase64DecodeEx Ctype.c [ch 'Q', ch 'Q', ch '=', ch '=', ch 'Q'] true = some [65] ∧
      ¬ Base64WellFormed Ctype.c [ch 'Q', ch 'Q', ch '=', ch '=', ch 'Q'] := by
  constructor
  · decide +kernel
  · intro h
    have hpair : List.Pairwise (fun b c => b = ch '=' → c ∉ base64Alphabet)
        ([ch 'Q', ch 'Q', ch '='] ++ [ch '=', ch 'Q']) := h.2
    have hacross := (List.pairwise_append.mp hpair).2.2
    exact hacross (ch '=') (by simp) (ch 'Q') (by simp) rfl (by decide)

end Php53.Standard
