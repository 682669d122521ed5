import Php53.Reasoning.Comparison
import Php53.Standard.StripTags

/-!
# NaturalOrder — `strnatcmp_ex`

The function walks through two strings at once, and how it compares two runs of digits depends on
both of them.  It is a comparison nevertheless: each string can be read alone as a list of tokens,
and the lists are compared lexicographically.
-/

namespace Php53.Standard

open Reasoning
open Zend (ch isDigit)
open List

variable {a b : List UInt8} {x y : UInt8}

/-- `toupper` besides `isspace`, as far as every locale agrees. -/
structure NatCtype extends Ctype where
  toupper : UInt8 → UInt8
  isDigit_toupper : ∀ c, isDigit (toupper c) = isDigit c

theorem isDigit_upper (c : UInt8) :
    isDigit (if ch 'a' ≤ c ∧ c ≤ ch 'z' then c - 32 else c) = isDigit c := by
  by_cases h : ch 'a' ≤ c ∧ c ≤ ch 'z'
  · have ha : 97 ≤ c.toNat := UInt8.le_iff_toNat_le.mp h.1
    have hz : c.toNat ≤ 122 := UInt8.le_iff_toNat_le.mp h.2
    have hupper : (c - 32).toNat = c.toNat - 32 := UInt8.toNat_sub_of_le c 32 (by
      rw [UInt8.le_iff_toNat_le]
      exact Nat.le_trans (by decide) ha)
    have hno : ∀ d : UInt8, 57 < d.toNat → isDigit d = false := by
      intro d hd
      rw [isDigit, Bool.and_eq_false_iff]
      right
      rw [decide_eq_false_iff_not, UInt8.le_iff_toNat_le]
      exact Nat.not_le.mpr hd
    rw [if_pos h, hno c (by omega), hno (c - 32) (by omega)]
  · rw [if_neg h]

/-- The "C" locale. -/
def NatCtype.c : NatCtype where
  toCtype := .c
  toupper c := if ch 'a' ≤ c ∧ c ≤ ch 'z' then c - 32 else c
  isDigit_toupper := isDigit_upper

/-- A string has a length that is an `int`. -/
abbrev ZString := { s : List UInt8 // s.length < 2 ^ 31 }

/-- `*ap`; there is a NUL behind the string. -/
def charAt (a : List UInt8) : UInt8 := a.headD 0

/-- `ap != aend && isdigit(*ap)` -/
def startsDigit (a : List UInt8) : Bool := isDigit (charAt a)

/-- `compare_right`: the result, and where the pointers are. -/
def compareRight : ℤ → List UInt8 → List UInt8 → ℤ × List UInt8 × List UInt8
  | bias, x :: a, y :: b =>
    if ¬ isDigit x ∧ ¬ isDigit y then (bias, x :: a, y :: b)
    else if ¬ isDigit x then (-1, x :: a, y :: b)
    else if ¬ isDigit y then (1, x :: a, y :: b)
    else if x < y then compareRight (if bias = 0 then -1 else bias) a b
    else if x > y then compareRight (if bias = 0 then 1 else bias) a b
    else compareRight bias a b
  | bias, a, b =>
    if ¬ startsDigit a ∧ ¬ startsDigit b then (bias, a, b)
    else if ¬ startsDigit a then (-1, a, b)
    else (1, a, b)

def compareLeft : List UInt8 → List UInt8 → ℤ × List UInt8 × List UInt8
  | x :: a, y :: b =>
    if ¬ isDigit x ∧ ¬ isDigit y then (0, x :: a, y :: b)
    else if ¬ isDigit x then (-1, x :: a, y :: b)
    else if ¬ isDigit y then (1, x :: a, y :: b)
    else if x < y then (-1, x :: a, y :: b)
    else if x > y then (1, x :: a, y :: b)
    else compareLeft a b
  | a, b =>
    if ¬ startsDigit a ∧ ¬ startsDigit b then (0, a, b)
    else if ¬ startsDigit a then (-1, a, b)
    else (1, a, b)

/-- `fractional` decides which function compares two runs. -/
def compareDigits (a b : List UInt8) : ℤ × List UInt8 × List UInt8 :=
  if charAt a = ch '0' ∨ charAt b = ch '0' then compareLeft a b else compareRight 0 a b

/-- `while (leading && ca == '0' && (ap+1 < aend) && isdigit(*(ap+1)))` -/
def skipZeros : List UInt8 → List UInt8
  | c :: d :: a => if c = ch '0' ∧ isDigit d then skipZeros (d :: a) else c :: d :: a
  | a => a

namespace NatCtype

variable (t : NatCtype) (foldCase : Bool)

def folded (c : UInt8) : UInt8 := if foldCase then t.toupper c else c

/-- The end of a turn of the loop: `ca` and `cb` are compared; `next` is the next turn. -/
def compareChars (next : List UInt8 → List UInt8 → ℤ) (a b : List UInt8) : ℤ :=
  let ca := t.folded foldCase (charAt a)
  let cb := t.folded foldCase (charAt b)
  if ca < cb then -1
  else if ca > cb then 1
  else if a.tail = [] ∧ b.tail = [] then 0
  else if a.tail = [] then -1
  else if b.tail = [] then 1
  else next a.tail b.tail

def compareRuns (next : List UInt8 → List UInt8 → ℤ) (a b : List UInt8) : ℤ :=
  if startsDigit a ∧ startsDigit b then
    let r := compareDigits a b
    if r.1 ≠ 0 then r.1
    else if r.2.1 = [] ∧ r.2.2 = [] then 0
    else t.compareChars foldCase next r.2.1 r.2.2
  else t.compareChars foldCase next a b

/-- The loop of `strnatcmp_ex`; every turn takes a byte at least of both strings. -/
def natLoop : ℕ → Bool → List UInt8 → List UInt8 → ℤ
  | 0, _, _, _ => 0
  | fuel + 1, leading, a, b =>
    let a := if leading then skipZeros a else a
    let b := if leading then skipZeros b else b
    t.compareRuns foldCase (natLoop fuel false) (a.dropWhile t.isspace) (b.dropWhile t.isspace)

/-- The difference of the lengths is a `size_t` that is returned as an `int`. -/
def strnatcmpEx (a b : List UInt8) : ℤ :=
  if a.length = 0 ∨ b.length = 0 then (BitVec.ofInt 32 (a.length - b.length)).toInt
  else t.natLoop foldCase a.length true a b

end NatCtype

inductive NatToken where
  | char (c : UInt8)
  | run (digits : List UInt8)
  deriving DecidableEq, Repr

namespace NatToken

def place : NatToken → ℕ
  | char c => c.toNat
  | run _ => 48

def size : NatToken → ℕ
  | char _ => 0
  | run digits => if charAt digits = ch '0' then 0 else digits.length

def digits : NatToken → List UInt8
  | char _ => []
  | run digits => digits

def cmp : NatToken → NatToken → Ordering :=
  compareLex (compareOn place) (compareLex (compareOn size) (compareOn digits))

instance : Std.TransCmp cmp :=
  inferInstanceAs (Std.TransCmp
    (compareLex (compareOn place) (compareLex (compareOn size) (compareOn digits))))

end NatToken

theorem length_tail_lt (ha : a ≠ []) (h : b.Sublist a) :
    b.tail.length < a.length := by
  have hle := h.length_le
  have hpos := length_pos_of_ne_nil ha
  rw [length_tail]
  omega

/-- The tokens of a string.  Behind a run the next byte is one, whatever it is, and the NUL is one
where the string ends with a run or with white space. -/
def NatCtype.tokens (t : NatCtype) (foldCase : Bool) (a : List UInt8) : List NatToken :=
  if a = [] then []
  else
    let a' := a.dropWhile t.isspace
    let rest := a'.dropWhile isDigit
    if startsDigit a' then
      .run (a'.takeWhile isDigit) :: .char (t.folded foldCase (charAt rest)) ::
        tokens t foldCase rest.tail
    else .char (t.folded foldCase (charAt a')) :: tokens t foldCase a'.tail
termination_by a.length
decreasing_by
  · exact length_tail_lt ‹_› ((List.dropWhile_sublist _).trans (List.dropWhile_sublist _))
  · exact length_tail_lt ‹_› (List.dropWhile_sublist _)

theorem startsDigit_nil : startsDigit [] = false := by decide

theorem startsDigit_cons (x : UInt8) (a : List UInt8) : startsDigit (x :: a) = isDigit x := rfl

theorem startsDigit_cases (a : List UInt8) :
    (startsDigit a = false ∧ a.takeWhile isDigit = [] ∧ a.dropWhile isDigit = a) ∨
      ∃ x a', a = x :: a' ∧ isDigit x = true := by
  cases a with
  | nil => exact Or.inl ⟨startsDigit_nil, rfl, rfl⟩
  | cons x a =>
    by_cases hx : isDigit x = true
    · exact Or.inr ⟨x, a, rfl, hx⟩
    · left
      rw [startsDigit_cons, takeWhile_cons_of_neg hx, dropWhile_cons_of_neg hx]
      exact ⟨Bool.eq_false_of_not_eq_true hx, rfl, rfl⟩

theorem compareRight_stop (bias : ℤ) (h : startsDigit a = false ∨ startsDigit b = false) :
    compareRight bias a b =
      if ¬ startsDigit a ∧ ¬ startsDigit b then (bias, a, b)
      else if ¬ startsDigit a then (-1, a, b)
      else (1, a, b) := by
  cases a with
  | nil => rw [compareRight]; exact fun x a y b hx => absurd hx.symm (cons_ne_nil x a)
  | cons x a =>
    cases b with
    | nil => rw [compareRight]; exact fun x a y b _ hy => absurd hy.symm (cons_ne_nil y b)
    | cons y b =>
      rw [startsDigit_cons, startsDigit_cons] at h ⊢
      rw [compareRight]
      by_cases hx : isDigit x = true
      · have hy : isDigit y = false := h.resolve_left (by rw [hx]; decide)
        simp [hx, hy]
      · simp [hx]

-- At the end of a run it does not matter any more which function compares.
theorem compareLeft_stop (h : startsDigit a = false ∨ startsDigit b = false) :
    compareLeft a b = compareRight 0 a b := by
  rw [compareRight_stop 0 h]
  cases a with
  | nil => rw [compareLeft]; exact fun x a y b hx => absurd hx.symm (cons_ne_nil x a)
  | cons x a =>
    cases b with
    | nil => rw [compareLeft]; exact fun x a y b _ hy => absurd hy.symm (cons_ne_nil y b)
    | cons y b =>
      rw [startsDigit_cons, startsDigit_cons] at h ⊢
      rw [compareLeft]
      by_cases hx : isDigit x = true
      · have hy : isDigit y = false := h.resolve_left (by rw [hx]; decide)
        simp [hx, hy]
      · simp [hx]

theorem compare_byte_lt (h : x < y) : compare x y = .lt :=
  Std.compare_eq_lt.mpr h

theorem compare_byte_gt (h : x > y) : compare x y = .gt :=
  Std.compare_eq_gt.mpr h

theorem compare_byte_self (x : UInt8) : compare x x = .eq := Std.ReflOrd.compare_self

theorem compare_byte_eq (h : ¬ x < y) (h' : ¬ x > y) : x = y := by
  rw [gt_iff_lt] at h'
  rw [UInt8.lt_iff_toNat_lt] at h h'
  exact UInt8.toNat_inj.mp (by omega)

/-- The result for two runs, where `bias` is the first difference in front of them. -/
def rightResult (bias : ℤ) (da db : List UInt8) : ℤ :=
  if da.length = db.length then if bias ≠ 0 then bias else outcomeSign (compare da db)
  else outcomeSign (compare da.length db.length)

theorem rightResult_cons (bias : ℤ) (x y : UInt8) (da db : List UInt8) :
    rightResult bias (x :: da) (y :: db) =
      rightResult (if bias = 0 then outcomeSign (compare x y) else bias) da db := by
  unfold rightResult
  rw [length_cons, length_cons, List.compare_cons_cons, outcomeSign_then]
  by_cases hlen : da.length = db.length
  · rw [if_pos hlen, if_pos (by omega)]
    by_cases hbias : bias = 0
    · rw [if_pos hbias, if_neg (not_not.mpr hbias)]
    · rw [if_neg hbias, if_pos hbias, if_pos hbias]
  · rw [if_neg hlen, if_neg (by omega)]
    rcases Nat.lt_or_gt_of_ne hlen with h | h
    · rw [outcomeSign_lt h, outcomeSign_lt (Nat.succ_lt_succ h)]
    · rw [outcomeSign_gt h, outcomeSign_gt (Nat.succ_lt_succ h)]

theorem compareRight_stopped (bias : ℤ) (h : startsDigit a = false ∨ startsDigit b = false) :
    (compareRight bias a b).1 = rightResult bias (a.takeWhile isDigit) (b.takeWhile isDigit) ∧
      ((a.takeWhile isDigit).length = (b.takeWhile isDigit).length →
        (compareRight bias a b).2 = (a.dropWhile isDigit, b.dropWhile isDigit)) := by
  rw [compareRight_stop bias h]
  rcases startsDigit_cases a with ⟨ha, hrun, hrest⟩ | ⟨x, a', rfl, hx⟩
  · rcases startsDigit_cases b with ⟨hb, hrun', hrest'⟩ | ⟨y, b', rfl, hy⟩
    · rw [ha, hb, hrun, hrun', hrest, hrest', if_pos (by decide)]
      refine ⟨?_, fun _ => rfl⟩
      unfold rightResult
      by_cases hbias : bias = 0 <;> simp [hbias, outcomeSign]
    · rw [ha, hrun, startsDigit_cons, hy, if_neg (by decide), if_pos (by decide)]
      rw [takeWhile_cons_of_pos hy]
      refine ⟨?_, fun hlen => absurd hlen (by simp)⟩
      unfold rightResult
      rw [if_neg (by simp), outcomeSign_lt (by simp)]
  · have hb : startsDigit b = false := by
      rw [startsDigit_cons, hx] at h
      exact h.resolve_left (by decide)
    rcases startsDigit_cases b with ⟨_, hrun', _⟩ | ⟨y, b', rfl, hy⟩
    · rw [hb, hrun', startsDigit_cons, hx, if_neg (by decide), if_neg (by decide)]
      rw [takeWhile_cons_of_pos hx]
      refine ⟨?_, fun hlen => absurd hlen (by simp)⟩
      unfold rightResult
      rw [if_neg (by simp), outcomeSign_gt (by simp)]
    · rw [startsDigit_cons, hy] at hb
      exact absurd hb (by decide)

theorem compareRight_eq (bias : ℤ) (a b : List UInt8) :
    (compareRight bias a b).1 = rightResult bias (a.takeWhile isDigit) (b.takeWhile isDigit) ∧
      ((a.takeWhile isDigit).length = (b.takeWhile isDigit).length →
        (compareRight bias a b).2 = (a.dropWhile isDigit, b.dropWhile isDigit)) := by
  induction a generalizing bias b with
  | nil => exact compareRight_stopped bias (Or.inl startsDigit_nil)
  | cons x a ih =>
    by_cases hx : isDigit x = true
    · cases b with
      | nil => exact compareRight_stopped bias (Or.inr startsDigit_nil)
      | cons y b =>
        by_cases hy : isDigit y = true
        · rw [takeWhile_cons_of_pos hx, takeWhile_cons_of_pos hy,
            dropWhile_cons_of_pos hx, dropWhile_cons_of_pos hy, rightResult_cons]
          have hstep : compareRight bias (x :: a) (y :: b) =
              compareRight (if bias = 0 then outcomeSign (compare x y) else bias) a b := by
            rw [compareRight, if_neg (fun h => h.1 hx), if_neg (not_not.mpr hx),
              if_neg (not_not.mpr hy)]
            by_cases hlt : x < y
            · rw [if_pos hlt, compare_byte_lt hlt]
              rfl
            · rw [if_neg hlt]
              by_cases hgt : x > y
              · rw [if_pos hgt, compare_byte_gt hgt]
                rfl
              · rw [if_neg hgt, compare_byte_eq hlt hgt, compare_byte_self]
                by_cases hbias : bias = 0
                · rw [if_pos hbias, hbias]
                  rfl
                · rw [if_neg hbias]
          rw [hstep]
          have ⟨h1, h2⟩ := ih (if bias = 0 then outcomeSign (compare x y) else bias) b
          exact ⟨h1, fun hlen => h2 (by rw [length_cons, length_cons] at hlen; omega)⟩
        · exact compareRight_stopped bias (Or.inr (Bool.eq_false_of_not_eq_true hy))
    · exact compareRight_stopped bias (Or.inl (Bool.eq_false_of_not_eq_true hx))

theorem takeWhile_stop (h : startsDigit a = false) : a.takeWhile isDigit = [] := by
  rcases startsDigit_cases a with ⟨_, hrun, _⟩ | ⟨x, a', rfl, hx⟩
  · exact hrun
  · rw [startsDigit_cons, hx] at h
    cases h

theorem rightResult_empty {da db : List UInt8} (h : da = [] ∨ db = []) :
    rightResult 0 da db = outcomeSign (compare da db) := by
  rcases h with rfl | rfl
  · cases db <;> rfl
  · cases da <;> rfl

theorem compareLeft_stopped (h : startsDigit a = false ∨ startsDigit b = false) :
    (compareLeft a b).1 = outcomeSign (compare (a.takeWhile isDigit) (b.takeWhile isDigit)) ∧
      (a.takeWhile isDigit = b.takeWhile isDigit →
        (compareLeft a b).2 = (a.dropWhile isDigit, b.dropWhile isDigit)) := by
  have hempty : a.takeWhile isDigit = [] ∨ b.takeWhile isDigit = [] := h.imp takeWhile_stop takeWhile_stop
  obtain ⟨hresult, hrest⟩ := compareRight_stopped 0 h
  rw [compareLeft_stop h, ← rightResult_empty hempty]
  exact ⟨hresult, fun heq => hrest (congrArg length heq)⟩

theorem compareLeft_eq (a b : List UInt8) :
    (compareLeft a b).1 = outcomeSign (compare (a.takeWhile isDigit) (b.takeWhile isDigit)) ∧
      (a.takeWhile isDigit = b.takeWhile isDigit →
        (compareLeft a b).2 = (a.dropWhile isDigit, b.dropWhile isDigit)) := by
  induction a generalizing b with
  | nil => exact compareLeft_stopped (Or.inl startsDigit_nil)
  | cons x a ih =>
    by_cases hx : isDigit x = true
    · cases b with
      | nil => exact compareLeft_stopped (Or.inr startsDigit_nil)
      | cons y b =>
        by_cases hy : isDigit y = true
        · rw [takeWhile_cons_of_pos hx, takeWhile_cons_of_pos hy,
            dropWhile_cons_of_pos hx, dropWhile_cons_of_pos hy, List.compare_cons_cons,
            compareLeft, if_neg (fun h => h.1 hx), if_neg (not_not.mpr hx), if_neg (not_not.mpr hy)]
          by_cases hlt : x < y
          · rw [if_pos hlt, compare_byte_lt hlt]
            refine ⟨rfl, fun heq => ?_⟩
            rw [(List.cons.inj heq).1] at hlt
            exact absurd hlt (Nat.lt_irrefl _)
          · rw [if_neg hlt]
            by_cases hgt : x > y
            · rw [if_pos hgt, compare_byte_gt hgt]
              refine ⟨rfl, fun heq => ?_⟩
              rw [(List.cons.inj heq).1] at hgt
              exact absurd hgt (Nat.lt_irrefl _)
            · have ⟨h1, h2⟩ := ih b
              rw [if_neg hgt, compare_byte_eq hlt hgt, compare_byte_self]
              exact ⟨h1, fun heq => h2 (List.cons.inj heq).2⟩
        · exact compareLeft_stopped (Or.inr (Bool.eq_false_of_not_eq_true hy))
    · exact compareLeft_stopped (Or.inl (Bool.eq_false_of_not_eq_true hx))

namespace NatCtype

variable {t : NatCtype} {foldCase : Bool}

variable {a b da : List UInt8} {x : UInt8} {next : List UInt8 → List UInt8 → ℤ}

def tokensBehind (t : NatCtype) (foldCase : Bool) (a : List UInt8) : List NatToken :=
  if startsDigit a then
    .run (a.takeWhile isDigit) :: .char (t.folded foldCase (charAt (a.dropWhile isDigit))) ::
      t.tokens foldCase (a.dropWhile isDigit).tail
  else .char (t.folded foldCase (charAt a)) :: t.tokens foldCase a.tail

theorem tokens_nil : t.tokens foldCase [] = [] := by
  rw [tokens, if_pos rfl]

theorem tokens_eq (h : a ≠ []) :
    t.tokens foldCase a = t.tokensBehind foldCase (a.dropWhile t.isspace) := by
  rw [tokens, if_neg h, tokensBehind]

theorem tokensBehind_char (h : startsDigit a = false) :
    t.tokensBehind foldCase a =
      .char (t.folded foldCase (charAt a)) :: t.tokens foldCase a.tail := by
  rw [tokensBehind, h, if_neg (by decide)]

theorem tokensBehind_run (h : isDigit x = true) (a : List UInt8) :
    t.tokensBehind foldCase (x :: a) =
      .run (x :: a.takeWhile isDigit) ::
        .char (t.folded foldCase (charAt (a.dropWhile isDigit))) ::
          t.tokens foldCase (a.dropWhile isDigit).tail := by
  rw [tokensBehind, startsDigit_cons, if_pos h, takeWhile_cons_of_pos h,
    dropWhile_cons_of_pos h]

theorem tokensBehind_ne_nil (a : List UInt8) : t.tokensBehind foldCase a ≠ [] := by
  unfold tokensBehind
  split <;> exact cons_ne_nil _ _

theorem tokens_ne_nil (h : a ≠ []) : t.tokens foldCase a ≠ [] := by
  rw [tokens_eq h]
  exact tokensBehind_ne_nil _

def tokensCompare (a b : List NatToken) : ℤ := outcomeSign (List.compareLex NatToken.cmp a b)

theorem tokensCompare_cons (x y : NatToken) (a b : List NatToken) :
    tokensCompare (x :: a) (y :: b) =
      if outcomeSign (NatToken.cmp x y) ≠ 0 then outcomeSign (NatToken.cmp x y)
      else tokensCompare a b := by
  unfold tokensCompare
  rw [List.compareLex_cons_cons, outcomeSign_then]

theorem tokensCompare_lt {x y : NatToken} {a b : List NatToken} (h : NatToken.cmp x y = .lt) :
    tokensCompare (x :: a) (y :: b) = -1 := by
  rw [tokensCompare_cons, h]
  rfl

theorem tokensCompare_gt {x y : NatToken} {a b : List NatToken} (h : NatToken.cmp x y = .gt) :
    tokensCompare (x :: a) (y :: b) = 1 := by
  rw [tokensCompare_cons, h]
  rfl

theorem cmp_char (c d : UInt8) :
    NatToken.cmp (.char c) (.char d) = compare c.toNat d.toNat := by
  show (compare c.toNat d.toNat).then ((compare 0 0).then (compare ([] : List UInt8) [])) = _
  cases compare c.toNat d.toNat <;> rfl

theorem compareChars_eq (hnext : a.tail ≠ [] → b.tail ≠ [] → next a.tail b.tail =
      tokensCompare (t.tokens foldCase a.tail) (t.tokens foldCase b.tail)) :
    t.compareChars foldCase next a b =
      tokensCompare (.char (t.folded foldCase (charAt a)) :: t.tokens foldCase a.tail)
        (.char (t.folded foldCase (charAt b)) :: t.tokens foldCase b.tail) := by
  unfold compareChars
  rw [tokensCompare_cons, cmp_char]
  dsimp only
  by_cases hlt : t.folded foldCase (charAt a) < t.folded foldCase (charAt b)
  · rw [if_pos hlt, outcomeSign_lt (UInt8.lt_iff_toNat_lt.mp hlt), if_pos (by decide)]
  · rw [if_neg hlt]
    by_cases hgt : t.folded foldCase (charAt a) > t.folded foldCase (charAt b)
    · rw [if_pos hgt, outcomeSign_gt (UInt8.lt_iff_toNat_lt.mp hgt), if_pos (by decide)]
    · rw [if_neg hgt, compare_byte_eq hlt hgt, Nat.compare_eq_eq.mpr rfl]
      rw [if_neg (show ¬ outcomeSign .eq ≠ 0 by decide)]
      -- the characters are the same: the longer string is greater, if one ends here
      by_cases ha : a.tail = []
      · by_cases hb : b.tail = []
        · rw [if_pos ⟨ha, hb⟩, ha, hb, tokens_nil]
          rfl
        · have ⟨y, ys, hys⟩ := exists_cons_of_ne_nil (@tokens_ne_nil t foldCase _ hb)
          rw [if_neg (fun h => hb h.2), if_pos ha, ha, tokens_nil, hys]
          rfl
      · rw [if_neg (fun h => ha h.1), if_neg ha]
        by_cases hb : b.tail = []
        · have ⟨x, xs, hxs⟩ := exists_cons_of_ne_nil (@tokens_ne_nil t foldCase _ ha)
          rw [if_pos hb, hb, tokens_nil, hxs]
          rfl
        · rw [if_neg hb]
          exact hnext ha hb

theorem cmp_run_eq (da db : List UInt8) :
    NatToken.cmp (.run da) (.run db) =
      (compare (NatToken.run da).size (NatToken.run db).size).then (compare da db) := by
  show (compare 48 48).then _ = _
  rw [Nat.compare_eq_eq.mpr rfl]
  rfl

theorem size_run_zero (hx : x = ch '0') :
    (NatToken.run (x :: da)).size = 0 := if_pos hx

theorem size_run (hx : x ≠ ch '0') :
    (NatToken.run (x :: da)).size = da.length + 1 := if_neg hx

theorem zero_lt_digit (h : isDigit x = true) (hx : x ≠ ch '0') : ch '0' < x := by
  have hrange := Zend.isDigit_iff.mp h
  have hne : x.toNat ≠ 48 := fun heq => hx (UInt8.toNat_inj.mp heq)
  rw [UInt8.lt_iff_toNat_lt]
  show 48 < x.toNat
  omega

theorem compareDigits_eq {y : UInt8} (hx : isDigit x = true) (hy : isDigit y = true)
    (a b : List UInt8) :
    (compareDigits (x :: a) (y :: b)).1 =
        outcomeSign (NatToken.cmp (.run (x :: a.takeWhile isDigit))
          (.run (y :: b.takeWhile isDigit))) ∧
      ((compareDigits (x :: a) (y :: b)).1 = 0 →
        (compareDigits (x :: a) (y :: b)).2 = (a.dropWhile isDigit, b.dropWhile isDigit)) := by
  have ⟨hleft, hleftrest⟩ := compareLeft_eq (x :: a) (y :: b)
  have ⟨hright, hrightrest⟩ := compareRight_eq 0 (x :: a) (y :: b)
  rw [takeWhile_cons_of_pos hx, takeWhile_cons_of_pos hy] at hleft hright
  rw [takeWhile_cons_of_pos hx, takeWhile_cons_of_pos hy,
    dropWhile_cons_of_pos hx, dropWhile_cons_of_pos hy] at hleftrest hrightrest
  rw [cmp_run_eq]
  by_cases hx0 : x = ch '0'
  · have hcompare : compareDigits (x :: a) (y :: b) = compareLeft (x :: a) (y :: b) :=
      if_pos (Or.inl hx0)
    rw [hcompare, size_run_zero hx0]
    by_cases hy0 : y = ch '0'
    · rw [size_run_zero hy0, Nat.compare_eq_eq.mpr rfl]
      refine ⟨hleft, fun hzero => hleftrest ?_⟩
      rw [hleft, outcomeSign_eq_zero] at hzero
      exact Std.LawfulEqOrd.eq_of_compare hzero
    · -- a fraction in front of a number
      rw [List.compare_cons_cons, hx0, compare_byte_lt (zero_lt_digit hy hy0)] at hleft
      rw [hx0, hleft, size_run hy0, Nat.compare_eq_lt.mpr (Nat.succ_pos _)]
      exact ⟨rfl, fun hzero => absurd hzero (show ¬ (-1 : ℤ) = 0 by decide)⟩
  · by_cases hy0 : y = ch '0'
    · have hcompare : compareDigits (x :: a) (y :: b) = compareLeft (x :: a) (y :: b) :=
        if_pos (Or.inr hy0)
      rw [List.compare_cons_cons, hy0, compare_byte_gt (zero_lt_digit hx hx0)] at hleft
      rw [hcompare, hy0, hleft, size_run hx0, size_run_zero rfl,
        Nat.compare_eq_gt.mpr (Nat.succ_pos _)]
      exact ⟨rfl, fun hzero => absurd hzero (show ¬ (1 : ℤ) = 0 by decide)⟩
    · have hcompare : compareDigits (x :: a) (y :: b) = compareRight 0 (x :: a) (y :: b) :=
        if_neg (not_or.mpr ⟨hx0, hy0⟩)
      rw [hcompare, size_run hx0, size_run hy0, hright]
      unfold rightResult
      rw [length_cons, length_cons] at hrightrest ⊢
      by_cases hlen : (a.takeWhile isDigit).length + 1 = (b.takeWhile isDigit).length + 1
      · rw [if_pos hlen, if_neg (show ¬ (0 : ℤ) ≠ 0 by decide), hlen, Nat.compare_eq_eq.mpr rfl]
        exact ⟨rfl, fun _ => hrightrest hlen⟩
      · rw [if_neg hlen, outcomeSign_then]
        rcases Nat.lt_or_gt_of_ne hlen with h | h
        · rw [outcomeSign_lt h, if_pos (by decide)]
          exact ⟨rfl, fun hzero => absurd hzero (by decide)⟩
        · rw [outcomeSign_gt h, if_pos (by decide)]
          exact ⟨rfl, fun hzero => absurd hzero (by decide)⟩

theorem compareChars_lt (h : t.folded foldCase (charAt a) < t.folded foldCase (charAt b)) :
    t.compareChars foldCase next a b = -1 := if_pos h

theorem compareChars_gt (h : t.folded foldCase (charAt b) < t.folded foldCase (charAt a)) :
    t.compareChars foldCase next a b = 1 := by
  unfold compareChars
  rw [UInt8.lt_iff_toNat_lt] at h
  dsimp only
  rw [if_neg (by rw [UInt8.lt_iff_toNat_lt]; omega),
    if_pos (by rw [gt_iff_lt, UInt8.lt_iff_toNat_lt]; exact h)]

theorem compareRuns_chars (h : startsDigit a = false ∨ startsDigit b = false) :
    t.compareRuns foldCase next a b = t.compareChars foldCase next a b := by
  unfold compareRuns
  rw [if_neg]
  rcases h with h | h <;> rw [h]
  · exact fun hboth => absurd hboth.1 (by decide)
  · exact fun hboth => absurd hboth.2 (by decide)

theorem isDigit_folded (c : UInt8) : isDigit (t.folded foldCase c) = isDigit c := by
  unfold folded
  split
  · exact t.isDigit_toupper c
  · rfl

theorem run_or_char {d c : UInt8} (hd : isDigit d = true) (hc : isDigit c = false) :
    (d < c ∧ NatToken.cmp (.run da) (.char c) = .lt) ∨
      (c < d ∧ NatToken.cmp (.run da) (.char c) = .gt) := by
  have hrange := Zend.isDigit_iff.mp hd
  have hout : ¬ (48 ≤ c.toNat ∧ c.toNat ≤ 57) := fun h => by
    rw [Zend.isDigit_iff.mpr h] at hc
    exact absurd hc (by decide)
  rw [UInt8.lt_iff_toNat_lt, UInt8.lt_iff_toNat_lt]
  by_cases hlow : c.toNat < 48
  · right
    refine ⟨by omega, ?_⟩
    show (compare 48 c.toNat).then _ = _
    rw [Nat.compare_eq_gt.mpr hlow]
    rfl
  · left
    refine ⟨by omega, ?_⟩
    show (compare 48 c.toNat).then _ = _
    rw [Nat.compare_eq_lt.mpr (by omega)]
    rfl

theorem compareRuns_eq (hnext : ∀ a' b' : List UInt8, a'.length < a.length → a' ≠ [] → b' ≠ [] →
      next a' b' = tokensCompare (t.tokens foldCase a') (t.tokens foldCase b')) :
    t.compareRuns foldCase next a b =
      tokensCompare (t.tokensBehind foldCase a) (t.tokensBehind foldCase b) := by
  have htail : a.tail ≠ [] → b.tail ≠ [] → next a.tail b.tail =
      tokensCompare (t.tokens foldCase a.tail) (t.tokens foldCase b.tail) := by
    intro ha hb
    apply hnext _ _ _ ha hb
    have hpos := length_pos_of_ne_nil ha
    rw [length_tail] at hpos ⊢
    omega
  rcases startsDigit_cases a with ⟨ha, _, _⟩ | ⟨x, a', rfl, hx⟩
  · rcases startsDigit_cases b with ⟨hb, _, _⟩ | ⟨y, b', rfl, hy⟩
    · rw [compareRuns_chars (Or.inl ha), tokensBehind_char ha, tokensBehind_char hb]
      exact compareChars_eq htail
    · rw [compareRuns_chars (Or.inl ha), tokensBehind_char ha, tokensBehind_run hy]
      have hca : isDigit (t.folded foldCase (charAt a)) = false := by rw [isDigit_folded, ← ha]; rfl
      have hcb : isDigit (t.folded foldCase y) = true := by rw [isDigit_folded, hy]
      rcases run_or_char hcb hca with ⟨hlt, hcmp⟩ | ⟨hgt, hcmp⟩
      · rw [tokensCompare_gt (Std.OrientedCmp.gt_of_lt hcmp)]
        exact compareChars_gt hlt
      · rw [tokensCompare_lt (Std.OrientedCmp.lt_of_gt hcmp)]
        exact compareChars_lt hgt
  · rcases startsDigit_cases b with ⟨hb, _, _⟩ | ⟨y, b', rfl, hy⟩
    · rw [compareRuns_chars (Or.inr hb), tokensBehind_char hb, tokensBehind_run hx]
      have hca : isDigit (t.folded foldCase x) = true := by rw [isDigit_folded, hx]
      have hcb : isDigit (t.folded foldCase (charAt b)) = false := by rw [isDigit_folded, ← hb]; rfl
      rcases run_or_char hca hcb with ⟨hlt, hcmp⟩ | ⟨hgt, hcmp⟩
      · rw [tokensCompare_lt hcmp]
        exact compareChars_lt hlt
      · rw [tokensCompare_gt hcmp]
        exact compareChars_gt hgt
    · have ⟨hsign, hrest⟩ := compareDigits_eq hx hy a' b'
      have hcond : startsDigit (x :: a') = true ∧ startsDigit (y :: b') = true := ⟨hx, hy⟩
      unfold compareRuns
      rw [if_pos hcond, tokensBehind_run hx, tokensBehind_run hy, tokensCompare_cons, ← hsign]
      dsimp only
      by_cases hzero : (compareDigits (x :: a') (y :: b')).1 = 0
      · rw [if_neg (not_not.mpr hzero), if_neg (not_not.mpr hzero), hrest hzero]
        dsimp only
        by_cases hend : a'.dropWhile isDigit = [] ∧ b'.dropWhile isDigit = []
        · rw [if_pos hend, hend.1, hend.2]
          show 0 = tokensCompare (.char (t.folded foldCase 0) :: t.tokens foldCase [])
            (.char (t.folded foldCase 0) :: t.tokens foldCase [])
          rw [tokensCompare_cons, cmp_char, Nat.compare_eq_eq.mpr rfl, tokens_nil]
          rfl
        · rw [if_neg hend]
          apply compareChars_eq
          intro ha hb
          apply hnext _ _ _ ha hb
          have hle : (a'.dropWhile isDigit).length ≤ a'.length :=
            (dropWhile_sublist _).length_le
          rw [length_tail, length_cons]
          omega
      · rw [if_pos hzero, if_pos hzero]

theorem natLoop_eq {fuel : ℕ} (ha : a ≠ []) (hb : b ≠ []) (hfuel : a.length ≤ fuel) :
    t.natLoop foldCase fuel false a b =
      tokensCompare (t.tokens foldCase a) (t.tokens foldCase b) := by
  induction fuel generalizing a b with
  | zero => exact absurd (length_pos_of_ne_nil ha) (by omega)
  | succ fuel ih =>
    rw [tokens_eq ha, tokens_eq hb]
    show t.compareRuns foldCase (t.natLoop foldCase fuel false) (a.dropWhile t.isspace)
      (b.dropWhile t.isspace) = _
    apply compareRuns_eq
    intro a' b' hlen ha' hb'
    have hle : (a.dropWhile t.isspace).length ≤ a.length := (dropWhile_sublist _).length_le
    exact ih ha' hb' (by omega)

def natKey (t : NatCtype) (foldCase : Bool) (a : List UInt8) : List NatToken :=
  t.tokens foldCase (skipZeros a)

theorem skipZeros_ne_nil (h : a ≠ []) : skipZeros a ≠ [] := by
  fun_induction skipZeros a with
  | case1 c d a hzero ih => exact ih (cons_ne_nil d a)
  | case2 c d a hzero => exact h
  | case3 a hshort => exact h

theorem skipZeros_sublist (a : List UInt8) : (skipZeros a).Sublist a := by
  fun_induction skipZeros a with
  | case1 c d a hzero ih => exact ih.cons c
  | case2 c d a hzero => exact List.Sublist.refl _
  | case3 a hshort => exact List.Sublist.refl _

theorem natLoop_leading {fuel : ℕ} (hfuel : 0 < fuel) :
    t.natLoop foldCase fuel true a b =
      t.natLoop foldCase fuel false (skipZeros a) (skipZeros b) := by
  cases fuel with
  | zero => exact absurd hfuel (Nat.lt_irrefl 0)
  | succ fuel => rfl

theorem strnatcmpEx_eq (a b : ZString) :
    (t.strnatcmpEx foldCase a.1 b.1).sign =
      tokensCompare (t.natKey foldCase a.1) (t.natKey foldCase b.1) := by
  cases a with | mk a ha =>
  cases b with | mk b hb =>
  show (t.strnatcmpEx foldCase a b).sign =
    tokensCompare (t.tokens foldCase (skipZeros a)) (t.tokens foldCase (skipZeros b))
  unfold strnatcmpEx
  by_cases hempty : a.length = 0 ∨ b.length = 0
  · rw [if_pos hempty, BitVec.toInt_ofInt, Int.bmod_eq_of_le (by omega) (by omega)]
    by_cases ha0 : a = []
    · rw [ha0, show skipZeros [] = [] by rfl, tokens_nil]
      by_cases hb0 : b = []
      · rw [hb0]
        rw [show skipZeros [] = [] by rfl, tokens_nil]
        rfl
      · have hpos := length_pos_of_ne_nil hb0
        have ⟨y, ys, hys⟩ := exists_cons_of_ne_nil
          (@tokens_ne_nil t foldCase _ (skipZeros_ne_nil hb0))
        rw [hys]
        exact Int.sign_eq_neg_one_of_neg (show (0 : ℤ) - b.length < 0 by omega)
    · have hb0 : b = [] := eq_nil_of_length_eq_zero
        (hempty.resolve_left fun h => ha0 (eq_nil_of_length_eq_zero h))
      have hpos := length_pos_of_ne_nil ha0
      have ⟨x, xs, hxs⟩ := exists_cons_of_ne_nil
        (@tokens_ne_nil t foldCase _ (skipZeros_ne_nil ha0))
      rw [hb0, show skipZeros [] = [] by rfl, tokens_nil, hxs]
      exact Int.sign_eq_one_of_pos (show 0 < (a.length : ℤ) - 0 by omega)
  · have ha0 : a ≠ [] := fun h => hempty (Or.inl (by rw [h]; rfl))
    have hb0 : b ≠ [] := fun h => hempty (Or.inr (by rw [h]; rfl))
    rw [if_neg hempty, natLoop_leading (length_pos_of_ne_nil ha0),
      natLoop_eq (skipZeros_ne_nil ha0) (skipZeros_ne_nil hb0) (skipZeros_sublist a).length_le]
    exact sign_outcomeSign _

end NatCtype

/-- For every locale and either case of `fold_case`. -/
theorem strnatcmp_is_comparison (t : NatCtype) (foldCase : Bool) :
    Comparison fun a b : ZString => t.strnatcmpEx foldCase a.1 b.1 :=
  Comparison.of_key (List.compareLex NatToken.cmp) (fun a => t.natKey foldCase a.1)
    fun a b => NatCtype.strnatcmpEx_eq a b

/-- `x10` is behind `x2`, which is behind `x010`. -/
theorem strnatcmp_is_comparison_numbers :
    (NatCtype.c.strnatcmpEx false [120, 49, 48] [120, 50]).sign = 1 ∧
      NatCtype.c.strnatcmpEx false [120, 48, 49, 48] [120, 49, 48] ≤ 0 := by
  have hcmp := strnatcmp_is_comparison .c false
  have hbehind := hcmp.opposite ⟨[120, 49, 48], by decide⟩ ⟨[120, 50], by decide⟩
  have hbetween := hcmp.trans ⟨[120, 48, 49, 48], by decide⟩ ⟨[120, 50], by decide⟩
    ⟨[120, 49, 48], by decide⟩ (by decide +kernel) (by decide +kernel)
  refine ⟨hbehind.trans ?_, hbetween⟩
  decide +kernel

end Php53.Standard
