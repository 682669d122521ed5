import Mathlib.Data.Bool.AllAny
import Mathlib.Data.List.TakeWhile
import Php53.Reasoning.Narrow
import Php53.Zend.Decimal

/-!
# CSlashes — `php_addcslashes` and `php_stripcslashes`

Strings are lists of bytes.  `php_addcslashes` cuts the new length to an `int`; `php_stripcslashes`
keeps it by hand, apart from the bytes that it writes, and so does the model.
-/

namespace Php53.Standard

open Zend (ch)
open Reasoning

/-- `php_charmask`: the flags and whether there was no range error. -/
def phpCharmask : List UInt8 → (UInt8 → Bool) × Bool
  | c :: 0x2e :: 0x2e :: d :: input =>
    if c ≤ d then
      let (mask, ok) := phpCharmask input
      (fun b => decide (c ≤ b ∧ b ≤ d) || mask b, ok)
    else
      -- not a range, so `c` stands for itself unless it is the first dot of `..`
      let (mask, ok) := phpCharmask (0x2e :: 0x2e :: d :: input)
      if c = 0x2e then (mask, false) else (fun b => b == c || mask b, ok)
  | 0x2e :: 0x2e :: input =>
    ((phpCharmask (0x2e :: input)).1, false)
  | c :: input =>
    let (mask, ok) := phpCharmask input
    (fun b => b == c || mask b, ok)
  | [] => (fun _ => false, true)

/-- `sprintf(target, "%03o", c)` -/
def octal3 (c : UInt8) : List UInt8 :=
  [UInt8.ofNat (48 + c.toNat / 64), UInt8.ofNat (48 + c.toNat / 8 % 8),
    UInt8.ofNat (48 + c.toNat % 8)]

/-- What is written behind the backslash for a byte that is not printable. -/
def controlEscape (c : UInt8) : List UInt8 :=
  if c = 10 then [ch 'n']
  else if c = 9 then [ch 't']
  else if c = 13 then [ch 'r']
  else if c = 7 then [ch 'a']
  else if c = 11 then [ch 'v']
  else if c = 8 then [ch 'b']
  else if c = 12 then [ch 'f']
  else octal3 c

/-- The body of the loop of `php_addcslashes`. -/
def addEscape (flags : UInt8 → Bool) (c : UInt8) : List UInt8 :=
  if flags c then
    if c < 32 ∨ 126 < c then ch '\\' :: controlEscape c else [ch '\\', c]
  else [c]

/-- The bytes that are written, and `*new_length`.  The block is made shorter only where fewer bytes
than an `int`, `length * 4`, are written. -/
def phpAddcslashes (str what : List UInt8) : List UInt8 × Int :=
  let newStr := str.flatMap (addEscape (phpCharmask what).1)
  (newStr, (newStr.length : Int).bmod (2 ^ 32))

def isOctalDigit (c : UInt8) : Bool := ch '0' ≤ c && c ≤ ch '7'

/-- The value of a digit for `strtol`. -/
def xdigitValue (c : UInt8) : Option Nat :=
  if ch '0' ≤ c ∧ c ≤ ch '9' then some (c.toNat - 48)
  else if ch 'a' ≤ c ∧ c ≤ ch 'f' then some (c.toNat - 87)
  else if ch 'A' ≤ c ∧ c ≤ ch 'F' then some (c.toNat - 55)
  else none

/-- `(char) strtol(numtmp, NULL, 8)` -/
def octalValue (digits : List UInt8) : UInt8 :=
  UInt8.ofNat (digits.foldl (fun n c => 8 * n + (c.toNat - 48)) 0)

/-- What an escape stands for, the source behind it and by how much it makes the text shorter. -/
structure CEscape where
  byte : UInt8
  rest : List UInt8
  shorter : Nat

/-- The `default` of the `switch`: up to three octal digits, or the byte itself. -/
def otherEscape (c : UInt8) (source : List UInt8) : CEscape :=
  let numtmp := ((c :: source).takeWhile isOctalDigit).take 3
  if numtmp.length ≠ 0 then
    { byte := octalValue numtmp
      rest := (c :: source).drop numtmp.length
      shorter := numtmp.length }
  else { byte := c, rest := source, shorter := 1 }

def hexEscape (c : UInt8) (source : List UInt8) : CEscape :=
  match source with
  | [] => otherEscape c source
  | d :: source' =>
    match xdigitValue d, (source'.head?.bind xdigitValue) with
    | some hi, some lo =>
      { byte := UInt8.ofNat (16 * hi + lo), rest := source'.tail, shorter := 3 }
    | some n, none => { byte := UInt8.ofNat n, rest := source', shorter := 2 }
    | none, _ => otherEscape c source

/-- The `switch` on the byte behind a backslash. -/
def cEscape (c : UInt8) (source : List UInt8) : CEscape :=
  if c = ch 'n' then ⟨10, source, 1⟩
  else if c = ch 'r' then ⟨13, source, 1⟩
  else if c = ch 'a' then ⟨7, source, 1⟩
  else if c = ch 't' then ⟨9, source, 1⟩
  else if c = ch 'v' then ⟨11, source, 1⟩
  else if c = ch 'b' then ⟨8, source, 1⟩
  else if c = ch 'f' then ⟨12, source, 1⟩
  else if c = ch '\\' then ⟨ch '\\', source, 1⟩
  else if c = ch 'x' then hexEscape c source
  else otherEscape c source

/-- The loop: what is written to `target`, and `nlen`.  Each step takes a byte of the source at
least, so `fuel` is the length of the source. -/
def stripLoop : Nat → List UInt8 → Int → List UInt8 × Int
  | 0, _, nlen => ([], nlen)
  | _, [], nlen => ([], nlen)
  | fuel + 1, 0x5c :: c :: source, nlen =>
    let e := cEscape c source
    let (target, nlen) := stripLoop fuel e.rest (nlen - e.shorter)
    (e.byte :: target, nlen)
  | fuel + 1, c :: source, nlen =>
    let (target, nlen) := stripLoop fuel source nlen
    (c :: target, nlen)

example (source : List UInt8) : stripLoop 0 source 0 = ([], 0) := by rw [stripLoop]

/-- `php_stripcslashes`: the bytes written and the new length. -/
def phpStripcslashes (str : List UInt8) (len : Int) : List UInt8 × Int :=
  stripLoop (str.take len.toNat).length (str.take len.toNat) len

def escapeLetters : List UInt8 :=
  [48, 49, 50, 51, 52, 53, 54, 55, ch 'a', ch 'b', ch 'f', ch 'n', ch 'r', ch 't', ch 'v', ch 'x']

theorem octal3_digits (c : UInt8) : ∀ d ∈ octal3 c, isOctalDigit d = true := by
  have hc := c.toNat_lt
  intro d hd
  have hval : ∃ n, n < 8 ∧ d = UInt8.ofNat (48 + n) := by
    simp only [octal3, List.mem_cons, List.not_mem_nil, or_false] at hd
    rcases hd with rfl | rfl | rfl
    · exact ⟨c.toNat / 64, by omega, rfl⟩
    · exact ⟨c.toNat / 8 % 8, by omega, rfl⟩
    · exact ⟨c.toNat % 8, by omega, rfl⟩
  obtain ⟨n, hn, rfl⟩ := hval
  have htable : ∀ n < 8, isOctalDigit (UInt8.ofNat (48 + n)) = true := by decide
  exact htable n hn

theorem octalValue_octal3 (c : UInt8) : octalValue (octal3 c) = c := by
  have hc := c.toNat_lt
  have hdigit : ∀ n < 8, (UInt8.ofNat (48 + n)).toNat - 48 = n := by decide
  have hsum : 8 * (8 * (8 * 0 + c.toNat / 64) + c.toNat / 8 % 8) + c.toNat % 8 = c.toNat := by
    omega
  simp only [octalValue, octal3, List.foldl_cons, List.foldl_nil]
  rw [hdigit _ (by omega), hdigit _ (by omega), hdigit _ (by omega), hsum]
  exact UInt8.ofNat_toNat

theorem otherEscape_octal3 (c d₁ d₂ d₃ : UInt8) (source : List UInt8)
    (h : octal3 c = [d₁, d₂, d₃]) :
    otherEscape d₁ (d₂ :: d₃ :: source) = ⟨c, source, 3⟩ := by
  have hdigits := octal3_digits c
  rw [h] at hdigits
  have h₁ := hdigits d₁ (by simp)
  have h₂ := hdigits d₂ (by simp)
  have h₃ := hdigits d₃ (by simp)
  have htake : ((d₁ :: d₂ :: d₃ :: source).takeWhile isOctalDigit).take 3 = [d₁, d₂, d₃] := by
    simp [h₁, h₂, h₃]
  unfold otherEscape
  simp only [htake]
  rw [← h, octalValue_octal3]
  simp [h]

variable {c : UInt8}

theorem cEscape_of_octalDigit (h : isOctalDigit c = true) (source : List UInt8) :
    cEscape c source = otherEscape c source := by
  have hne : ∀ d : UInt8, isOctalDigit d = false → c ≠ d := by
    rintro d hd rfl
    simp [h] at hd
  unfold cEscape
  rw [if_neg (hne _ (by decide)), if_neg (hne _ (by decide)), if_neg (hne _ (by decide)),
    if_neg (hne _ (by decide)), if_neg (hne _ (by decide)), if_neg (hne _ (by decide)),
    if_neg (hne _ (by decide)), if_neg (hne _ (by decide)), if_neg (hne _ (by decide))]

theorem stripLoop_controlEscape (c : UInt8) (t : List UInt8) (fuel : Nat) (nlen : Int) :
    stripLoop (fuel + 1) (ch '\\' :: controlEscape c ++ t) nlen =
      ((c :: (stripLoop fuel t (nlen - (controlEscape c).length)).1),
        (stripLoop fuel t (nlen - (controlEscape c).length)).2) := by
  unfold controlEscape
  iterate 7
    split
    · subst c
      rfl
  -- the seven letters are gone, the rest is octal
  obtain ⟨d₁, d₂, d₃, hd⟩ : ∃ d₁ d₂ d₃, octal3 c = [d₁, d₂, d₃] := ⟨_, _, _, rfl⟩
  have hd₁ : isOctalDigit d₁ = true := octal3_digits c d₁ (by simp [hd])
  have he : cEscape d₁ (d₂ :: d₃ :: t) = ⟨c, t, 3⟩ := by
    rw [cEscape_of_octalDigit hd₁, otherEscape_octal3 c d₁ d₂ d₃ t hd]
  rw [hd]
  show stripLoop (fuel + 1) (0x5c :: d₁ :: d₂ :: d₃ :: t) nlen = _
  simp only [stripLoop, he]
  rfl

theorem cEscape_self (h : c ∉ escapeLetters) (source : List UInt8) :
    cEscape c source = ⟨c, source, 1⟩ := by
  have hne : ∀ d ∈ escapeLetters, c ≠ d := fun d hd he => h (he ▸ hd)
  have hoct : isOctalDigit c = false := by
    by_contra hd
    have hd : isOctalDigit c = true := by simpa using hd
    have htable : ∀ n < 256, isOctalDigit (UInt8.ofNat n) = true →
        UInt8.ofNat n ∈ escapeLetters := by decide +kernel
    have hmem := htable c.toNat c.toNat_lt
    rw [UInt8.ofNat_toNat] at hmem
    exact h (hmem hd)
  have hother : otherEscape c source = ⟨c, source, 1⟩ := by
    unfold otherEscape
    simp [hoct]
  unfold cEscape
  rw [if_neg (hne _ (by decide)), if_neg (hne _ (by decide)), if_neg (hne _ (by decide)),
    if_neg (hne _ (by decide)), if_neg (hne _ (by decide)), if_neg (hne _ (by decide)),
    if_neg (hne _ (by decide)), if_neg (hne (ch 'x') (by decide)), hother]
  split
  · rename_i hc
    rw [hc]
  · rfl

theorem stripLoop_plain (h : c ≠ 0x5c) (t : List UInt8) (fuel : Nat) (nlen : Int) :
    stripLoop (fuel + 1) (c :: t) nlen =
      ((c :: (stripLoop fuel t nlen).1), (stripLoop fuel t nlen).2) := by
  rw [stripLoop]
  intro d source hd _
  exact h hd

variable {flags : UInt8 → Bool}

theorem stripLoop_addEscape (hslash : flags (ch '\\') = true)
    (hletters : ∀ c ∈ escapeLetters, flags c = false) (c : UInt8) (t : List UInt8) (fuel : Nat)
    (nlen : Int) :
    stripLoop (fuel + 1) (addEscape flags c ++ t) nlen =
      ((c :: (stripLoop fuel t (nlen + 1 - (addEscape flags c).length)).1),
        (stripLoop fuel t (nlen + 1 - (addEscape flags c).length)).2) := by
  unfold addEscape
  split_ifs with hflag hctrl
  · rw [stripLoop_controlEscape]
    have hlen : nlen + 1 - ((ch '\\' :: controlEscape c).length : Int) =
        nlen - ((controlEscape c).length : Int) := by
      rw [List.length_cons]
      omega
    rw [hlen]
  · have hc : c ∉ escapeLetters := fun hmem => by
      rw [hletters c hmem] at hflag
      exact nomatch hflag
    show stripLoop (fuel + 1) (0x5c :: c :: t) nlen = _
    have hlen : nlen + 1 - (([ch '\\', c] : List UInt8).length : Int) = nlen - 1 := by
      show nlen + 1 - 2 = nlen - 1
      omega
    rw [hlen]
    simp only [stripLoop, cEscape_self hc]
    rfl
  · have hne : c ≠ 0x5c := by
      rintro rfl
      exact hflag hslash
    have hlen : nlen + 1 - (([c] : List UInt8).length : Int) = nlen := by
      show nlen + 1 - 1 = nlen
      omega
    rw [hlen, List.singleton_append, stripLoop_plain hne]

theorem addEscape_length_pos (flags : UInt8 → Bool) (c : UInt8) :
    0 < (addEscape flags c).length := by
  unfold addEscape
  split_ifs
  · exact Nat.succ_pos _
  · exact Nat.succ_pos _
  · exact Nat.succ_pos _

theorem stripLoop_addcslashes (hslash : flags (ch '\\') = true)
    (hletters : ∀ c ∈ escapeLetters, flags c = false) (str : List UInt8) :
    ∀ (fuel : Nat) (nlen : Int), (str.flatMap (addEscape flags)).length ≤ fuel →
      stripLoop fuel (str.flatMap (addEscape flags)) nlen =
        (str, nlen + str.length - (str.flatMap (addEscape flags)).length) := by
  -- the induction is on the string; what one byte becomes is taken by one step of the decoder
  induction str with
  | nil =>
    intro fuel nlen _
    cases fuel <;> simp [stripLoop]
  | cons c str ih =>
    intro fuel nlen hfuel
    have hpos := addEscape_length_pos flags c
    rw [List.flatMap_cons] at hfuel ⊢
    rw [List.length_append] at hfuel ⊢
    cases fuel with
    | zero => omega
    | succ fuel =>
      rw [stripLoop_addEscape hslash hletters, ih fuel _ (by omega)]
      have hlen : nlen + 1 - ((addEscape flags c).length : Int) + str.length -
            (str.flatMap (addEscape flags)).length =
          nlen + (c :: str).length -
            ((addEscape flags c).length + (str.flatMap (addEscape flags)).length : Nat) := by
        rw [List.length_cons]
        omega
      rw [hlen]

/-- A byte that is written in three octal digits where the mask has it. -/
def needsOctal (c : UInt8) : Bool := c < 7 || 13 < c && c < 32 || 126 < c

/-- How long the text becomes. -/
def escapedLength (flags : UInt8 → Bool) (str : List UInt8) : Nat :=
  str.length + str.countP flags + 2 * str.countP fun c => flags c && needsOctal c

theorem length_addEscape (flags : UInt8 → Bool) (c : UInt8) :
    (addEscape flags c).length =
      1 + (if flags c then 1 else 0) + 2 * if flags c && needsOctal c then 1 else 0 := by
  have htable : ∀ n < 256, (if UInt8.ofNat n < 32 ∨ 126 < UInt8.ofNat n then
        ch '\\' :: controlEscape (.ofNat n) else [ch '\\', .ofNat n]).length =
      2 + 2 * if needsOctal (.ofNat n) then 1 else 0 := by decide +kernel
  have hc := htable c.toNat c.toNat_lt
  rw [UInt8.ofNat_toNat] at hc
  unfold addEscape
  cases flags c with
  | true => exact hc
  | false => rfl

theorem length_flatMap_addEscape (flags : UInt8 → Bool) (str : List UInt8) :
    (str.flatMap (addEscape flags)).length = escapedLength flags str := by
  unfold escapedLength
  induction str with
  | nil => rfl
  | cons c str ih =>
    rw [List.flatMap_cons, List.length_append, ih, length_addEscape, List.countP_cons,
      List.countP_cons, List.length_cons]
    omega

theorem escapedLength_le (flags : UInt8 → Bool) (str : List UInt8) :
    escapedLength flags str ≤ 4 * str.length := by
  have hall := List.countP_le_length (p := flags) (l := str)
  have hoctal := List.countP_le_length (p := fun c => flags c && needsOctal c) (l := str)
  unfold escapedLength
  omega

theorem length_cEscape_rest (c : UInt8) (source : List UInt8) :
    (cEscape c source).rest.length ≤ source.length := by
  have hother : (otherEscape c source).rest.length ≤ source.length := by
    unfold otherEscape
    dsimp only
    split
    · rw [List.length_drop, List.length_cons]
      omega
    · exact Nat.le_refl _
  have hplain {p : Prop} [Decidable p] (b : UInt8) {e : CEscape} (he : e.rest.length ≤ source.length) :
      (if p then ⟨b, source, 1⟩ else e).rest.length ≤ source.length := by
    split
    · exact Nat.le_refl _
    · exact he
  unfold cEscape
  iterate 8 refine hplain _ ?_
  split
  · unfold hexEscape
    split
    · exact hother
    · split
      · rw [List.length_cons, List.length_tail]
        omega
      · exact Nat.le_succ _
      · exact hother
  · exact hother

theorem length_stripLoop_le (fuel : Nat) (source : List UInt8) (nlen : Int) :
    (stripLoop fuel source nlen).1.length ≤ source.length := by
  fun_induction stripLoop fuel source nlen with
  | case1 => exact Nat.zero_le _
  | case2 => exact Nat.zero_le _
  | case3 fuel c source nlen e target nlen' hstrip ih =>
    rw [hstrip] at ih
    have hrest := length_cEscape_rest c source
    simp only [List.length_cons] at ih ⊢
    exact Nat.succ_le_succ (Nat.le_succ_of_le (Nat.le_trans ih hrest))
  | case4 fuel c source nlen _ target nlen' hstrip ih =>
    rw [hstrip] at ih
    exact Nat.succ_le_succ ih

/-- Of a text that is cut short, what is left out is missing, up to one escape. -/
theorem length_stripLoop_take (hslash : flags (ch '\\') = true)
    (hletters : ∀ c ∈ escapeLetters, flags c = false) (str : List UInt8) :
    ∀ (fuel m : Nat) (nlen : Int), m ≤ fuel →
      4 * (stripLoop fuel ((str.flatMap (addEscape flags)).take m) nlen).1.length +
          (str.flatMap (addEscape flags)).length ≤ 4 * str.length + m + 12 := by
  induction str with
  | nil =>
    intro fuel m nlen _
    have hle := length_stripLoop_le fuel ([] : List UInt8) nlen
    rw [List.length_nil] at hle
    rw [List.flatMap_nil, List.take_nil, List.length_nil]
    omega
  | cons c str ih =>
    intro fuel m nlen hfuel
    have hpos := addEscape_length_pos flags c
    have hwhole := length_flatMap_addEscape flags (c :: str)
    have hle := escapedLength_le flags (c :: str)
    rw [List.flatMap_cons, List.length_cons] at *
    by_cases hm : (addEscape flags c).length ≤ m
    · obtain ⟨fuel, rfl⟩ : ∃ k, fuel = k + 1 := ⟨fuel - 1, by omega⟩
      rw [List.take_append, List.take_of_length_le hm, stripLoop_addEscape hslash hletters]
      have hrest := ih fuel (m - (addEscape flags c).length)
        (nlen + 1 - (addEscape flags c).length) (by omega)
      rw [List.length_append, List.length_cons]
      omega
    · have hshort := length_stripLoop_le fuel
        ((addEscape flags c ++ str.flatMap (addEscape flags)).take m) nlen
      rw [List.length_take] at hshort
      have hfour : (addEscape flags c).length ≤ 4 := by
        rw [length_addEscape]
        split <;> split <;> decide
      omega

theorem roundTrip_iff {str what : List UInt8} (hslash : (phpCharmask what).1 (ch '\\') = true)
    (hletters : ∀ c ∈ escapeLetters, (phpCharmask what).1 c = false) :
    phpStripcslashes (phpAddcslashes str what).1 (phpAddcslashes str what).2 =
        (str, (str.length : Int)) ↔
      escapedLength (phpCharmask what).1 str < 2 ^ 31 := by
  have hlength := length_flatMap_addEscape (phpCharmask what).1 str
  unfold phpStripcslashes phpAddcslashes
  dsimp only
  constructor
  · intro hback
    by_contra hlarge
    rw [← hlength, Nat.not_lt] at hlarge
    have hcut := narrow_le hlarge
    have htaken : ((str.flatMap (addEscape (phpCharmask what).1)).length : Int).bmod (2 ^ 32) |>.toNat |>
        (· ≤ (str.flatMap (addEscape (phpCharmask what).1)).length) := by
      show Int.toNat _ ≤ _
      omega
    have hshort := length_stripLoop_take hslash hletters str _ _
      ((((str.flatMap (addEscape (phpCharmask what).1)).length : Int).bmod (2 ^ 32)))
      (Nat.le_of_eq (List.length_take_of_le htaken).symm)
    rw [hback] at hshort
    dsimp only at hshort
    omega
  · intro hfits
    rw [← hlength] at hfits
    rw [narrow_of_lt hfits, Int.toNat_natCast, List.take_length,
      stripLoop_addcslashes hslash hletters str _ _ (Nat.le_refl _)]
    have hlen : ∀ n m : Int, n + m - n = m := by
      intro n m
      omega
    rw [hlen]

/-- A mask with the backslash and without the letters and digits that mean something behind one
loses nothing: the text comes back, and so does its length, as long as an `int` holds the length of
the escaped text. -/
theorem phpStripcslashes_phpAddcslashes (str what : List UInt8)
    (hslash : (phpCharmask what).1 (ch '\\') = true)
    (hletters : ∀ c ∈ escapeLetters, (phpCharmask what).1 c = false) :
    phpStripcslashes (phpAddcslashes str what).1 (phpAddcslashes str what).2 =
        (str, (str.length : Int)) ↔
      escapedLength (phpCharmask what).1 str < 2 ^ 31 :=
  roundTrip_iff hslash hletters

/-- A control byte and a high byte in front of digits, under a range mask. -/
theorem phpStripcslashes_phpAddcslashes_sample :
    let escaped := phpAddcslashes [1, ch '7', 200, ch '1', 10, ch '\\', ch 'n']
      [0, 0x2e, 0x2e, 31, ch '\\', 127, 0x2e, 0x2e, 255]
    phpStripcslashes escaped.1 escaped.2 = ([1, ch '7', 200, ch '1', 10, ch '\\', ch 'n'], 7) :=
  (phpStripcslashes_phpAddcslashes _ _ (by decide +kernel)
    (List.all_iff_forall_prop.mp (by decide +kernel))).mpr (by decide +kernel)

theorem not_roundTrip_controls {what : List UInt8} (hslash : (phpCharmask what).1 (ch '\\') = true)
    (hletters : ∀ c ∈ escapeLetters, (phpCharmask what).1 c = false)
    (hone : (phpCharmask what).1 1 = true) {n : Nat} (hn : 2 ^ 29 ≤ n) :
    phpStripcslashes (phpAddcslashes (List.replicate n 1) what).1
        (phpAddcslashes (List.replicate n 1) what).2 ≠
      (List.replicate n 1, ((List.replicate n (1 : UInt8)).length : Int)) := by
  have hoctal : ((phpCharmask what).1 1 && needsOctal 1) = true := by
    rw [hone]
    rfl
  have hlength : escapedLength (phpCharmask what).1 (List.replicate n 1) = n + n + 2 * n := by
    unfold escapedLength
    rw [List.countP_replicate, List.countP_replicate, List.length_replicate, if_pos hone,
      if_pos hoctal]
  rw [Ne, roundTrip_iff hslash hletters, hlength]
  omega

/-- `2 ^ 29` control bytes: the length of the escaped text is cut to `-2 ^ 31`. -/
theorem phpAddcslashes_cut :
    let what : List UInt8 := [0, 0x2e, 0x2e, 6, ch '\\']
    let escaped := phpAddcslashes (List.replicate (2 ^ 29) 1) what
    (phpCharmask what).1 (ch '\\') = true ∧
      (∀ c ∈ escapeLetters, (phpCharmask what).1 c = false) ∧
      phpStripcslashes escaped.1 escaped.2 ≠
        (List.replicate (2 ^ 29) 1, ((List.replicate (2 ^ 29) (1 : UInt8)).length : Int)) := by
  have hslash : (phpCharmask [0, 0x2e, 0x2e, 6, ch '\\']).1 (ch '\\') = true := by decide +kernel
  have hletters : ∀ c ∈ escapeLetters, (phpCharmask [0, 0x2e, 0x2e, 6, ch '\\']).1 c = false :=
    List.all_iff_forall_prop.mp (by decide +kernel)
  have hone : (phpCharmask [0, 0x2e, 0x2e, 6, ch '\\']).1 1 = true := by decide +kernel
  exact ⟨hslash, hletters, not_roundTrip_controls hslash hletters hone (Nat.le_refl _)⟩

end Php53.Standard
