import Mathlib.Data.List.DropRight
import Mathlib.Tactic.SplitIfs
import Php53.Reasoning.Numeral
import Php53.Zend.Decimal

/-!
# Int — `php_filter_int`

A string is a list of bytes with a NUL behind it.  `none` is a validation that failed.
-/

namespace Php53.Filter

open Reasoning
open Zend (ch)
open List

variable {c : UInt8} {base n : Nat} {v : Int} {str : List UInt8}

/-- `SIZEOF_LONG`, 4 or 8. -/
inductive SizeofLong where
  | four
  | eight
  deriving DecidableEq, Repr

def SizeofLong.bits : SizeofLong → Nat
  | .four => 32
  | .eight => 64

def SizeofLong.longMax (l : SizeofLong) : Int := 2 ^ (l.bits - 1) - 1

def SizeofLong.longMin (l : SizeofLong) : Int := -2 ^ (l.bits - 1)

/-- `(unsigned long)(~(long)0)` -/
def SizeofLong.ulongMax (l : SizeofLong) : Nat := 2 ^ l.bits - 1

def SizeofLong.maxLengthOfLong : SizeofLong → Nat
  | .four => 11
  | .eight => 20

/-- The digits `'0'` to `last`. -/
def digitUpTo (last c : UInt8) : Option Nat :=
  if ch '0' ≤ c ∧ c ≤ last then some (c.toNat - 48) else none

def decimalDigit (c : UInt8) : Option Nat := digitUpTo (ch '9') c

def octalDigit (c : UInt8) : Option Nat := digitUpTo (ch '7') c

def hexDigit (c : UInt8) : Option Nat :=
  if ch '0' ≤ c ∧ c ≤ ch '9' then some (c.toNat - 48)
  else if ch 'a' ≤ c ∧ c ≤ ch 'f' then some (c.toNat - (97 - 10))
  else if ch 'A' ≤ c ∧ c ≤ ch 'F' then some (c.toNat - (65 - 10))
  else none

variable (l : SizeofLong)

/-- The loop of `php_filter_parse_int`. -/
def parseIntLoop (sign : Bool) : Int → List UInt8 → Option Int
  | ctxValue, [] => some ctxValue
  | ctxValue, c :: str =>
    match decimalDigit c with
    | none => none
    | some digit =>
      if sign = false ∧ ctxValue ≤ (l.longMax - digit).tdiv 10 then
        parseIntLoop sign (ctxValue * 10 + digit) str
      else if sign = true ∧ ctxValue ≥ (l.longMin + digit).tdiv 10 then
        parseIntLoop sign (ctxValue * 10 - digit) str
      else none

/-- `php_filter_parse_int` from the first digit on. -/
def parseIntDigits (sign : Bool) : List UInt8 → Option Int
  | [] => none
  | c :: str =>
    if ch '1' ≤ c ∧ c ≤ ch '9' then
      if str.length > l.maxLengthOfLong - 1 ∨
          (l = .four ∧ str.length = l.maxLengthOfLong - 1 ∧ str.headD 0 > ch '2') then none
      else parseIntLoop l sign ((if sign then -1 else 1) * ((c.toNat - 48 : Nat) : Int)) str
    else none

def phpFilterParseInt (str : List UInt8) : Option Int :=
  if str.headD 0 = ch '-' then parseIntDigits l true str.tail
  else if str.headD 0 = ch '+' then parseIntDigits l false str.tail
  else parseIntDigits l false str

/-- The loop of `php_filter_parse_octal` and `php_filter_parse_hex`. -/
def parseUnsigned (base : Nat) (digit : UInt8 → Option Nat) : Nat → List UInt8 → Option Nat
  | ctxValue, [] => some ctxValue
  | ctxValue, c :: str =>
    match digit c with
    | none => none
    | some n =>
      if ctxValue > l.ulongMax / base ∨ ctxValue * base % 2 ^ l.bits > l.ulongMax - n then none
      else parseUnsigned base digit (ctxValue * base % 2 ^ l.bits + n) str

/-- `(long)ctx_value` -/
def castLong (ctxValue : Nat) : Int := (ctxValue : Int).bmod (2 ^ l.bits)

def phpFilterParseOctal (str : List UInt8) : Option Int :=
  (parseUnsigned l 8 octalDigit 0 str).map (castLong l)

def phpFilterParseHex (str : List UInt8) : Option Int :=
  (parseUnsigned l 16 hexDigit 0 str).map (castLong l)

/-- What `PHP_FILTER_TRIM_DEFAULT` takes away. -/
def filterBlank (c : UInt8) : Bool :=
  c = ch ' ' ∨ c = ch '\t' ∨ c = ch '\r' ∨ c = 11 ∨ c = ch '\n'

/-- The flags, and `min_range` and `max_range` if they are set. -/
structure IntOptions where
  allowOctal : Bool
  allowHex : Bool
  minRange : Option Int
  maxRange : Option Int

/-- `ctx_value` if there was no `error`: `p` is what follows the blanks, `str` its first `len`
    bytes. -/
def filterIntValue (o : IntOptions) (p str : List UInt8) : Option Int :=
  if p.headD 0 = ch '0' then
    if o.allowHex = true ∧ (p.tail.headD 0 = ch 'x' ∨ p.tail.headD 0 = ch 'X') then
      phpFilterParseHex l (str.drop 2)
    else if o.allowOctal = true then phpFilterParseOctal l (str.drop 1)
    else if str.length - 1 ≠ 0 then none
    else some 0
  else phpFilterParseInt l str

def phpFilterInt (o : IntOptions) (value : List UInt8) : Option Int :=
  if value.length = 0 then none
  else
    let p := value.dropWhile filterBlank
    if p.length < 1 then none
    else
      match filterIntValue l o p (p.rdropWhile filterBlank) with
      | none => none
      | some ctxValue =>
        if o.minRange.any (ctxValue < ·) ∨ o.maxRange.any (ctxValue > ·) then none
        else some ctxValue

def trim (value : List UInt8) : List UInt8 := (value.dropWhile filterBlank).rdropWhile filterBlank

/-- An optional sign, and whether it negates. -/
inductive Sign : List UInt8 → Bool → Prop
  | absent : Sign [] false
  | plus : Sign [ch '+'] false
  | minus : Sign [ch '-'] true

def signed (neg : Bool) (n : Nat) : Int := if neg then -n else n

/-- `'x'` or `'X'` -/
def IsX (x : UInt8) : Prop := x = ch 'x' ∨ x = ch 'X'

instance (x : UInt8) : Decidable (IsX x) := inferInstanceAs (Decidable (_ ∨ _))

/-- The integers that the trimmed texts denote. -/
inductive IntText (allowOctal allowHex : Bool) : List UInt8 → Int → Prop
  | zero : IntText allowOctal allowHex [ch '0'] 0
  | decimal {sign : List UInt8} {neg : Bool} {c : UInt8} {digits : List UInt8} :
      Sign sign neg → c ≠ ch '0' → AllDigits decimalDigit (c :: digits) →
      l.longMin ≤ signed neg (numeral 10 decimalDigit 0 (c :: digits)) →
      signed neg (numeral 10 decimalDigit 0 (c :: digits)) ≤ l.longMax →
      IntText allowOctal allowHex (sign ++ c :: digits)
        (signed neg (numeral 10 decimalDigit 0 (c :: digits)))
  | octal {digits : List UInt8} :
      allowOctal = true → AllDigits octalDigit digits →
      (numeral 8 octalDigit 0 digits : Int) ≤ l.longMax →
      IntText allowOctal allowHex (ch '0' :: digits) (numeral 8 octalDigit 0 digits)
  | hex {x : UInt8} {digits : List UInt8} :
      allowHex = true → IsX x → digits ≠ [] → AllDigits hexDigit digits →
      (numeral 16 hexDigit 0 digits : Int) ≤ l.longMax →
      IntText allowOctal allowHex (ch '0' :: x :: digits) (numeral 16 hexDigit 0 digits)

/-- A number that an `unsigned long` holds and a `long` does not. -/
def OnlyUnsigned (n : Nat) : Prop := l.longMax < n ∧ n ≤ l.ulongMax

/-- The texts that are accepted and should not be: `0x` without a digit, and numbers in octal or
    hexadecimal that become negative. -/
def Misread (allowOctal allowHex : Bool) (text : List UInt8) : Prop :=
  (allowHex = true ∧ ∃ x digits, IsX x ∧ text = ch '0' :: x :: digits ∧
      (digits = [] ∨
        AllDigits hexDigit digits ∧ OnlyUnsigned l (numeral 16 hexDigit 0 digits))) ∨
    (allowOctal = true ∧ ∃ digits, text = ch '0' :: digits ∧
      AllDigits octalDigit digits ∧ OnlyUnsigned l (numeral 8 octalDigit 0 digits))

variable {l}

theorem digitUpTo_lt {last : UInt8} (h : digitUpTo last c = some n) :
    n ≤ last.toNat - 48 := by
  unfold digitUpTo at h
  split_ifs at h with hc
  have hle := UInt8.le_iff_toNat_le.mp hc.2
  rw [← Option.some.inj h]
  omega

theorem octalDigit_lt (h : octalDigit c = some n) : n < 8 :=
  Nat.lt_of_le_of_lt (digitUpTo_lt h) (by decide)

theorem decimalDigit_lt (h : decimalDigit c = some n) : n < 10 :=
  Nat.lt_of_le_of_lt (digitUpTo_lt h) (by decide)

theorem hexDigit_lt (h : hexDigit c = some n) : n < 16 := by
  unfold hexDigit at h
  have h57 : (ch '9').toNat = 57 := rfl
  have h102 : (ch 'f').toNat = 102 := rfl
  have h70 : (ch 'F').toNat = 70 := rfl
  simp only [UInt8.le_iff_toNat_le] at h
  split_ifs at h <;> · rw [← Option.some.inj h]; omega

theorem ulongMax_succ : l.ulongMax + 1 = 2 ^ l.bits := Nat.sub_add_cancel (Nat.pow_pos (by decide))

theorem overflows_iff {v : Nat} (hbase : 0 < base) (hn : n ≤ l.ulongMax) :
    (v > l.ulongMax / base ∨ v * base % 2 ^ l.bits > l.ulongMax - n) ↔
      ¬ v * base + n ≤ l.ulongMax := by
  have hdiv : v ≤ l.ulongMax / base ↔ v * base ≤ l.ulongMax := Nat.le_div_iff_mul_le hbase
  have hsize := ulongMax_succ (l := l)
  by_cases hv : v * base ≤ l.ulongMax
  · rw [Nat.mod_eq_of_lt (by omega)]
    omega
  · have hlarge : v > l.ulongMax / base := by omega
    omega

theorem parseUnsigned_eq {digit : UInt8 → Option Nat} (hbase : 0 < base) (hmax : base ≤ l.ulongMax)
    (hdigit : ∀ {c n}, digit c = some n → n < base) (str : List UInt8) (v : Nat) :
    parseUnsigned l base digit v str = boundedNumeral base digit l.ulongMax v str := by
  induction str generalizing v with
  | nil => rfl
  | cons c str ih =>
    rw [parseUnsigned, boundedNumeral]
    cases hd : digit c with
    | none => rfl
    | some n =>
      have hn := hdigit hd
      have hover := overflows_iff (l := l) (v := v) hbase (show n ≤ l.ulongMax by omega)
      show (if _ then none else _) = (if _ then _ else none)
      by_cases hfits : v * base + n ≤ l.ulongMax
      · have hsize := ulongMax_succ (l := l)
        rw [if_neg (fun h => hover.mp h hfits), if_pos hfits, Nat.mod_eq_of_lt (by omega), ih]
      · rw [if_pos (hover.mpr hfits), if_neg hfits]

/-- `LONG_MAX`, or `-LONG_MIN` -/
def magnitudeMax (l : SizeofLong) (sign : Bool) : Nat :=
  if sign then 2 ^ (l.bits - 1) else 2 ^ (l.bits - 1) - 1

theorem signed_fits_iff (sign : Bool) (n : Nat) :
    (l.longMin ≤ signed sign n ∧ signed sign n ≤ l.longMax) ↔ n ≤ magnitudeMax l sign := by
  cases l <;> cases sign <;>
    simp only [SizeofLong.longMin, SizeofLong.longMax, SizeofLong.bits, signed, magnitudeMax, if_true,
      Bool.false_eq_true, if_false] <;>
    omega

theorem fits_positive {d : Nat} (hd : d < 10) :
    (n : Int) ≤ (l.longMax - d).tdiv 10 ↔ n * 10 + d ≤ magnitudeMax l false := by
  have hmax : (magnitudeMax l false : Int) = l.longMax ∧ 10 ≤ l.longMax := by
    cases l <;> decide
  rw [Int.tdiv_eq_ediv_of_nonneg (by omega)]
  omega

theorem fits_negative {d : Nat} (hd : d < 10) :
    -(n : Int) ≥ (l.longMin + d).tdiv 10 ↔ n * 10 + d ≤ magnitudeMax l true := by
  have hmin : (magnitudeMax l true : Int) = -l.longMin ∧ 10 ≤ -l.longMin := by
    cases l <;> decide
  rw [show l.longMin + d = -(-l.longMin - d) by omega, Int.neg_tdiv,
    Int.tdiv_eq_ediv_of_nonneg (by omega)]
  omega

theorem parseIntLoop_eq (sign : Bool) (str : List UInt8) (n : Nat) :
    parseIntLoop l sign (signed sign n) str =
      (boundedNumeral 10 decimalDigit (magnitudeMax l sign) n str).map (signed sign) := by
  induction str generalizing n with
  | nil => rfl
  | cons c str ih =>
    rw [parseIntLoop, boundedNumeral]
    cases hd : decimalDigit c with
    | none => rfl
    | some d =>
      have hlt := decimalDigit_lt hd
      cases sign with
      | false =>
        have hnext : (n : Int) * 10 + d = signed false (n * 10 + d) := by
          show _ = ((n * 10 + d : Nat) : Int)
          omega
        show (if false = false ∧ (n : Int) ≤ _ then parseIntLoop l false ((n : Int) * 10 + d) str
          else if false = true ∧ _ then _ else none) = Option.map _ (if _ then _ else none)
        by_cases hfits : n * 10 + d ≤ magnitudeMax l false
        · rw [if_pos ⟨rfl, (fits_positive hlt).mpr hfits⟩, if_pos hfits, hnext, ih]
        · rw [if_neg (fun h => hfits ((fits_positive hlt).mp h.2)), if_neg (fun h => by cases h.1),
            if_neg hfits]
          rfl
      | true =>
        have hnext : -(n : Int) * 10 - d = signed true (n * 10 + d) := by
          show _ = -((n * 10 + d : Nat) : Int)
          omega
        show (if true = false ∧ _ then _ else if true = true ∧ -(n : Int) ≥ _ then
          parseIntLoop l true (-(n : Int) * 10 - d) str else none) =
            Option.map _ (if _ then _ else none)
        rw [if_neg (fun h => by cases h.1)]
        by_cases hfits : n * 10 + d ≤ magnitudeMax l true
        · rw [if_pos ⟨rfl, (fits_negative hlt).mpr hfits⟩, if_pos hfits, hnext, ih]
        · rw [if_neg (fun h => hfits ((fits_negative hlt).mp h.2)), if_neg hfits]
          rfl

theorem tooLong {sign : Bool} (hn : 1 ≤ n) (hlen : l.maxLengthOfLong - 1 ≤ str.length) :
    magnitudeMax l sign < numeral 10 decimalDigit n str := by
  have hpow : 10 ^ (l.maxLengthOfLong - 1) ≤ 10 ^ str.length :=
    Nat.pow_le_pow_right (by decide) hlen
  have hmax : magnitudeMax l sign < 10 ^ (l.maxLengthOfLong - 1) := by
    cases l <;> cases sign <;> decide
  have hval : n * 10 ^ str.length ≤ numeral 10 decimalDigit n str := le_numeral n str
  have hmul : 1 * 10 ^ str.length ≤ n * 10 ^ str.length := Nat.mul_le_mul_right _ hn
  omega

theorem isSome_digitUpTo {last : UInt8} :
    (digitUpTo last c).isSome = true ↔ 48 ≤ c.toNat ∧ c ≤ last := by
  have h48 : ch '0' ≤ c ↔ 48 ≤ c.toNat := UInt8.le_iff_toNat_le
  unfold digitUpTo
  rw [← h48]
  split_ifs with h
  · exact iff_of_true rfl h
  · exact iff_of_false (fun hsome => nomatch hsome) h

theorem firstDigit_iff :
    (ch '1' ≤ c ∧ c ≤ ch '9') ↔ c ≠ ch '0' ∧ (decimalDigit c).isSome = true := by
  have h49 : ch '1' ≤ c ↔ 49 ≤ c.toNat := UInt8.le_iff_toNat_le
  have h48 : c = ch '0' ↔ c.toNat = 48 := UInt8.toNat_inj.symm
  have h57 : c ≤ ch '9' ↔ c.toNat ≤ 57 := UInt8.le_iff_toNat_le
  unfold decimalDigit
  rw [isSome_digitUpTo, h49, h57, ne_eq, h48]
  omega

theorem parseIntDigits_eq_some_iff {sign : Bool} :
    parseIntDigits l sign str = some v ↔
      ∃ c digits, str = c :: digits ∧ c ≠ ch '0' ∧ AllDigits decimalDigit (c :: digits) ∧
        numeral 10 decimalDigit 0 (c :: digits) ≤ magnitudeMax l sign ∧
        v = signed sign (numeral 10 decimalDigit 0 (c :: digits)) := by
  cases str with
  | nil => simp [parseIntDigits]
  | cons c digits =>
    have hshape : (∃ c' digits', c :: digits = c' :: digits' ∧ c' ≠ ch '0' ∧
        AllDigits decimalDigit (c' :: digits') ∧
        numeral 10 decimalDigit 0 (c' :: digits') ≤ magnitudeMax l sign ∧
        v = signed sign (numeral 10 decimalDigit 0 (c' :: digits'))) ↔
        c ≠ ch '0' ∧ AllDigits decimalDigit (c :: digits) ∧
        numeral 10 decimalDigit 0 (c :: digits) ≤ magnitudeMax l sign ∧
        v = signed sign (numeral 10 decimalDigit 0 (c :: digits)) := by
      constructor
      · rintro ⟨c', digits', heq, h⟩
        rw [(List.cons.inj heq).1, (List.cons.inj heq).2]
        exact h
      · intro h
        exact ⟨c, digits, rfl, h⟩
    rw [hshape, parseIntDigits, allDigits_cons]
    by_cases hfirst : ch '1' ≤ c ∧ c ≤ ch '9'
    · obtain ⟨hne, hsome⟩ := firstDigit_iff.mp hfirst
      have hge : 49 ≤ c.toNat := UInt8.le_iff_toNat_le.mp hfirst.1
      have hle : c.toNat ≤ 57 := UInt8.le_iff_toNat_le.mp hfirst.2
      have hdigit : decimalDigit c = some (c.toNat - 48) := by
        unfold decimalDigit digitUpTo
        exact if_pos ⟨UInt8.le_iff_toNat_le.mpr (by show 48 ≤ _; omega), hfirst.2⟩
      have hnumeral : numeral 10 decimalDigit 0 (c :: digits) =
          numeral 10 decimalDigit (c.toNat - 48) digits := by
        rw [numeral, hdigit, Nat.zero_mul, Nat.zero_add, Option.getD_some]
      rw [if_pos hfirst, hnumeral]
      by_cases hlong : digits.length > l.maxLengthOfLong - 1 ∨
          (l = .four ∧ digits.length = l.maxLengthOfLong - 1 ∧ digits.headD 0 > ch '2')
      · have hlen : l.maxLengthOfLong - 1 ≤ digits.length := by omega
        have hlarge : magnitudeMax l sign < numeral 10 decimalDigit (c.toNat - 48) digits :=
          tooLong (by omega) hlen
        rw [if_pos hlong]
        constructor
        · intro h
          cases h
        · intro h
          omega
      · have hstart : (if sign then -1 else 1) * ((c.toNat - 48 : Nat) : Int) =
            signed sign (c.toNat - 48) := by
          cases sign <;> simp [signed]
        have hsmall : c.toNat - 48 ≤ magnitudeMax l sign := by
          have hten : 10 ≤ magnitudeMax l sign := by cases l <;> cases sign <;> decide
          omega
        rw [if_neg hlong, hstart, parseIntLoop_eq, Option.map_eq_some_iff]
        constructor
        · rintro ⟨n, hn, hv⟩
          obtain ⟨hall, hn, hmax⟩ := (boundedNumeral_eq_some_iff (by decide) hsmall).mp hn
          rw [hn]
          exact ⟨hne, ⟨hsome, hall⟩, hmax, hv.symm⟩
        · rintro ⟨_, ⟨_, hall⟩, hmax, hv⟩
          exact ⟨_, (boundedNumeral_eq_some_iff (by decide) hsmall).mpr ⟨hall, rfl, hmax⟩, hv.symm⟩
    · rw [if_neg hfirst]
      constructor
      · intro h
        cases h
      · intro h
        exact absurd (firstDigit_iff.mpr ⟨h.1, h.2.1.1⟩) hfirst

theorem phpFilterParseInt_eq_some_iff :
    phpFilterParseInt l str = some v ↔
      ∃ sign neg c digits, Sign sign neg ∧ str = sign ++ c :: digits ∧ c ≠ ch '0' ∧
        AllDigits decimalDigit (c :: digits) ∧
        numeral 10 decimalDigit 0 (c :: digits) ≤ magnitudeMax l neg ∧
        v = signed neg (numeral 10 decimalDigit 0 (c :: digits)) := by
  have hsplit : (∃ sign neg c digits, Sign sign neg ∧ str = sign ++ c :: digits ∧ c ≠ ch '0' ∧
      AllDigits decimalDigit (c :: digits) ∧
      numeral 10 decimalDigit 0 (c :: digits) ≤ magnitudeMax l neg ∧
      v = signed neg (numeral 10 decimalDigit 0 (c :: digits))) ↔
      parseIntDigits l false str = some v ∨
        (∃ str', str = ch '+' :: str' ∧ parseIntDigits l false str' = some v) ∨
        (∃ str', str = ch '-' :: str' ∧ parseIntDigits l true str' = some v) := by
    simp only [parseIntDigits_eq_some_iff]
    constructor
    · intro ⟨sign, neg, c, digits, hsign, hstr, h⟩
      cases hsign with
      | absent => exact Or.inl ⟨c, digits, hstr, h⟩
      | plus => exact Or.inr (Or.inl ⟨c :: digits, hstr, c, digits, rfl, h⟩)
      | minus => exact Or.inr (Or.inr ⟨c :: digits, hstr, c, digits, rfl, h⟩)
    · intro h
      cases h with
      | inl h =>
        have ⟨c, digits, hstr, h⟩ := h
        exact ⟨[], false, c, digits, .absent, hstr, h⟩
      | inr h =>
        cases h with
        | inl h =>
          have ⟨str', hstr, c, digits, hstr', h⟩ := h
          exact ⟨_, false, c, digits, .plus, by rw [hstr, hstr']; rfl, h⟩
        | inr h =>
          have ⟨str', hstr, c, digits, hstr', h⟩ := h
          exact ⟨_, true, c, digits, .minus, by rw [hstr, hstr']; rfl, h⟩
  -- a text that begins with a sign does not begin with a digit
  have hnone : ∀ c str', c.toNat < 48 → parseIntDigits l false (c :: str') = none := by
    intro c str' hc
    refine if_neg fun h => ?_
    have hge : 49 ≤ c.toNat := UInt8.le_iff_toNat_le.mp h.1
    omega
  rw [hsplit]
  unfold phpFilterParseInt
  cases str with
  | nil => simp [parseIntDigits]
  | cons c str =>
    rw [headD_cons, tail_cons]
    by_cases hminus : c = ch '-'
    · rw [if_pos hminus, hminus, hnone _ _ (by decide)]
      simp
    · rw [if_neg hminus]
      by_cases hplus : c = ch '+'
      · rw [if_pos hplus, hplus, hnone _ _ (by decide)]
        simp
      · rw [if_neg hplus]
        simp only [List.cons.injEq, hminus, hplus, false_and, exists_false, or_false]

theorem parseUnsigned_eq_some_iff {digit : UInt8 → Option Nat} (hbase : 0 < base)
    (hmax : base ≤ l.ulongMax) (hdigit : ∀ {c n}, digit c = some n → n < base) :
    (parseUnsigned l base digit 0 str).map (castLong l) = some v ↔
      AllDigits digit str ∧ numeral base digit 0 str ≤ l.ulongMax ∧
        v = castLong l (numeral base digit 0 str) := by
  rw [parseUnsigned_eq hbase hmax hdigit, Option.map_eq_some_iff]
  constructor
  · intro ⟨n, hn, hv⟩
    have ⟨hall, hn, hle⟩ := (boundedNumeral_eq_some_iff hbase (Nat.zero_le _)).mp hn
    rw [hn]
    exact ⟨hall, hle, hv.symm⟩
  · intro ⟨hall, hle, hv⟩
    exact ⟨_, (boundedNumeral_eq_some_iff hbase (Nat.zero_le _)).mpr ⟨hall, rfl, hle⟩, hv.symm⟩

theorem castLong_eq (h : (n : Int) ≤ l.longMax) : castLong l n = n := by
  have hsize : (l.longMax + 1) * 2 = (2 ^ l.bits : Nat) ∧ 0 ≤ l.longMax := by
    cases l <;> decide
  have hmod : (n : Int) % (2 ^ l.bits : Nat) = n :=
    Int.emod_eq_of_lt (Int.natCast_nonneg n) (by omega)
  unfold castLong
  rw [Int.bmod_eq_emod, hmod, if_neg (by omega)]
  exact Int.sub_zero _

theorem longMax_le_ulongMax : l.longMax ≤ l.ulongMax := by
  cases l <;> decide

theorem unsigned_settles {P A : Prop} (hP : ¬ P → A ∧ n ≤ l.ulongMax) :
    (∀ v, (A ∧ n ≤ l.ulongMax ∧ v = castLong l n) ↔ (P ∧ A ∧ (n : Int) ≤ l.longMax ∧ v = n)) ↔
      ¬ (¬ P ∨ (A ∧ OnlyUnsigned l n)) := by
  constructor
  · intro h hbad
    cases hbad with
    | inl hnot => exact hnot ((h _).mp ⟨(hP hnot).1, (hP hnot).2, rfl⟩).1
    | inr hlarge =>
      have hle := ((h _).mp ⟨hlarge.1, hlarge.2.2, rfl⟩).2.2.1
      exact absurd hlarge.2.1 (Int.not_lt.mpr hle)
  · intro h v
    constructor
    · intro ⟨hA, hmax, hv⟩
      have hle : (n : Int) ≤ l.longMax := by
        by_contra hlt
        exact h (Or.inr ⟨hA, Int.not_le.mp hlt, hmax⟩)
      exact ⟨not_not.mp fun hnot => h (Or.inl hnot), hA, hle, hv.trans (castLong_eq hle)⟩
    · intro ⟨_, hA, hle, hv⟩
      have hmax : (n : Int) ≤ l.ulongMax := Int.le_trans hle longMax_le_ulongMax
      exact ⟨hA, Int.ofNat_le.mp hmax, hv.trans (castLong_eq hle).symm⟩

section

variable {allowOctal allowHex : Bool} {rest : List UInt8} {v : Int}

theorem intText_zero_iff :
    IntText l allowOctal allowHex (ch '0' :: rest) v ↔
      (rest = [] ∧ v = 0) ∨
        (allowOctal = true ∧ AllDigits octalDigit rest ∧
          (numeral 8 octalDigit 0 rest : Int) ≤ l.longMax ∧ v = numeral 8 octalDigit 0 rest) ∨
        (allowHex = true ∧ ∃ x digits, rest = x :: digits ∧ IsX x ∧ digits ≠ [] ∧
          AllDigits hexDigit digits ∧ (numeral 16 hexDigit 0 digits : Int) ≤ l.longMax ∧
          v = numeral 16 hexDigit 0 digits) := by
  constructor
  · intro h
    generalize ht : ch '0' :: rest = t at h
    cases h with
    | zero => exact Or.inl ⟨(List.cons.inj ht).2, rfl⟩
    | decimal hsign hc =>
      cases hsign with
      | absent => exact absurd (List.cons.inj ht).1.symm hc
      | plus => exact absurd (List.cons.inj ht).1 (by decide)
      | minus => exact absurd (List.cons.inj ht).1 (by decide)
    | octal hflag hall hle =>
      rw [(List.cons.inj ht).2]
      exact Or.inr (Or.inl ⟨hflag, hall, hle, rfl⟩)
    | hex hflag hx hne hall hle =>
      exact Or.inr (Or.inr ⟨hflag, _, _, (List.cons.inj ht).2, hx, hne, hall, hle, rfl⟩)
  · intro h
    cases h with
    | inl h =>
      rw [h.1, h.2]
      exact .zero
    | inr h =>
      cases h with
      | inl h =>
        rw [h.2.2.2]
        exact .octal h.1 h.2.1 h.2.2.1
      | inr h =>
        have ⟨hflag, x, digits, hrest, hx, hne, hall, hle, hv⟩ := h
        rw [hrest, hv]
        exact .hex hflag hx hne hall hle

theorem intText_iff {t : List UInt8} (ht : ∀ rest, t ≠ ch '0' :: rest) :
    IntText l allowOctal allowHex t v ↔ phpFilterParseInt l t = some v := by
  rw [phpFilterParseInt_eq_some_iff]
  constructor
  · intro h
    cases h with
    | zero => exact absurd rfl (ht [])
    | decimal hsign hc hall hmin hmax =>
      exact ⟨_, _, _, _, hsign, rfl, hc, hall, (signed_fits_iff _ _).mp ⟨hmin, hmax⟩, rfl⟩
    | octal => exact absurd rfl (ht _)
    | hex => exact absurd rfl (ht _)
  · intro ⟨sign, neg, c, digits, hsign, hstr, hc, hall, hle, hv⟩
    rw [hstr, hv]
    have hfits := (signed_fits_iff neg _).mpr hle
    exact .decimal hsign hc hall hfits.1 hfits.2

end

section

variable {allowOctal allowHex : Bool} {rest blanks : List UInt8}

def HexPrefix (allowHex : Bool) (rest : List UInt8) : Prop :=
  allowHex = true ∧ ∃ x digits, IsX x ∧ rest = x :: digits

theorem hexPrefix_iff (hblanks : ∀ c ∈ blanks, filterBlank c = true) :
    (allowHex = true ∧ ((rest ++ blanks).headD 0 = ch 'x' ∨ (rest ++ blanks).headD 0 = ch 'X')) ↔
      HexPrefix allowHex rest := by
  have hhead : ((rest ++ blanks).headD 0 = ch 'x' ∨ (rest ++ blanks).headD 0 = ch 'X') ↔
      ∃ x digits, IsX x ∧ rest = x :: digits := by
    cases rest with
    | nil =>
      rw [nil_append]
      constructor
      · intro h
        cases blanks with
        | nil => exact absurd h (by decide)
        | cons b bs =>
          have hb := hblanks b mem_cons_self
          rw [headD_cons] at h
          cases h with
          | inl h => exact absurd hb (by rw [h]; decide)
          | inr h => exact absurd hb (by rw [h]; decide)
      · intro ⟨x, digits, _, h⟩
        exact nomatch h
    | cons x digits =>
      constructor
      · intro h
        exact ⟨x, digits, h, rfl⟩
      · intro ⟨x', digits', hx, heq⟩
        rw [← (List.cons.inj heq).1] at hx
        exact hx
  rw [hhead]
  rfl

variable (o : IntOptions)

theorem filterIntValue_hex (hblanks : ∀ c ∈ blanks, filterBlank c = true)
    (h : HexPrefix o.allowHex rest) :
    filterIntValue l o (ch '0' :: rest ++ blanks) (ch '0' :: rest) =
      phpFilterParseHex l rest.tail := by
  unfold filterIntValue
  rw [cons_append, headD_cons, tail_cons, if_pos rfl]
  have hprefix := (hexPrefix_iff hblanks).mpr h
  rw [if_pos hprefix]
  have ⟨x, digits, _, hrest⟩ := h.2
  rw [hrest]
  rfl

theorem filterIntValue_octal (hblanks : ∀ c ∈ blanks, filterBlank c = true)
    (h : ¬ HexPrefix o.allowHex rest) :
    filterIntValue l o (ch '0' :: rest ++ blanks) (ch '0' :: rest) =
      if o.allowOctal = true then phpFilterParseOctal l rest
      else if rest = [] then some 0 else none := by
  have hlen : (ch '0' :: rest).length - 1 ≠ 0 ↔ rest ≠ [] := by
    rw [length_cons, Nat.add_sub_cancel, ne_eq, length_eq_zero_iff]
  unfold filterIntValue
  rw [cons_append, headD_cons, tail_cons, if_pos rfl]
  have hprefix : ¬ _ := fun hp => h ((hexPrefix_iff hblanks).mp hp)
  rw [if_neg hprefix]
  by_cases hrest : rest = []
  · rw [if_neg (fun hl => hlen.mp hl hrest), if_pos hrest]
    rfl
  · rw [if_pos (hlen.mpr hrest), if_neg hrest]
    rfl

theorem octal_settles (h : ¬ HexPrefix allowHex rest) :
    (∀ v, phpFilterParseOctal l rest = some v ↔
        IntText l true allowHex (ch '0' :: rest) v) ↔
      ¬ Misread l true allowHex (ch '0' :: rest) := by
  have htext : ∀ v, IntText l true allowHex (ch '0' :: rest) v ↔
      True ∧ AllDigits octalDigit rest ∧ (numeral 8 octalDigit 0 rest : Int) ≤ l.longMax ∧
        v = numeral 8 octalDigit 0 rest := by
    intro v
    rw [intText_zero_iff]
    constructor
    · intro hv
      cases hv with
      | inl hv =>
        rw [hv.1, hv.2]
        exact ⟨trivial, allDigits_nil, by cases l <;> decide, rfl⟩
      | inr hv =>
        cases hv with
        | inl hv => exact ⟨trivial, hv.2⟩
        | inr hv =>
          have ⟨hflag, x, digits, hrest, hx, _⟩ := hv
          exact absurd ⟨hflag, x, digits, hx, hrest⟩ h
    · intro hv
      exact Or.inr (Or.inl ⟨rfl, hv.2⟩)
  have hmisread : Misread l true allowHex (ch '0' :: rest) ↔
      ¬ True ∨ (AllDigits octalDigit rest ∧ OnlyUnsigned l (numeral 8 octalDigit 0 rest)) := by
    constructor
    · intro hbad
      cases hbad with
      | inl hbad =>
        have ⟨hflag, x, digits, hx, hrest, _⟩ := hbad
        exact absurd ⟨hflag, x, digits, hx, (List.cons.inj hrest).2⟩ h
      | inr hbad =>
        have ⟨_, digits, hrest, hdigits⟩ := hbad
        rw [(List.cons.inj hrest).2]
        exact Or.inr hdigits
    · intro hbad
      exact Or.inr ⟨rfl, rest, rfl, hbad.resolve_left (fun hnot => hnot trivial)⟩
  have hparse : ∀ v, phpFilterParseOctal l rest = some v ↔ _ := fun v =>
    parseUnsigned_eq_some_iff (l := l) (by decide) (by cases l <;> decide) octalDigit_lt
  rw [hmisread, ← unsigned_settles (fun hnot => absurd trivial hnot)]
  simp only [hparse, htext]

theorem hex_settles {x : UInt8} {digits : List UInt8} (hx : IsX x) :
    (∀ v, phpFilterParseHex l digits = some v ↔
        IntText l allowOctal true (ch '0' :: x :: digits) v) ↔
      ¬ Misread l allowOctal true (ch '0' :: x :: digits) := by
  -- the `x` is no octal digit
  have hoctal : ¬ AllDigits octalDigit (x :: digits) := by
    intro hall
    have hdigit := hall x mem_cons_self
    cases hx with
    | inl hx => exact absurd hdigit (by rw [hx]; decide)
    | inr hx => exact absurd hdigit (by rw [hx]; decide)
  have htext : ∀ v, IntText l allowOctal true (ch '0' :: x :: digits) v ↔
      digits ≠ [] ∧ AllDigits hexDigit digits ∧
        (numeral 16 hexDigit 0 digits : Int) ≤ l.longMax ∧ v = numeral 16 hexDigit 0 digits := by
    intro v
    rw [intText_zero_iff]
    constructor
    · intro hv
      cases hv with
      | inl hv => exact nomatch hv.1
      | inr hv =>
        cases hv with
        | inl hv => exact absurd hv.2.1 hoctal
        | inr hv =>
          have ⟨_, x', digits', hrest, _, h⟩ := hv
          rw [(List.cons.inj hrest).2]
          exact h
    · intro hv
      exact Or.inr (Or.inr ⟨rfl, x, digits, rfl, hx, hv⟩)
  have hmisread : Misread l allowOctal true (ch '0' :: x :: digits) ↔
      ¬ digits ≠ [] ∨
        (AllDigits hexDigit digits ∧ OnlyUnsigned l (numeral 16 hexDigit 0 digits)) := by
    rw [not_not]
    constructor
    · intro hbad
      cases hbad with
      | inl hbad =>
        have ⟨_, x', digits', _, hrest, h⟩ := hbad
        rw [(List.cons.inj (List.cons.inj hrest).2).2]
        exact h
      | inr hbad =>
        have ⟨_, digits', hrest, h, _⟩ := hbad
        rw [← (List.cons.inj hrest).2] at h
        exact absurd h hoctal
    · intro hbad
      exact Or.inl ⟨rfl, x, digits, hx, rfl, hbad⟩
  have hparse : ∀ v, phpFilterParseHex l digits = some v ↔ _ := fun v =>
    parseUnsigned_eq_some_iff (l := l) (by decide) (by cases l <;> decide) hexDigit_lt
  have hempty : ¬ digits ≠ [] →
      AllDigits hexDigit digits ∧ numeral 16 hexDigit 0 digits ≤ l.ulongMax := by
    intro hnot
    rw [not_not.mp hnot]
    exact ⟨allDigits_nil, Nat.zero_le _⟩
  rw [hmisread, ← unsigned_settles hempty]
  simp only [hparse, htext]

end

theorem filterIntValue_settles (allowOctal allowHex : Bool) {t blanks : List UInt8}
    (hblanks : ∀ c ∈ blanks, filterBlank c = true) (hne : t ≠ []) :
    (∀ v, filterIntValue l ⟨allowOctal, allowHex, none, none⟩ (t ++ blanks) t = some v ↔
        IntText l allowOctal allowHex t v) ↔
      ¬ Misread l allowOctal allowHex t := by
  by_cases hzero : ∃ rest, t = ch '0' :: rest
  · have ⟨rest, ht⟩ := hzero
    rw [ht]
    by_cases hprefix : HexPrefix allowHex rest
    · have ⟨hflag, x, digits, hx, hrest⟩ := hprefix
      rw [filterIntValue_hex ⟨allowOctal, allowHex, none, none⟩ hblanks hprefix, hrest, hflag]
      exact hex_settles hx
    · rw [filterIntValue_octal ⟨allowOctal, allowHex, none, none⟩ hblanks hprefix]
      cases allowOctal with
      | true => exact octal_settles hprefix
      | false =>
        have hgood : ¬ Misread l false allowHex (ch '0' :: rest) := by
          intro hbad
          cases hbad with
          | inl hbad =>
            have ⟨hflag, x, digits, hx, hrest, _⟩ := hbad
            exact hprefix ⟨hflag, x, digits, hx, (List.cons.inj hrest).2⟩
          | inr hbad => exact nomatch hbad.1
        refine iff_of_true (fun v => ?_) hgood
        rw [intText_zero_iff]
        constructor
        · intro hv
          by_cases hrest : rest = []
          · rw [hrest] at hv
            exact Or.inl ⟨hrest, (Option.some.inj hv).symm⟩
          · simp [hrest] at hv
        · intro hv
          cases hv with
          | inl hv =>
            rw [hv.1, hv.2]
            rfl
          | inr hv =>
            cases hv with
            | inl hv => exact nomatch hv.1
            | inr hv =>
              have ⟨hflag, x, digits, hrest, hx, _⟩ := hv
              exact absurd ⟨hflag, x, digits, hx, hrest⟩ hprefix
  · have hnot : ∀ rest, t ≠ ch '0' :: rest := fun rest h => hzero ⟨rest, h⟩
    have hgood : ¬ Misread l allowOctal allowHex t := by
      intro hbad
      cases hbad with
      | inl hbad =>
        have ⟨_, x, digits, _, ht, _⟩ := hbad
        exact hnot _ ht
      | inr hbad =>
        have ⟨_, digits, ht, _⟩ := hbad
        exact hnot _ ht
    have hvalue : filterIntValue l ⟨allowOctal, allowHex, none, none⟩ (t ++ blanks) t =
        phpFilterParseInt l t := by
      cases t with
      | nil => exact absurd rfl hne
      | cons c rest =>
        have hc : c ≠ ch '0' := fun h => hnot rest (by rw [h])
        unfold filterIntValue
        rw [cons_append, headD_cons, if_neg hc]
    refine iff_of_true (fun v => ?_) hgood
    rw [hvalue, intText_iff hnot]

theorem trim_eq_nil_iff (value : List UInt8) :
    trim value = [] ↔ value.dropWhile filterBlank = [] := by
  unfold trim
  rw [rdropWhile_eq_nil_iff]
  constructor
  · intro hall
    by_contra hne
    have hhead := head_dropWhile_not filterBlank hne
    rw [hall _ (List.head_mem hne)] at hhead
    exact nomatch hhead
  · intro h c hc
    rw [h] at hc
    exact nomatch hc

theorem phpFilterInt_eq (allowOctal allowHex : Bool) (value : List UInt8) :
    ∃ blanks, (∀ c ∈ blanks, filterBlank c = true) ∧
      phpFilterInt l ⟨allowOctal, allowHex, none, none⟩ value =
        if trim value = [] then none
        else filterIntValue l ⟨allowOctal, allowHex, none, none⟩ (trim value ++ blanks)
          (trim value) := by
  refine ⟨(value.dropWhile filterBlank).rtakeWhile filterBlank,
    fun c hc => mem_rtakeWhile_imp hc, ?_⟩
  have hjoin : trim value ++ (value.dropWhile filterBlank).rtakeWhile filterBlank =
      value.dropWhile filterBlank := rdropWhile_append_rtakeWhile
  rw [hjoin]
  unfold phpFilterInt
  by_cases hempty : trim value = []
  · have hblank := (trim_eq_nil_iff value).mp hempty
    rw [if_pos hempty]
    split
    · rfl
    · rw [hblank]
      rfl
  · have hblank : value.dropWhile filterBlank ≠ [] :=
      fun h => hempty ((trim_eq_nil_iff value).mpr h)
    have hvalue : value.length ≠ 0 := by
      intro h
      rw [length_eq_zero_iff] at h
      rw [h] at hblank
      exact hblank rfl
    have hlen := length_pos_iff.mpr hblank
    rw [if_neg hempty, if_neg hvalue]
    show (if _ then _ else match filterIntValue l _ (value.dropWhile filterBlank) (trim value) with
      | none => none
      | some ctxValue => _) = _
    rw [if_neg (by omega)]
    cases filterIntValue l ⟨allowOctal, allowHex, none, none⟩ (value.dropWhile filterBlank)
      (trim value) with
    | none => rfl
    | some ctxValue => rfl

/-- The filter accepts what denotes a `long`, and returns it, unless the text is `0x` without a
    digit or denotes in octal or hexadecimal a number that only an `unsigned long` holds. -/
theorem phpFilterInt_exact_iff (l : SizeofLong) (allowOctal allowHex : Bool)
    (value : List UInt8) :
    (∀ v, phpFilterInt l ⟨allowOctal, allowHex, none, none⟩ value = some v ↔
        IntText l allowOctal allowHex (trim value) v) ↔
      ¬ Misread l allowOctal allowHex (trim value) := by
  have ⟨blanks, hblanks, hvalue⟩ := phpFilterInt_eq (l := l) allowOctal allowHex value
  rw [hvalue]
  by_cases hempty : trim value = []
  · rw [if_pos hempty, hempty]
    have hnot : ∀ rest, ([] : List UInt8) ≠ ch '0' :: rest := fun rest h => nomatch h
    refine iff_of_true (fun v => ?_) ?_
    · rw [intText_iff hnot]
      exact Iff.rfl
    · intro hbad
      cases hbad with
      | inl hbad =>
        have ⟨_, x, digits, _, ht, _⟩ := hbad
        exact hnot _ ht
      | inr hbad =>
        have ⟨_, digits, ht, _⟩ := hbad
        exact hnot _ ht
  · rw [if_neg hempty]
    exact filterIntValue_settles allowOctal allowHex hblanks hempty

/-- `0xFFFFFFFFFFFFFFFF`, and `0x`. -/
theorem phpFilterInt_misreads :
    (phpFilterInt .eight ⟨false, true, none, none⟩
          (ch '0' :: ch 'x' :: replicate 16 (ch 'F')) = some (-1) ∧
      ¬ IntText .eight false true (trim (ch '0' :: ch 'x' :: replicate 16 (ch 'F'))) (-1)) ∧
      phpFilterInt .eight ⟨false, true, none, none⟩ [ch '0', ch 'x'] = some 0 ∧
      ¬ IntText .eight false true (trim [ch '0', ch 'x']) 0 := by
  have hlarge : trim (ch '0' :: ch 'x' :: replicate 16 (ch 'F')) =
      ch '0' :: ch 'x' :: replicate 16 (ch 'F') := by decide
  have hprefix : trim [ch '0', ch 'x'] = [ch '0', ch 'x'] := by decide
  rw [hlarge, hprefix, intText_zero_iff, intText_zero_iff]
  refine ⟨⟨by decide, fun h => ?_⟩, by decide, fun h => ?_⟩
  · have ⟨_, x, digits, _, _, _, _, _, hv⟩ :=
      (h.resolve_left fun hnil => nomatch hnil.1).resolve_left fun hoctal => nomatch hoctal.1
    omega
  · have ⟨_, x, digits, hrest, _, hne, _⟩ :=
      (h.resolve_left fun hnil => nomatch hnil.1).resolve_left fun hoctal => nomatch hoctal.1
    exact hne (List.cons.inj hrest).2.symm

end Php53.Filter
