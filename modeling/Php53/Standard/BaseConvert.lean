import Php53.Zend.Decimal
import Mathlib.Data.Nat.Digits.Defs
import Mathlib.Tactic.Ring

/-!
# BaseConvert — numbers in the bases 2 to 36

`_php_math_basetolong` and `_php_math_basetozval` read a number, `_php_math_longtobase` writes one.
The argument is a string of bytes or a `long` already (`Z_TYPE_P` is checked before), a `long` has
64 bits and a sum that does not fit wraps around.
-/

namespace Php53.Standard

open Php53.Zend

def charValue (c : UInt8) : Option ℕ :=
  if ch '0' ≤ c ∧ c ≤ ch '9' then some (c.toNat - 48)
  else if ch 'A' ≤ c ∧ c ≤ ch 'Z' then some (c.toNat - 65 + 10)
  else if ch 'a' ≤ c ∧ c ≤ ch 'z' then some (c.toNat - 97 + 10)
  else none

/-- What `_php_math_basetolong` returns, with the rest of the string that it gives to its warning
"Number '%s' is too big to fit in long" when it warns; `%s` prints it up to its first NUL. -/
structure BaseToLong where
  num : BitVec 64
  warning : Option (List UInt8)
  deriving DecidableEq

/-- The loop of `_php_math_basetolong`. -/
def basetolongLoop (base : ℕ) : List UInt8 → BitVec 64 → BaseToLong
  | [], num => ⟨num, none⟩
  | c :: s, num =>
    let digit := (charValue c).getD base
    if digit ≥ base then basetolongLoop base s num
    else
      let onum := num
      let num := num * BitVec.ofNat 64 base + BitVec.ofNat 64 digit
      if onum.slt num then basetolongLoop base s num
      else ⟨longMax, some s⟩

def basetolong (s : List UInt8) (base : ℕ) : BaseToLong :=
  if base < 2 ∨ base > 36 then ⟨0, none⟩ else basetolongLoop base s 0

/-- The arithmetic on doubles that `_php_math_basetozval` uses. -/
structure DoubleArith (F : Type) where
  ofLong : BitVec 64 → F
  /-- `fnum * base + c`. -/
  step : F → ℕ → ℕ → F

/-- The zval that `_php_math_basetozval` fills in. -/
inductive BasedNumber (F : Type) where
  | long (num : BitVec 64)
  | double (fnum : F)

/-- The loop of `_php_math_basetozval`: `fnum` is there from the switch to mode 1 on. -/
def basetozvalLoop {F : Type} (fp : DoubleArith F) (base : ℕ) (cutoff : BitVec 64) (cutlim : ℕ) :
    List UInt8 → BitVec 64 → Option F → BasedNumber F
  | [], num, none => .long num
  | [], _, some fnum => .double fnum
  | c :: s, num, fnum =>
    match charValue c with
    | none => basetozvalLoop fp base cutoff cutlim s num fnum
    | some c =>
      if c ≥ base then basetozvalLoop fp base cutoff cutlim s num fnum
      else
        match fnum with
        | none =>
          if num.slt cutoff ∨ (num = cutoff ∧ c ≤ cutlim) then
            basetozvalLoop fp base cutoff cutlim s
              (num * BitVec.ofNat 64 base + BitVec.ofNat 64 c) none
          else basetozvalLoop fp base cutoff cutlim s num (some (fp.step (fp.ofLong num) base c))
        | some fnum => basetozvalLoop fp base cutoff cutlim s num (some (fp.step fnum base c))

/-- `none` is FAILURE. -/
def basetozval {F : Type} (fp : DoubleArith F) (s : List UInt8) (base : ℕ) :
    Option (BasedNumber F) :=
  if base < 2 ∨ base > 36 then none
  else
    some (basetozvalLoop fp base (BitVec.ofNat 64 (longMax.toNat / base)) (longMax.toNat % base) s
      0 none)

/-- The characters that `_php_math_longtobase` writes. -/
def baseDigits : List UInt8 :=
  [48, 49, 50, 51, 52, 53, 54, 55, 56, 57, 97, 98, 99, 100, 101, 102, 103, 104, 105, 106, 107, 108,
    109, 110, 111, 112, 113, 114, 115, 116, 117, 118, 119, 120, 121, 122]

/-- `*--ptr = digits[value % base]` and the loop around it, with `room + 1` places in front of
`ptr`; `written` is what stands from `ptr` on. -/
def longtobaseLoop (base : ℕ) : ℕ → ℕ → List UInt8 → List UInt8
  | 0, value, written => baseDigits.getD (value % base) 0 :: written
  | room + 1, value, written =>
    let written := baseDigits.getD (value % base) 0 :: written
    if value / base ≠ 0 then longtobaseLoop base room (value / base) written else written

/-- `buf` has a place for each bit of an `unsigned long` and one for the NUL. -/
def longtobase (l : BitVec 64) (base : ℕ) : List UInt8 :=
  if base < 2 ∨ base > 36 then [] else longtobaseLoop base 63 l.toNat []

def baseDigit (base : ℕ) (c : UInt8) : Option ℕ := (charValue c).filter (· < base)

def digitsOf (base : ℕ) (s : List UInt8) : List ℕ := s.filterMap (baseDigit base)

def baseValue (base : ℕ) (digits : List ℕ) : ℕ := Nat.ofDigits base digits.reverse

variable {F : Type} {fp : DoubleArith F} {base : ℕ} {c : UInt8} {s : List UInt8} {d : ℕ}

@[simp] theorem baseValue_nil : baseValue base [] = 0 := rfl

theorem baseValue_concat (digits : List ℕ) (d : ℕ) :
    baseValue base (digits ++ [d]) = baseValue base digits * base + d := by
  unfold baseValue
  rw [List.reverse_append, List.reverse_singleton, List.singleton_append, Nat.ofDigits_cons]
  ring

theorem baseValue_append (digits more : List ℕ) :
    baseValue base (digits ++ more) =
      baseValue base digits * base ^ more.length + baseValue base more := by
  unfold baseValue
  rw [List.reverse_append, Nat.ofDigits_append, List.length_reverse]
  ring

theorem baseValue_le_append (hbase : 0 < base) (digits more : List ℕ) :
    baseValue base digits ≤ baseValue base (digits ++ more) := by
  have hpow : 1 ≤ base ^ more.length := Nat.one_le_pow _ _ hbase
  calc baseValue base digits ≤ baseValue base digits * base ^ more.length :=
        Nat.le_mul_of_pos_right _ hpow
    _ ≤ baseValue base (digits ++ more) := by rw [baseValue_append]; omega

theorem digitsOf_nil : digitsOf base [] = [] := rfl

theorem digitsOf_cons_none (h : baseDigit base c = none) :
    digitsOf base (c :: s) = digitsOf base s :=
  List.filterMap_cons_none h

theorem digitsOf_cons_some (h : baseDigit base c = some d) :
    digitsOf base (c :: s) = d :: digitsOf base s :=
  List.filterMap_cons_some h

theorem baseDigit_eq (base : ℕ) (c : UInt8) :
    baseDigit base c = if (charValue c).getD base ≥ base then none else charValue c := by
  unfold baseDigit
  cases charValue c with
  | none => simp
  | some d =>
    by_cases hd : d < base
    · simp [Option.filter, hd]
    · simp [Option.filter, hd]

theorem toInt_of_le_longMax {v : ℕ} (h : v ≤ longMax.toNat) : (BitVec.ofNat 64 v).toInt = v := by
  rw [longMax_toNat] at h
  rw [BitVec.toInt_ofNat', Int.bmod_eq_of_le (by omega) (by omega)]

theorem ofNat_mul_add (v d : ℕ) :
    BitVec.ofNat 64 v * BitVec.ofNat 64 base + BitVec.ofNat 64 d =
      BitVec.ofNat 64 (v * base + d) := by
  rw [BitVec.ofNat_add, BitVec.ofNat_mul]

theorem cutoff_iff {m v : ℕ} (hd : d < base) :
    v < m / base ∨ (v = m / base ∧ d ≤ m % base) ↔ v * base + d ≤ m := by
  have hm := Nat.div_add_mod' m base
  constructor
  · rintro (hlt | ⟨heq, hle⟩)
    · have hstep : (v + 1) * base ≤ m / base * base := Nat.mul_le_mul_right base hlt
      rw [add_mul, one_mul] at hstep
      omega
    · rw [heq]
      omega
  · intro hle
    have hq : v ≤ m / base := by
      rw [Nat.le_div_iff_mul_le (by omega)]
      omega
    by_cases heq : v = m / base
    · rw [← heq] at hm
      exact .inr ⟨heq, by omega⟩
    · exact .inl (by omega)

theorem cutoff_test {v : ℕ} (hv : v ≤ longMax.toNat) (hd : d < base) :
    ((BitVec.ofNat 64 v).slt (BitVec.ofNat 64 (longMax.toNat / base)) ∨
      (BitVec.ofNat 64 v = BitVec.ofNat 64 (longMax.toNat / base) ∧ d ≤ longMax.toNat % base)) ↔
    v * base + d ≤ longMax.toNat := by
  have hcut : longMax.toNat / base ≤ longMax.toNat := Nat.div_le_self _ _
  have hslt : (BitVec.ofNat 64 v).slt (BitVec.ofNat 64 (longMax.toNat / base)) ↔
      v < longMax.toNat / base := by
    rw [BitVec.slt_iff_toInt_lt, toInt_of_le_longMax hv, toInt_of_le_longMax hcut, Int.ofNat_lt]
  have heq : BitVec.ofNat 64 v = BitVec.ofNat 64 (longMax.toNat / base) ↔
      v = longMax.toNat / base := by
    rw [← BitVec.toInt_inj, toInt_of_le_longMax hv, toInt_of_le_longMax hcut, Int.natCast_inj]
  rw [hslt, heq]
  exact cutoff_iff hd

/-- A `long` with the exact value, or a double for a value that is no `long`. -/
def IsBased (value : ℕ) : BasedNumber F → Prop
  | .long num => value ≤ longMax.toNat ∧ num = BitVec.ofNat 64 value
  | .double _ => longMax.toNat < value

theorem basetozvalLoop_based (hbase : 0 < base) (digits : List ℕ) (fnum : Option F)
    (hmode : (fnum = none ∧ baseValue base digits ≤ longMax.toNat) ∨
      (fnum ≠ none ∧ longMax.toNat < baseValue base digits)) :
    ∀ num, (fnum = none → num = BitVec.ofNat 64 (baseValue base digits)) →
      IsBased (baseValue base (digits ++ digitsOf base s))
        (basetozvalLoop fp base (BitVec.ofNat 64 (longMax.toNat / base)) (longMax.toNat % base) s
          num fnum) := by
  induction s generalizing digits fnum with
  | nil =>
    intro num hnum
    rw [digitsOf_nil, List.append_nil]
    rcases hmode with ⟨rfl, hle⟩ | ⟨hsome, hlt⟩
    · exact ⟨hle, hnum rfl⟩
    · cases fnum with
      | none => exact absurd rfl hsome
      | some f => exact hlt
  | cons c s ih =>
    intro num hnum
    have hdigit := baseDigit_eq base c
    rw [basetozvalLoop]
    cases hc : charValue c with
    | none =>
      rw [hc, ite_self] at hdigit
      rw [digitsOf_cons_none hdigit]
      exact ih digits fnum hmode num hnum
    | some d =>
      rw [hc, Option.getD_some] at hdigit
      show IsBased _ (if d ≥ base then _ else _)
      by_cases hd : d ≥ base
      · rw [if_pos hd] at hdigit ⊢
        rw [digitsOf_cons_none hdigit]
        exact ih digits fnum hmode num hnum
      · rw [if_neg hd] at hdigit ⊢
        rw [digitsOf_cons_some hdigit, List.append_cons]
        have hvalue := @baseValue_concat base digits d
        have hgrow := baseValue_le_append hbase digits [d]
        rcases hmode with ⟨rfl, hle⟩ | ⟨hsome, hlt⟩
        · have htest := cutoff_test hle (Nat.lt_of_not_le hd)
          rw [hnum rfl]
          show IsBased _ (if _ then _ else _)
          by_cases hfits : baseValue base digits * base + d ≤ longMax.toNat
          · rw [if_pos (htest.mpr hfits), ofNat_mul_add, ← hvalue]
            exact ih _ none (.inl ⟨rfl, by omega⟩) _ fun _ => rfl
          · rw [if_neg fun h => hfits (htest.mp h)]
            exact ih _ _ (.inr ⟨Option.some_ne_none _, by omega⟩) _ fun h => by cases h
        · cases fnum with
          | none => exact absurd rfl hsome
          | some f => exact ih _ _ (.inr ⟨Option.some_ne_none _, by omega⟩) _ fun h => by cases h

theorem basetozval_based (hlo : 2 ≤ base) (hhi : base ≤ 36) (s : List UInt8) :
    ∃ r, basetozval fp s base = some r ∧ IsBased (baseValue base (digitsOf base s)) r := by
  unfold basetozval
  rw [if_neg (by omega)]
  refine ⟨_, rfl, ?_⟩
  exact basetozvalLoop_based (by omega) [] none (.inl ⟨rfl, Nat.zero_le _⟩) 0 fun _ => rfl

theorem baseDigit_baseDigits (hhi : base ≤ 36) (hd : d < base) :
    baseDigit base (baseDigits.getD d 0) = some d := by
  have hchar : ∀ d < 36, charValue (baseDigits.getD d 0) = some d := by decide
  rw [baseDigit_eq, hchar d (by omega), Option.getD_some, if_neg (by omega)]

theorem baseValue_single (d : ℕ) : baseValue base [d] = d := by
  have hone := @baseValue_concat base [] d
  rwa [List.nil_append, baseValue_nil, zero_mul, zero_add] at hone

theorem digitsOf_longtobaseLoop (hlo : 2 ≤ base) (hhi : base ≤ 36) {room value : ℕ}
    (hfits : value < base ^ (room + 1)) (written : List UInt8) :
    ∃ digits, baseValue base digits = value ∧
      digitsOf base (longtobaseLoop base room value written) = digits ++ digitsOf base written := by
  induction room generalizing value written with
  | zero =>
    have hdigit := baseDigit_baseDigits hhi (Nat.mod_lt value (show 0 < base by omega))
    have hsmall : value % base = value := Nat.mod_eq_of_lt (by rwa [zero_add, pow_one] at hfits)
    refine ⟨[value % base], ?_, digitsOf_cons_some hdigit⟩
    rw [baseValue_single, hsmall]
  | succ room ih =>
    have hdigit := baseDigit_baseDigits hhi (Nat.mod_lt value (show 0 < base by omega))
    have hdiv := Nat.div_add_mod' value base
    rw [longtobaseLoop]
    by_cases hzero : value / base = 0
    · rw [if_neg (not_not.mpr hzero)]
      refine ⟨[value % base], ?_, digitsOf_cons_some hdigit⟩
      rw [baseValue_single]
      rw [hzero] at hdiv
      omega
    · rw [if_pos hzero]
      have hless : value / base < base ^ (room + 1) := by
        rw [Nat.div_lt_iff_lt_mul (by omega), ← pow_succ]
        exact hfits
      have ⟨digits, hvalue, hdigits⟩ := ih hless (baseDigits.getD (value % base) 0 :: written)
      refine ⟨digits ++ [value % base], ?_, ?_⟩
      · rw [baseValue_concat, hvalue, hdiv]
      · rw [hdigits, digitsOf_cons_some hdigit, List.append_cons]

theorem baseValue_longtobase (hlo : 2 ≤ base) (hhi : base ≤ 36) (l : BitVec 64) :
    baseValue base (digitsOf base (longtobase l base)) = l.toNat := by
  have hfits : l.toNat < base ^ (63 + 1) :=
    lt_of_lt_of_le l.isLt (Nat.pow_le_pow_left hlo 64)
  have ⟨digits, hvalue, hdigits⟩ := digitsOf_longtobaseLoop hlo hhi hfits []
  unfold longtobase
  rw [if_neg (by omega), hdigits, digitsOf_nil, List.append_nil, hvalue]

theorem basetozval_longtobase (hlo : 2 ≤ base) (hhi : base ≤ 36) {l : BitVec 64}
    (hl : 0 ≤ l.toInt) : basetozval fp (longtobase l base) base = some (.long l) := by
  have ⟨r, hr, hbased⟩ := @basetozval_based F fp base hlo hhi (longtobase l base)
  rw [baseValue_longtobase hlo hhi] at hbased
  have hle : l.toNat ≤ longMax.toNat := by
    have hint := BitVec.toInt_eq_toNat_cond l
    rw [longMax_toNat]
    split at hint <;> omega
  cases r with
  | long num =>
    have hnum := hbased.2
    rw [BitVec.ofNat_toNat, BitVec.setWidth_eq] at hnum
    rw [hr, hnum]
  | double f => exact absurd hle (Nat.not_le_of_lt hbased)

/-- The test `num > onum` after the digit `d` behind `digits`: the value, reduced to a `long`, has
grown. -/
def Grows (base : ℕ) (digits : List ℕ) (d : ℕ) : Prop :=
  (BitVec.ofNat 64 (baseValue base digits)).slt
    (BitVec.ofNat 64 (baseValue base (digits ++ [d])))

instance (digits : List ℕ) (d : ℕ) : Decidable (Grows base digits d) :=
  inferInstanceAs (Decidable (_ = true))

theorem basetolongLoop_skip (h : baseDigit base c = none) (num : BitVec 64) :
    basetolongLoop base (c :: s) num = basetolongLoop base s num := by
  have hdigit := baseDigit_eq base c
  rw [basetolongLoop]
  by_cases hd : (charValue c).getD base ≥ base
  · exact if_pos hd
  · rw [if_neg hd, h] at hdigit
    rw [← hdigit, Option.getD_none] at hd
    exact absurd le_rfl hd

theorem basetolongLoop_digit (h : baseDigit base c = some d) (digits : List ℕ) :
    basetolongLoop base (c :: s) (BitVec.ofNat 64 (baseValue base digits)) =
      if Grows base digits d then
        basetolongLoop base s (BitVec.ofNat 64 (baseValue base (digits ++ [d])))
      else ⟨longMax, some s⟩ := by
  have hdigit := baseDigit_eq base c
  rw [basetolongLoop]
  by_cases hd : (charValue c).getD base ≥ base
  · rw [if_pos hd, h] at hdigit
    cases hdigit
  · rw [if_neg hd, h] at hdigit
    rw [if_neg hd, ← hdigit, Option.getD_some, ofNat_mul_add, ← baseValue_concat]
    rfl

theorem basetolongLoop_eq (s : List UInt8) (digits : List ℕ) :
    ((∀ pre d post, digitsOf base s = pre ++ d :: post → Grows base (digits ++ pre) d) ∧
      basetolongLoop base s (BitVec.ofNat 64 (baseValue base digits)) =
        ⟨BitVec.ofNat 64 (baseValue base (digits ++ digitsOf base s)), none⟩) ∨
    ((∃ pre d post, digitsOf base s = pre ++ d :: post ∧ ¬ Grows base (digits ++ pre) d) ∧
      ∃ rest, basetolongLoop base s (BitVec.ofNat 64 (baseValue base digits)) =
        ⟨longMax, some rest⟩) := by
  induction s generalizing digits with
  | nil =>
    rw [digitsOf_nil, List.append_nil]
    exact .inl ⟨fun pre d post h => by simp at h, rfl⟩
  | cons c s ih =>
    cases hdigit : baseDigit base c with
    | none =>
      rw [basetolongLoop_skip hdigit, digitsOf_cons_none hdigit]
      exact ih digits
    | some d =>
      rw [basetolongLoop_digit hdigit, digitsOf_cons_some hdigit]
      by_cases hgrows : Grows base digits d
      · rw [if_pos hgrows]
        rcases ih (digits ++ [d]) with ⟨hall, heq⟩ | ⟨⟨pre, e, post, hsplit, hnot⟩, hrest⟩
        · rw [List.append_cons digits d (digitsOf base s)]
          refine .inl ⟨?_, heq⟩
          intro pre e post hsplit
          cases pre with
          | nil =>
            have ⟨hde, _⟩ := List.cons.inj hsplit
            rwa [List.append_nil, ← hde]
          | cons e' pre =>
            have ⟨hde, hrest⟩ := List.cons.inj hsplit
            rw [← hde, List.append_cons]
            exact hall pre e post hrest
        · refine .inr ⟨⟨d :: pre, e, post, by rw [hsplit]; rfl, ?_⟩, hrest⟩
          rwa [List.append_cons]
      · rw [if_neg hgrows]
        refine .inr ⟨⟨[], d, digitsOf base s, rfl, ?_⟩, s, rfl⟩
        rwa [List.append_nil]

theorem grows_iff (hlo : 2 ≤ base) {digits : List ℕ}
    (hle : baseValue base (digits ++ [d]) ≤ longMax.toNat) :
    Grows base digits d ↔ baseValue base (digits ++ [d]) ≠ 0 := by
  have hle' := baseValue_le_append (show 0 < base by omega) digits [d]
  unfold Grows
  rw [BitVec.slt_iff_toInt_lt, toInt_of_le_longMax hle, toInt_of_le_longMax (by omega),
    Int.ofNat_lt, baseValue_concat]
  have htwice : baseValue base digits * 2 ≤ baseValue base digits * base :=
    Nat.mul_le_mul_left _ hlo
  omega

theorem baseValue_cons_ne_zero (hbase : 0 < base) (hd : d ≠ 0) (digits : List ℕ) :
    baseValue base (d :: digits) ≠ 0 := by
  have hle := baseValue_le_append hbase [d] digits
  rw [baseValue_single, List.singleton_append] at hle
  omega

/-- The exact value of a value that is a `long`, `LONG_MAX` and a warning for another one. -/
def ExactToLong (value : ℕ) (r : BaseToLong) : Prop :=
  if value ≤ longMax.toNat then r = ⟨BitVec.ofNat 64 value, none⟩
  else r.num = longMax ∧ r.warning ≠ none

/-- A value that is a `long` does not start with the digit 0; at a digit of any other value the
value so far, reduced to a `long`, does not grow. -/
def DetectedSize (base : ℕ) (digits : List ℕ) : Prop :=
  if baseValue base digits ≤ longMax.toNat then digits.head? ≠ some 0
  else ∃ pre d post, digits = pre ++ d :: post ∧ ¬ Grows base pre d

theorem basetolong_exact_iff (hlo : 2 ≤ base) (hhi : base ≤ 36) (s : List UInt8) :
    ExactToLong (baseValue base (digitsOf base s)) (basetolong s base) ↔
      DetectedSize base (digitsOf base s) := by
  have hloop := @basetolongLoop_eq base s []
  simp only [List.nil_append] at hloop
  have hstart :
      basetolong s base = basetolongLoop base s (BitVec.ofNat 64 (baseValue base [])) := by
    unfold basetolong
    rw [if_neg (by omega)]
    rfl
  rw [hstart]
  unfold ExactToLong DetectedSize
  by_cases hle : baseValue base (digitsOf base s) ≤ longMax.toNat
  · rw [if_pos hle, if_pos hle]
    rcases hloop with ⟨hall, heq⟩ | ⟨⟨pre, d, post, hsplit, hnot⟩, rest, heq⟩
    · rw [heq]
      refine ⟨fun _ hhead => ?_, fun _ => rfl⟩
      -- a first digit 0 does not let the value grow
      have ⟨tail, htail⟩ := List.head?_eq_some_iff.mp hhead
      have hgrows := hall [] 0 tail htail
      have hzero : baseValue base ([] ++ [0]) = 0 := baseValue_single 0
      rw [grows_iff hlo (by rw [hzero]; exact Nat.zero_le _)] at hgrows
      exact hgrows hzero
    · rw [heq]
      refine ⟨fun h => absurd (congrArg BaseToLong.warning h) (Option.some_ne_none rest),
        fun hhead => ?_⟩
      have hpart := baseValue_le_append (show 0 < base by omega) (pre ++ [d]) post
      rw [← List.append_cons, ← hsplit] at hpart
      rw [grows_iff hlo (by omega), not_not] at hnot
      cases pre with
      | nil =>
        rw [List.nil_append, baseValue_single] at hnot
        rw [hsplit, hnot] at hhead
        exact absurd rfl hhead
      | cons e pre =>
        have he : e ≠ 0 := by
          intro he
          rw [hsplit, he] at hhead
          exact hhead rfl
        exact absurd hnot (baseValue_cons_ne_zero (by omega) he _)
  · rw [if_neg hle, if_neg hle]
    rcases hloop with ⟨hall, heq⟩ | ⟨hwarned, rest, heq⟩
    · rw [heq]
      refine ⟨fun h => absurd rfl h.2, fun ⟨pre, d, post, hsplit, hnot⟩ => ?_⟩
      exact absurd (hall pre d post hsplit) hnot
    · rw [heq]
      exact ⟨fun _ => hwarned, fun _ => ⟨rfl, Option.some_ne_none _⟩⟩

/-- Both readers are exact on `s`, and `_php_math_basetozval` reads back every `long` that is not
negative. -/
def ConvertsExactly (fp : DoubleArith F) (base : ℕ) (s : List UInt8) : Prop :=
  (∃ r, basetozval fp s base = some r ∧ IsBased (baseValue base (digitsOf base s)) r) ∧
  (∀ l : BitVec 64, 0 ≤ l.toInt → basetozval fp (longtobase l base) base = some (.long l)) ∧
  ExactToLong (baseValue base (digitsOf base s)) (basetolong s base)

/-- The reader of `_php_math_basetozval` is always exact, the one of `_php_math_basetolong` exactly
on the strings that its test sorts rightly. -/
theorem converts_exactly_iff (fp : DoubleArith F) (hlo : 2 ≤ base) (hhi : base ≤ 36)
    (s : List UInt8) : ConvertsExactly fp base s ↔ DetectedSize base (digitsOf base s) := by
  constructor
  · rintro ⟨_, _, hexact⟩
    exact (basetolong_exact_iff hlo hhi s).mp hexact
  · intro hdetected
    refine ⟨basetozval_based hlo hhi s, fun l hl => basetozval_longtobase hlo hhi hl, ?_⟩
    exact (basetolong_exact_iff hlo hhi s).mpr hdetected

def noDoubles : DoubleArith Unit := ⟨fun _ => (), fun _ _ _ => ()⟩

theorem converts_exactly_iff_dec : ConvertsExactly noDoubles 10 [49, 48] ↔ DetectedSize 10 [1, 0] :=
  converts_exactly_iff noDoubles (by decide) (by decide) [49, 48]

/-- "0" is read as `LONG_MAX`, with a warning. -/
theorem zero_is_too_big : ¬ ConvertsExactly noDoubles 10 [48] := by
  rintro ⟨_, _, hexact⟩
  have hread : basetolong [48] 10 = ⟨longMax, some []⟩ := by decide
  rw [hread] at hexact
  unfold ExactToLong at hexact
  rw [if_pos (by decide)] at hexact
  exact absurd (congrArg BaseToLong.warning hexact) (by decide)

end Php53.Standard
