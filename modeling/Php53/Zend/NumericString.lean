import Mathlib.Data.Nat.Digits.Lemmas
import Php53.Zend.Hash.Symtable

/-!
# NumericString — the scanner behind every conversion of a string to a number

`is_numeric_string` classifies a text as a `long`, a `double` or no number.  `ptr` is what is left
of the string from there on, `&ptr[-digits]` the end of the string that is `digits` bytes longer, and
the byte behind a string is its NUL.  A `long` has 64 bits; what `zend_strtod` and `zend_hex_strtod`
return is a parameter, where they stop is modelled.
-/

namespace Php53.Zend

open List

variable {c : UInt8} {base k : Nat} {ds : List UInt8}

/-- `ZEND_IS_XDIGIT`, the letters among the hexadecimal digits -/
def isXdigit (c : UInt8) : Bool :=
  (ch 'A' ≤ c && c ≤ ch 'F') || (ch 'a' ≤ c && c ≤ ch 'f')

/-- The white space that is skipped, without `isspace`. -/
def isBlankByte (c : UInt8) : Bool :=
  c = ch ' ' || c = ch '\t' || c = ch '\n' || c = ch '\r' || c = 11 || c = 12

def isSign (c : UInt8) : Bool := c = ch '-' || c = ch '+'

def isDigitIn (base : Nat) (c : UInt8) : Bool := isDigit c || (base = 16 && isXdigit c)

def digitValue (c : UInt8) : Nat :=
  if isDigit c then c.toNat - 48
  else if ch 'A' ≤ c ∧ c ≤ ch 'F' then c.toNat - 55
  else c.toNat - 87

def numberIn (base : Nat) (digits : List UInt8) : Nat :=
  Nat.ofDigits base (digits.map digitValue).reverse

def longMinDigits : List UInt8 := "9223372036854775808".toList.map ch

/-- `strcmp`, on the bytes before the NUL -/
def strcmp (s t : List UInt8) : Ordering :=
  List.compareLex compare (s.takeWhile (· ≠ 0)) (t.takeWhile (· ≠ 0))

/-- `strtol` in base ten or sixteen, on a text without leading white space; saturating. -/
def strtol (base : Nat) (str : List UInt8) : Int :=
  let s := if isSign (str.headD 0) then str.tail else str
  let s := if base = 16 ∧ s.headD 0 = ch '0' ∧ (s.tail.headD 0 = ch 'x' ∨ s.tail.headD 0 = ch 'X') ∧
    isDigitIn 16 ((s.drop 2).headD 0) then s.drop 2 else s
  let n : Int := numberIn base (s.takeWhile (isDigitIn base))
  if str.headD 0 = ch '-' then max (-2 ^ 63) (-n) else min (2 ^ 63 - 1) n

/-- `*se` of `zend_strtod`, on a text without leading white space -/
def strtodEnd (s00 : List UInt8) : List UInt8 :=
  let s := if isSign (s00.headD 0) then s00.tail else s00
  let whole := s.takeWhile isDigit
  let s := s.dropWhile isDigit
  let frac := if s.headD 0 = ch '.' then s.tail.takeWhile isDigit else []
  let s := if s.headD 0 = ch '.' then s.tail.dropWhile isDigit else s
  if whole = [] ∧ frac = [] then s00
  else if s.headD 0 = ch 'e' ∨ s.headD 0 = ch 'E' then
    let e := if isSign (s.tail.headD 0) then s.tail.tail else s.tail
    if isDigit (e.headD 0) then e.dropWhile isDigit else s
  else s

/-- `*endptr` of `zend_hex_strtod` -/
def hexStrtodEnd (str : List UInt8) : List UInt8 :=
  let s := if str.headD 0 = ch '0' ∧ (str.tail.headD 0 = ch 'x' ∨ str.tail.headD 0 = ch 'X') then
    str.drop 2 else str
  if isDigitIn 16 (s.headD 0) then s.dropWhile (isDigitIn 16) else str

/-- The result: 0, `IS_LONG` or `IS_DOUBLE` -/
inductive NumericType where
  | zero | isLong | isDouble
  deriving DecidableEq, Repr

/-- The result, what is written to `*lval` and `*dval`, and whether the notice about a value that
is not well formed is raised. -/
structure NumericResult (D : Type) where
  type : NumericType
  lval : Option Int
  dval : Option D
  notice : Bool
  deriving DecidableEq, Repr

/-- `ptr` and `digits` when the loop is left, and whether it went through `process_double`. -/
structure DigitScan where
  ptr : List UInt8
  digits : Nat
  double : Bool
  deriving DecidableEq, Repr

/-- `type = IS_DOUBLE;` -/
def DigitScan.asDouble (sc : DigitScan) : DigitScan := { sc with double := true }

/-- The `for` loop around `check_digits`.  With `stop` there is a `dval`, or no need to check for
a full match: the loop ends at too many digits and at `process_double`.  `atSign` is set where the
loop is entered again on the sign of an exponent, which `*ptr++` skips. -/
def digitsLoop (stop : Bool) (base : Nat) : List UInt8 → Nat → Nat → Bool → DigitScan
  | [], digits, _, _ => ⟨[], digits, false⟩
  | c :: ptr, digits, dpOrE, atSign =>
    if atSign then digitsLoop stop base ptr digits dpOrE false
    else if stop = true ∧ maxLengthOfLong ≤ digits then ⟨c :: ptr, digits, false⟩
    else if isDigitIn base c then digitsLoop stop base ptr (digits + 1) dpOrE false
    else if base = 10 ∧ c = ch '.' ∧ dpOrE < 1 then
      if stop then ⟨c :: ptr, digits, true⟩
      else (digitsLoop stop base ptr digits 1 false).asDouble
    else if base = 10 ∧ (c = ch 'e' ∨ c = ch 'E') ∧ dpOrE < 2 then
      if isSign (ptr.headD 0) then
        -- `ptr = e++`
        if isDigit (ptr.tail.headD 0) then
          if stop then ⟨ptr, digits, true⟩
          else (digitsLoop stop base ptr digits 2 true).asDouble
        else ⟨ptr, digits, false⟩
      else if isDigit (ptr.headD 0) then
        if stop then ⟨c :: ptr, digits, true⟩
        else (digitsLoop stop base ptr digits 2 false).asDouble
      else ⟨c :: ptr, digits, false⟩
    else ⟨c :: ptr, digits, false⟩

example : digitsLoop true 10 [] 3 0 false = ⟨[], 3, false⟩ := by rw [digitsLoop]

section Function

variable {D : Type} (zendStrtod zendHexStrtod : List UInt8 → D)

/-- Behind the scan: `type`, `ptr`, `digits` and `local_dval` are what it left. -/
def numericResult (lval dval : Bool) (allowErrors : Int) (str : List UInt8) (base : Nat)
    (type : NumericType) (ptr : List UInt8) (digits : Nat) (localDval : Option D) :
    NumericResult D :=
  if ptr ≠ [] ∧ allowErrors = 0 then ⟨.zero, none, none, false⟩
  else
    let notice := decide (ptr ≠ [] ∧ allowErrors = -1)
    if type = .isLong then
      let cmp := strcmp (str.drop (str.length - ptr.length - digits)) longMinDigits
      if digits = maxLengthOfLong - 1 ∧ ¬(cmp = .lt ∨ cmp = .eq ∧ str.headD 0 = ch '-') then
        ⟨.isDouble, none, if dval then some (zendStrtod str) else none, notice⟩
      else ⟨.isLong, if lval then some (strtol base str) else none, none, notice⟩
    else ⟨.isDouble, none, localDval, notice⟩

/-- `is_numeric_string`; `lval` and `dval` say whether these pointers are supplied -/
def isNumericString (lval dval : Bool) (allowErrors : Int) (str : List UInt8) : NumericResult D :=
  if str.length = 0 then ⟨.zero, none, none, false⟩
  else
    let str := str.dropWhile isBlankByte
    let ptr := if isSign (str.headD 0) then str.tail else str
    let stop := dval || allowErrors = 1
    let done (base : Nat) := numericResult zendStrtod lval dval allowErrors str base
    -- `process_double`, where the digits are not to be looked at further
    let double (base : Nat) (sc : DigitScan) :=
      if dval then done base .isDouble (strtodEnd str) sc.digits (some (zendStrtod str))
      else done base .isDouble sc.ptr sc.digits none
    if isDigit (ptr.headD 0) then
      let base := if str.length > 2 ∧ str.headD 0 = ch '0' ∧
        (str.tail.headD 0 = ch 'x' ∨ str.tail.headD 0 = ch 'X') then 16 else 10
      let sc := digitsLoop stop base
        ((if base = 16 then ptr.drop 2 else ptr).dropWhile (· = ch '0')) 0 0 false
      if sc.double = true ∨ base = 10 ∧ maxLengthOfLong ≤ sc.digits then double base sc
      else if base = 16 ∧ ¬(sc.digits < 16 ∨ sc.digits = 16 ∧
          (str.drop (str.length - sc.ptr.length - sc.digits)).headD 0 ≤ ch '7') then
        if dval then done base .isDouble (hexStrtodEnd str) sc.digits (some (zendHexStrtod str))
        else done base .isDouble sc.ptr sc.digits none
      else done base .isLong sc.ptr sc.digits none
    else if ptr.headD 0 = ch '.' ∧ isDigit (ptr.tail.headD 0) then
      double 10 (if stop then ⟨ptr, 0, true⟩ else digitsLoop stop 10 ptr.tail 0 1 false)
    else ⟨.zero, none, none, false⟩

end Function

theorem isDigitIn_of_isDigit (base : Nat) (h : isDigit c = true) :
    isDigitIn base c = true := by
  unfold isDigitIn
  rw [h, Bool.true_or]

/-- A digit of base ten, or one of the letters of base 16. -/
theorem digitValue_cases (h : isDigitIn base c = true) :
    (48 ≤ c.toNat ∧ c.toNat ≤ 57 ∧ digitValue c = c.toNat - 48) ∨
      (base = 16 ∧ 10 ≤ digitValue c ∧ digitValue c < 16) := by
  unfold isDigitIn isXdigit at h
  unfold digitValue
  by_cases hd : isDigit c = true
  · rw [if_pos hd]
    have hrange := isDigit_iff.mp hd
    exact .inl ⟨hrange.1, hrange.2, rfl⟩
  · simp only [Bool.not_eq_true] at hd
    simp only [hd, Bool.false_or, Bool.and_eq_true, decide_eq_true_eq, Bool.or_eq_true] at h
    simp only [hd, Bool.false_eq_true, if_false, UInt8.le_iff_toNat_le] at h ⊢
    have hA : (ch 'A').toNat = 65 := rfl
    have hF : (ch 'F').toNat = 70 := rfl
    have ha : (ch 'a').toNat = 97 := rfl
    have hf : (ch 'f').toNat = 102 := rfl
    split <;> omega

theorem digitValue_lt (hbase : base = 10 ∨ base = 16) (h : isDigitIn base c = true)
    : digitValue c < base := by
  have hcases := digitValue_cases h
  omega

theorem digitValue_pos (h : isDigitIn base c = true) (hc : c ≠ ch '0') :
    0 < digitValue c := by
  have hne : c.toNat ≠ 48 := fun he => hc (UInt8.toNat_inj.mp he)
  have hcases := digitValue_cases h
  omega

theorem numberIn_cons (base : Nat) (c : UInt8) (ds : List UInt8) :
    numberIn base (c :: ds) = digitValue c * base ^ ds.length + numberIn base ds := by
  unfold numberIn
  rw [map_cons, reverse_cons, Nat.ofDigits_append, Nat.ofDigits_singleton,
    length_reverse, length_map, Nat.add_comm, Nat.mul_comm]

theorem numberIn_lt (hbase : base = 10 ∨ base = 16) (hds : ∀ c ∈ ds, isDigitIn base c = true)
    : numberIn base ds < base ^ ds.length := by
  have hone : 1 < base := by omega
  have h := Nat.ofDigits_lt_base_pow_length (l := (ds.map digitValue).reverse) hone (by
    intro x hx
    have ⟨c, hc, he⟩ := mem_map.mp (mem_reverse.mp hx)
    rw [← he]
    exact digitValue_lt hbase (hds c hc))
  rw [length_reverse, length_map] at h
  exact h

theorem numberIn_dropZeros (base : Nat) (ds : List UInt8) :
    numberIn base (ds.dropWhile (· = ch '0')) = numberIn base ds := by
  induction ds with
  | nil => rfl
  | cons c ds ih =>
    by_cases hc : c = ch '0'
    · have hzero : digitValue (ch '0') = 0 := by decide
      rw [dropWhile_cons_of_pos (by simpa using hc), ih, numberIn_cons, hc, hzero,
        Nat.zero_mul, Nat.zero_add]
    · rw [dropWhile_cons_of_neg (by simpa using hc)]

theorem le_numberIn (base : Nat) (c : UInt8) (ds : List UInt8) (hk : k ≤ digitValue c) :
    k * base ^ ds.length ≤ numberIn base (c :: ds) := by
  rw [numberIn_cons]
  exact Nat.le_add_right_of_le (Nat.mul_le_mul_right _ hk)

theorem compare_digit {d : UInt8} (hc : isDigit c = true) (hd : isDigit d = true) :
    compare c d = compare (digitValue c) (digitValue d) := by
  have h₁ := isDigit_iff.mp hc
  have h₂ := isDigit_iff.mp hd
  have hvc : digitValue c = c.toNat - 48 := if_pos hc
  have hvd : digitValue d = d.toNat - 48 := if_pos hd
  have hnat : compare c d = compare c.toNat d.toNat := by
    simp only [compare, compareOfLessAndEq, UInt8.lt_iff_toNat_lt, ← UInt8.toNat_inj]
  rw [hvc, hvd, hnat]
  rcases Nat.lt_trichotomy c.toNat d.toNat with hlt | heq | hgt
  · rw [compare_lt_iff_lt.mpr hlt]
    exact (compare_lt_iff_lt.mpr (by omega)).symm
  · rw [compare_eq_iff_eq.mpr heq]
    exact (compare_eq_iff_eq.mpr (by omega)).symm
  · rw [compare_gt_iff_gt.mpr hgt]
    exact (compare_gt_iff_gt.mpr (by omega)).symm

theorem compare_mul_add {n x y : Nat} (hx : x < n) (hy : y < n) (c e : Nat) :
    compare (c * n + x) (e * n + y) = (compare c e).then (compare x y) := by
  rcases Nat.lt_trichotomy c e with hlt | heq | hgt
  · have hstep : (c + 1) * n ≤ e * n := Nat.mul_le_mul_right _ hlt
    have hce : compare c e = .lt := compare_lt_iff_lt.mpr hlt
    rw [Nat.add_mul] at hstep
    rw [hce]
    exact compare_lt_iff_lt.mpr (by omega)
  · have hce : compare c e = .eq := compare_eq_iff_eq.mpr heq
    rw [hce, heq]
    show compare (e * n + x) (e * n + y) = compare x y
    rcases Nat.lt_trichotomy x y with h | h | h
    · rw [compare_lt_iff_lt.mpr h]
      exact compare_lt_iff_lt.mpr (by omega)
    · rw [compare_eq_iff_eq.mpr h]
      exact compare_eq_iff_eq.mpr (by omega)
    · rw [compare_gt_iff_gt.mpr h]
      exact compare_gt_iff_gt.mpr (by omega)
  · have hstep : (e + 1) * n ≤ c * n := Nat.mul_le_mul_right _ hgt
    have hce : compare c e = .gt := compare_gt_iff_gt.mpr hgt
    rw [Nat.add_mul] at hstep
    rw [hce]
    exact compare_gt_iff_gt.mpr (by omega)

theorem compareLex_digits {es : List UInt8} (hlen : ds.length = es.length)
    (hds : ∀ c ∈ ds, isDigit c = true) (hes : ∀ c ∈ es, isDigit c = true) (u v : List UInt8) :
    List.compareLex compare (ds ++ u) (es ++ v) =
      (compare (numberIn 10 ds) (numberIn 10 es)).then (List.compareLex compare u v) := by
  induction ds generalizing es with
  | nil =>
    rw [length_nil] at hlen
    rw [eq_nil_of_length_eq_zero hlen.symm]
    rfl
  | cons c ds ih =>
    cases es with
    | nil => exact absurd hlen (by simp)
    | cons e es =>
      have hlen : ds.length = es.length := by simpa using hlen
      have hds' : ∀ x ∈ ds, isDigit x = true := fun x hx => hds x (mem_cons_of_mem _ hx)
      have hes' : ∀ x ∈ es, isDigit x = true := fun x hx => hes x (mem_cons_of_mem _ hx)
      have hx := numberIn_lt (Or.inl rfl) fun x hx => isDigitIn_of_isDigit 10 (hds' x hx)
      have hy := numberIn_lt (Or.inl rfl) fun x hx => isDigitIn_of_isDigit 10 (hes' x hx)
      rw [← hlen] at hy
      rw [cons_append, cons_append, List.compareLex_cons_cons, ih hlen hds' hes',
        compare_digit (hds c mem_cons_self) (hes e mem_cons_self), numberIn_cons,
        numberIn_cons, ← hlen, compare_mul_add hx hy, Ordering.then_assoc]

/-- What makes a run of digits a `double`: a decimal point, or an exponent with a digit. -/
def opensFraction (tail : List UInt8) : Bool :=
  tail.headD 0 = ch '.' ||
    (decide (tail.headD 0 = ch 'e' ∨ tail.headD 0 = ch 'E') &&
      (isDigit (tail.tail.headD 0) ||
        (isSign (tail.tail.headD 0) && isDigit (tail.tail.tail.headD 0))))

def dangling (tail : List UInt8) : Bool :=
  decide (tail.headD 0 = ch 'e' ∨ tail.headD 0 = ch 'E') && isSign (tail.tail.headD 0)

theorem isSign_not_digit (h : isSign c = true) : isDigit c = false := by
  unfold isSign at h
  simp only [Bool.or_eq_true, decide_eq_true_eq] at h
  cases h with
  | inl h => rw [h]; decide
  | inr h => rw [h]; decide

theorem digitsLoop_append (hds : ∀ c ∈ ds, isDigitIn base c = true) (tail : List UInt8)
    (hk : k + ds.length ≤ maxLengthOfLong) :
    digitsLoop true base (ds ++ tail) k 0 false = digitsLoop true base tail (k + ds.length) 0 false := by
  induction ds generalizing k with
  | nil => rfl
  | cons c ds ih =>
    rw [length_cons] at hk ⊢
    rw [cons_append, digitsLoop, if_neg (by decide), if_neg (by omega), if_pos (hds c mem_cons_self),
      ih (fun x hx => hds x (mem_cons_of_mem _ hx)) (by omega)]
    congr 1
    omega

theorem digitsLoop_full (base : Nat) (s : List UInt8) :
    digitsLoop true base s maxLengthOfLong 0 false = ⟨s, maxLengthOfLong, false⟩ := by
  cases s with
  | nil => rfl
  | cons c s => rw [digitsLoop, if_neg (by decide), if_pos ⟨rfl, Nat.le_refl _⟩]

theorem digitsLoop_many (hds : ∀ c ∈ ds, isDigitIn base c = true) (tail : List UInt8)
    (hlen : maxLengthOfLong ≤ ds.length) :
    (digitsLoop true base (ds ++ tail) 0 0 false).digits = maxLengthOfLong ∧
      (digitsLoop true base (ds ++ tail) 0 0 false).double = false := by
  have htake : (ds.take maxLengthOfLong).length = maxLengthOfLong := length_take_of_le hlen
  have hsplit : ds ++ tail = ds.take maxLengthOfLong ++ (ds.drop maxLengthOfLong ++ tail) := by
    rw [← append_assoc, take_append_drop]
  rw [hsplit, digitsLoop_append (fun x hx => hds x (mem_of_mem_take hx)) _ (by omega),
    Nat.zero_add, htake, digitsLoop_full]
  exact ⟨rfl, rfl⟩

theorem digitsLoop_hex {tail : List UInt8} (hds : ∀ c ∈ ds, isDigitIn 16 c = true)
    (htail : isDigitIn 16 (tail.headD 0) = false) (hlen : ds.length < maxLengthOfLong) :
    digitsLoop true 16 (ds ++ tail) 0 0 false = ⟨tail, ds.length, false⟩ := by
  rw [digitsLoop_append hds tail (by omega), Nat.zero_add]
  cases tail with
  | nil => rfl
  | cons c tail =>
    rw [headD_cons] at htail
    rw [digitsLoop, if_neg (by decide), if_neg (by omega), if_neg (by rw [htail]; decide),
      if_neg (fun h => absurd h.1 (by decide)), if_neg (fun h => absurd h.1 (by decide))]

theorem digitsLoop_tail {tail : List UInt8} (htail : isDigit (tail.headD 0) = false)
    (hk : k < maxLengthOfLong) :
    (opensFraction tail = true → (digitsLoop true 10 tail k 0 false).double = true) ∧
      (opensFraction tail = false → digitsLoop true 10 tail k 0 false =
        ⟨if dangling tail then tail.tail else tail, k, false⟩) := by
  cases tail with
  | nil => exact ⟨fun h => absurd h (by decide), fun _ => rfl⟩
  | cons c tail =>
    rw [headD_cons] at htail
    have hc : isDigitIn 10 c = false := by
      unfold isDigitIn
      rw [htail]
      rfl
    rw [digitsLoop, if_neg (by decide), if_neg (by omega), if_neg (by rw [hc]; decide)]
    by_cases hdot : c = ch '.'
    · rw [if_pos ⟨rfl, hdot, by decide⟩]
      have hopens : opensFraction (c :: tail) = true := by
        unfold opensFraction
        rw [headD_cons, hdot]
        rfl
      rw [hopens]
      exact ⟨fun _ => rfl, fun h => absurd h (by decide)⟩
    · rw [if_neg (fun h => hdot h.2.1)]
      by_cases he : c = ch 'e' ∨ c = ch 'E'
      · rw [if_pos ⟨rfl, he, by decide⟩]
        have hopens : opensFraction (c :: tail) = (isDigit (tail.headD 0) ||
            (isSign (tail.headD 0) && isDigit (tail.tail.headD 0))) := by
          simp only [opensFraction, headD_cons, hdot, decide_false, Bool.false_or,
            tail_cons, he, decide_true, Bool.true_and]
        have hdangling : dangling (c :: tail) = isSign (tail.headD 0) := by
          simp only [dangling, headD_cons, tail_cons, he, decide_true, Bool.true_and]
        rw [hopens, hdangling]
        by_cases hsign : isSign (tail.headD 0) = true
        · rw [if_pos hsign, hsign, isSign_not_digit hsign, Bool.false_or, Bool.true_and]
          by_cases hd : isDigit (tail.tail.headD 0) = true
          · rw [if_pos hd, hd]
            exact ⟨fun _ => rfl, fun h => absurd h (by decide)⟩
          · rw [if_neg hd]
            exact ⟨fun h => absurd h hd, fun _ => rfl⟩
        · rw [if_neg hsign, eq_false_of_ne_true hsign, Bool.false_and, Bool.or_false]
          by_cases hd : isDigit (tail.headD 0) = true
          · rw [if_pos hd, hd]
            exact ⟨fun _ => rfl, fun h => absurd h (by decide)⟩
          · rw [if_neg hd]
            exact ⟨fun h => absurd h hd, fun _ => rfl⟩
      · rw [if_neg (fun h => he h.2.1)]
        have hopens : opensFraction (c :: tail) = false := by
          simp only [opensFraction, headD_cons, hdot, he, decide_false, Bool.false_or,
            Bool.false_and]
        have hdangling : dangling (c :: tail) = false := by
          simp only [dangling, headD_cons, he, decide_false, Bool.false_and]
        rw [hopens, hdangling]
        exact ⟨fun h => absurd h (by decide), fun _ => rfl⟩

end Php53.Zend
