import Mathlib.Data.Bool.AllAny
import Php53.Zend.NumericLiteral

/-!
# NumericVerdict — when `is_numeric_string` is right about integers

The verdict on each kind of text, and the texts of nineteen digits that are misjudged.
-/

namespace Php53.Zend

open List

variable {D : Type} (zendStrtod zendHexStrtod : List UInt8 → D)

variable {allowErrors : Int} {ds rest str : List UInt8} {r : NumericResult D}

def RightVerdict (allowErrors : Int) (rest : List UInt8) (r : NumericResult D) : Prop :=
  (judgedInt allowErrors rest = none → r.type ≠ .isLong) ∧
    ∀ v, judgedInt allowErrors rest = some v →
      (FitsLong v → r.type = .isLong ∧ r.lval = some v) ∧ (¬ FitsLong v → r.type = .isDouble)

theorem classifiesIntegers_iff :
    ClassifiesIntegers allowErrors str r ↔
      RightVerdict allowErrors (str.dropWhile isBlankByte) r := by
  unfold ClassifiesIntegers RightVerdict
  constructor
  · intro ⟨htype, hlval, hdouble⟩
    refine ⟨fun hnone hlong => ?_, fun v hv => ?_⟩
    · have ⟨p, v, hp, hlit, _⟩ := htype.mp hlong
      rw [judgedInt_of_judged hp hlit] at hnone
      exact absurd hnone (by simp)
    · have ⟨p, hp, hlit⟩ := judged_of_judgedInt hv
      exact ⟨fun hfits => ⟨htype.mpr ⟨p, v, hp, hlit, hfits⟩, hlval p v hp hlit hfits⟩,
        hdouble p v hp hlit⟩
  · intro ⟨hnone, hsome⟩
    refine ⟨⟨fun hlong => ?_, fun ⟨p, v, hp, hlit, hfits⟩ => ?_⟩, fun p v hp hlit hfits => ?_,
      fun p v hp hlit hfits => ?_⟩
    · cases hj : judgedInt allowErrors (str.dropWhile isBlankByte) with
      | none => exact absurd hlong (hnone hj)
      | some v =>
        have ⟨p, hp, hlit⟩ := judged_of_judgedInt hj
        by_cases hfits : FitsLong v
        · exact ⟨p, v, hp, hlit, hfits⟩
        · rw [(hsome v hj).2 hfits] at hlong
          exact absurd hlong (by decide)
    · exact ((hsome v (judgedInt_of_judged hp hlit)).1 hfits).1
    · exact ((hsome v (judgedInt_of_judged hp hlit)).1 hfits).2
    · exact (hsome v (judgedInt_of_judged hp hlit)).2 hfits

theorem rightVerdict_of_none (hjudged : judgedInt allowErrors rest = none) (h : r.type ≠ .isLong) :
    RightVerdict allowErrors rest r := by
  unfold RightVerdict
  rw [hjudged]
  exact ⟨fun _ => h, fun v hv => absurd hv (by simp)⟩

theorem rightVerdict_of_judged {refused : Prop} [Decidable refused] {v : Int}
    (hjudged : judgedInt allowErrors rest = if refused then none else some v)
    (hrefused : refused → r.type ≠ .isLong)
    (hfits : ¬ refused → FitsLong v → r.type = .isLong ∧ r.lval = some v)
    (hlarge : ¬ refused → ¬ FitsLong v → r.type = .isDouble) :
    RightVerdict allowErrors rest r := by
  unfold RightVerdict
  rw [hjudged]
  by_cases hall : refused
  · rw [if_pos hall]
    exact ⟨fun _ => hrefused hall, fun v' hv => absurd hv (by simp)⟩
  · rw [if_neg hall]
    refine ⟨fun hnone => absurd hnone (by simp), fun v' hv => ?_⟩
    rw [← Option.some.inj hv]
    exact ⟨hfits hall, hlarge hall⟩

theorem numericResult_double (allowErrors : Int) (rest : List UInt8) (base : Nat)
    (ptr : List UInt8) (digits : Nat) (localDval : Option D) :
    (numericResult zendStrtod true true allowErrors rest base .isDouble ptr digits localDval).type =
      if ptr ≠ [] ∧ allowErrors = 0 then .zero else .isDouble := by
  unfold numericResult
  split
  · rfl
  · rfl

/-- `process_double` -/
def doubleResult (allowErrors : Int) (rest : List UInt8) (digits : Nat) : NumericResult D :=
  numericResult zendStrtod true true allowErrors rest 10 .isDouble (strtodEnd rest) digits
    (some (zendStrtod rest))

/-- `0x` at the start, and something behind it. -/
def hexMark (rest : List UInt8) : Prop :=
  rest.length > 2 ∧ rest.headD 0 = ch '0' ∧
    (rest.tail.headD 0 = ch 'x' ∨ rest.tail.headD 0 = ch 'X')

theorem isNumericString_decimal (allowErrors : Int) (hrest : str.dropWhile isBlankByte = rest)
    (hdigit : isDigit ((unsigned rest).headD 0) = true) (hmark : ¬ hexMark rest) {sc : DigitScan}
    (hsc : digitsLoop true 10 ((unsigned rest).dropWhile (· = ch '0')) 0 0 false = sc) :
    isNumericString zendStrtod zendHexStrtod true true allowErrors str =
      if sc.double = true ∨ maxLengthOfLong ≤ sc.digits then
        doubleResult zendStrtod allowErrors rest sc.digits
      else numericResult zendStrtod true true allowErrors rest 10 .isLong sc.ptr sc.digits none := by
  have hne : str.length ≠ 0 := by
    intro hnil
    rw [eq_nil_of_length_eq_zero hnil] at hrest
    rw [← hrest] at hdigit
    exact absurd hdigit (by decide)
  unfold hexMark at hmark
  unfold isNumericString doubleResult
  unfold unsigned at hdigit hsc
  simp only [if_neg hne, hrest, if_pos hdigit, if_neg hmark, Bool.true_or, if_true]
  simp only [show ¬ (10 : Nat) = 16 by decide, if_false, hsc, true_and, false_and]

theorem isNumericString_hex (allowErrors : Int) (hrest : str.dropWhile isBlankByte = rest)
    (hmark : hexMark rest) {sc : DigitScan}
    (hsc : digitsLoop true 16 ((rest.drop 2).dropWhile (· = ch '0')) 0 0 false = sc)
    (hdouble : sc.double = false) :
    isNumericString zendStrtod zendHexStrtod true true allowErrors str =
      if sc.digits < 16 ∨ sc.digits = 16 ∧
          (rest.drop (rest.length - sc.ptr.length - sc.digits)).headD 0 ≤ ch '7' then
        numericResult zendStrtod true true allowErrors rest 16 .isLong sc.ptr sc.digits none
      else numericResult zendStrtod true true allowErrors rest 16 .isDouble (hexStrtodEnd rest)
        sc.digits (some (zendHexStrtod rest)) := by
  have hne : str.length ≠ 0 := by
    intro hnil
    have hlen := hmark.1
    rw [← hrest, eq_nil_of_length_eq_zero hnil] at hlen
    exact absurd hlen (by decide)
  have hunsigned : isSign (rest.headD 0) ≠ true := by
    rw [hmark.2.1]
    decide
  have hdigit : isDigit (rest.headD 0) = true := by
    rw [hmark.2.1]
    decide
  unfold hexMark at hmark
  unfold isNumericString
  simp only [if_neg hne, hrest, if_neg hunsigned, if_pos hdigit, if_pos hmark, Bool.true_or,
    if_true, hsc, hdouble]
  simp only [show ¬ (16 : Nat) = 10 by decide, false_and, or_self, if_false, true_and,
    Bool.false_eq_true, ite_not]

theorem isNumericString_other (allowErrors : Int) (hrest : str.dropWhile isBlankByte = rest)
    (hdigit : isDigit ((unsigned rest).headD 0) = false) :
    (isNumericString zendStrtod zendHexStrtod true true allowErrors str).type ≠ .isLong := by
  unfold isNumericString
  by_cases hne : str.length = 0
  · rw [if_pos hne]
    show NumericType.zero ≠ .isLong
    decide
  · unfold unsigned at hdigit
    by_cases hsign : isSign (rest.headD 0) = true
    · rw [if_pos hsign] at hdigit
      simp only [if_neg hne, hrest, if_pos hsign, hdigit, Bool.true_or, if_true,
        Bool.false_eq_true, if_false]
      split
      · rw [numericResult_double]
        split <;> decide
      · show NumericType.zero ≠ .isLong
        decide
    · rw [if_neg hsign] at hdigit
      simp only [if_neg hne, hrest, if_neg hsign, hdigit, Bool.true_or, if_true,
        Bool.false_eq_true, if_false]
      split
      · rw [numericResult_double]
        split <;> decide
      · show NumericType.zero ≠ .isLong
        decide

theorem dropWhile_append_of_stop {p : UInt8 → Bool} (a : List UInt8) {b : List UInt8}
    (hb : p (b.headD 0) = false) : (a ++ b).dropWhile p = a.dropWhile p ++ b := by
  rw [dropWhile_append]
  split
  · rename_i hnil
    rw [List.isEmpty_iff.mp hnil, nil_append]
    cases b with
    | nil => rfl
    | cons c b => exact dropWhile_cons_of_neg (ne_true_of_eq_false hb)
  · rfl

theorem drop_back {s front back : List UInt8} {a b : Nat} (hs : s = front ++ back)
    (hlen : back.length = a + b) : s.drop (s.length - a - b) = back := by
  rw [hs]
  apply drop_left'
  rw [length_append]
  omega

theorem headD_dropWhile {p : UInt8 → Bool} (hp : p 0 = false) (s : List UInt8) :
    p ((s.dropWhile p).headD 0) = false := by
  induction s with
  | nil => exact hp
  | cons c s ih =>
    by_cases hc : p c = true
    · rw [dropWhile_cons_of_pos hc]
      exact ih
    · rw [dropWhile_cons_of_neg hc]
      exact eq_false_of_ne_true hc

theorem not_zero_of_not_digit {base : Nat} {c : UInt8} (h : isDigitIn base c = false) :
    decide (c = ch '0') = false := by
  apply decide_eq_false
  intro hc
  rw [hc, isDigitIn_of_isDigit base (by decide)] at h
  exact absurd h (by decide)

theorem hex_small {sig : List UInt8} (hdigits : ∀ c ∈ sig, isDigitIn 16 c = true)
    (hhead : decide (sig.headD 0 = ch '0') = false) :
    sig.length < 16 ∨ sig.length = 16 ∧ sig.headD 0 ≤ ch '7' ↔ numberIn 16 sig < 2 ^ 63 := by
  cases sig with
  | nil => decide
  | cons c ds =>
    have hc := hdigits c mem_cons_self
    have hpos := digitValue_pos hc (of_decide_eq_false hhead)
    have hlt := numberIn_lt (Or.inr rfl) fun x hx => hdigits x (mem_cons_of_mem _ hx)
    have hall := numberIn_lt (Or.inr rfl) hdigits
    have hge := le_numberIn 16 c ds (Nat.le_refl _)
    rw [headD_cons]
    rcases Nat.lt_trichotomy (c :: ds).length 16 with hlen | hlen | hlen
    · have hpow : 16 ^ (c :: ds).length ≤ 16 ^ 15 := Nat.pow_le_pow_right (by decide) (by omega)
      exact ⟨fun _ => by omega, fun _ => Or.inl hlen⟩
    · have hds : ds.length = 15 := by simpa using hlen
      rw [numberIn_cons]
      rw [hds] at hlt ⊢
      have hseven : c ≤ ch '7' ↔ digitValue c < 8 := by
        unfold isDigitIn isXdigit at hc
        unfold digitValue
        have h7 : (ch '7').toNat = 55 := rfl
        rw [UInt8.le_iff_toNat_le, h7]
        by_cases hd : isDigit c = true
        · rw [if_pos hd]
          have hrange := isDigit_iff.mp hd
          omega
        · simp only [eq_false_of_ne_true hd, Bool.false_or, Bool.and_eq_true, decide_eq_true_eq,
            Bool.or_eq_true, UInt8.le_iff_toNat_le] at hc
          have hA : (ch 'A').toNat = 65 := rfl
          have hF : (ch 'F').toNat = 70 := rfl
          have ha : (ch 'a').toNat = 97 := rfl
          rw [if_neg hd]
          by_cases hupper : ch 'A' ≤ c ∧ c ≤ ch 'F'
          · rw [if_pos hupper]
            rw [UInt8.le_iff_toNat_le, UInt8.le_iff_toNat_le] at hupper
            omega
          · rw [if_neg hupper]
            rw [UInt8.le_iff_toNat_le, UInt8.le_iff_toNat_le] at hupper
            omega
      rw [hseven]
      omega
    · have hpow : 16 ^ 16 ≤ 16 ^ ds.length :=
        Nat.pow_le_pow_right (by decide) (by simpa using hlen)
      have hone : 1 * 16 ^ ds.length ≤ numberIn 16 (c :: ds) := le_numberIn 16 c ds hpos
      exact ⟨fun h => by omega, fun h => by omega⟩

theorem strtol_hex (h : hexOf rest ≠ []) :
    strtol 16 rest = min (2 ^ 63 - 1) (numberIn 16 (hexOf rest) : Int) := by
  have ⟨x, hs, hrest, hx, hpre, _⟩ := hexOf_parts h
  have hrun : hexOf rest = hs.takeWhile (isDigitIn 16) := by
    rw [hrest]
    exact if_pos ⟨rfl, hx⟩
  have hfirst : isDigitIn 16 (hs.headD 0) = true := by
    cases hs with
    | nil => exact absurd hrun h
    | cons c hs =>
      rw [headD_cons]
      by_contra hc
      rw [takeWhile_cons_of_neg hc] at hrun
      exact h hrun
  have hzero : isSign (ch '0') = false := by decide
  have hminus : ch '0' ≠ ch '-' := by decide
  rw [hrun]
  unfold strtol
  rw [hrest, headD_cons, hzero, if_neg hminus]
  simp only [Bool.false_eq_true, if_false, headD_cons, tail_cons, drop_succ_cons, drop_zero, hx, hfirst,
    and_self, if_true]

theorem numericResult_overflow (allowErrors : Int) (base : Nat) {ptr : List UInt8} {digits : Nat}
    (hdigits : digits = maxLengthOfLong - 1)
    (hcmp : ¬(strcmp (rest.drop (rest.length - ptr.length - digits)) longMinDigits = .lt ∨
      strcmp (rest.drop (rest.length - ptr.length - digits)) longMinDigits = .eq ∧
        rest.headD 0 = ch '-')) :
    (numericResult zendStrtod true true allowErrors rest base .isLong ptr digits none).type =
      if ptr ≠ [] ∧ allowErrors = 0 then .zero else .isDouble := by
  unfold numericResult
  by_cases hall : ptr ≠ [] ∧ allowErrors = 0
  · rw [if_pos hall, if_pos hall]
  · rw [if_neg hall, if_neg hall, if_pos rfl, if_pos ⟨hdigits, hcmp⟩]

theorem numericResult_long (allowErrors : Int) (rest : List UInt8) (base : Nat)
    (ptr : List UInt8) (digits : Nat) (hcmp : digits = maxLengthOfLong - 1 →
      strcmp (rest.drop (rest.length - ptr.length - digits)) longMinDigits = .lt ∨
        strcmp (rest.drop (rest.length - ptr.length - digits)) longMinDigits = .eq ∧
          rest.headD 0 = ch '-') :
    (ptr ≠ [] ∧ allowErrors = 0 →
        (numericResult zendStrtod true true allowErrors rest base .isLong ptr digits none).type =
          .zero) ∧
      (¬(ptr ≠ [] ∧ allowErrors = 0) →
        (numericResult zendStrtod true true allowErrors rest base .isLong ptr digits none).type =
            .isLong ∧
          (numericResult zendStrtod true true allowErrors rest base .isLong ptr digits none).lval =
            some (strtol base rest)) := by
  have hno : ¬(digits = maxLengthOfLong - 1 ∧
      ¬(strcmp (rest.drop (rest.length - ptr.length - digits)) longMinDigits = .lt ∨
        strcmp (rest.drop (rest.length - ptr.length - digits)) longMinDigits = .eq ∧
          rest.headD 0 = ch '-')) := fun h => h.2 (hcmp h.1)
  unfold numericResult
  constructor
  · intro hall
    rw [if_pos hall]
  · intro hall
    rw [if_neg hall, if_pos rfl, if_neg hno]
    exact ⟨rfl, rfl⟩

def hexTail (rest : List UInt8) : List UInt8 := (rest.drop 2).dropWhile (isDigitIn 16)

def hexSignificant (rest : List UInt8) : List UInt8 := (hexOf rest).dropWhile (· = ch '0')

theorem hexOf_eq (h : hexMark rest) :
    hexOf rest = (rest.drop 2).takeWhile (isDigitIn 16) := if_pos h.2

theorem hexMark_of_hexOf (h : hexOf rest ≠ []) : hexMark rest := by
  have ⟨x, hs, hparts, hx, ⟨_, hlong⟩, _⟩ := hexOf_parts h
  have hpos := length_pos_of_ne_nil h
  rw [hparts]
  refine ⟨?_, rfl, hx⟩
  rw [← hlong, length_cons, length_cons, length_append]
  omega

theorem hexOf_digits (h : hexMark rest) :
    ∀ c ∈ hexOf rest, isDigitIn 16 c = true := by
  rw [hexOf_eq h]
  exact fun c hc => mem_takeWhile_imp hc

theorem hex_text (h : hexMark rest) :
    rest.drop 2 = hexOf rest ++ hexTail rest := by
  rw [hexOf_eq h]
  exact takeWhile_append_dropWhile.symm

theorem hexTail_head (rest : List UInt8) : isDigitIn 16 ((hexTail rest).headD 0) = false :=
  headD_dropWhile (by decide) (rest.drop 2)

theorem hexStrtodEnd_eq (h : hexOf rest ≠ []) :
    hexStrtodEnd rest = hexTail rest := by
  have hmark := hexMark_of_hexOf h
  have hfirst : isDigitIn 16 ((rest.drop 2).headD 0) = true := by
    rw [hex_text hmark]
    have hdigits := hexOf_digits hmark
    cases hhex : hexOf rest with
    | nil => exact absurd hhex h
    | cons c ds =>
      rw [hhex] at hdigits
      exact hdigits c mem_cons_self
  unfold hexStrtodEnd
  rw [if_pos hmark.2, if_pos hfirst]
  rfl

theorem hexSignificant_split (h : hexMark rest) :
    (rest.drop 2).dropWhile (· = ch '0') = hexSignificant rest ++ hexTail rest := by
  rw [hex_text h]
  exact dropWhile_append_of_stop _ (not_zero_of_not_digit (hexTail_head rest))

theorem hexSignificant_digits (h : hexMark rest) :
    ∀ c ∈ hexSignificant rest, isDigitIn 16 c = true :=
  fun c hc => hexOf_digits h c ((dropWhile_suffix _).subset hc)

theorem hexSignificant_first (h : hexMark rest) (hne : hexSignificant rest ≠ []) :
    (rest.drop (rest.length - (hexTail rest).length - (hexSignificant rest).length)).headD 0 =
      (hexSignificant rest).headD 0 := by
  have hsuffix : hexSignificant rest <:+ hexOf rest := dropWhile_suffix _
  have ⟨zeros, hzeros⟩ := hsuffix
  have hwhole : rest = (rest.take 2 ++ zeros) ++ (hexSignificant rest ++ hexTail rest) := by
    rw [append_assoc, ← append_assoc zeros, hzeros, ← hex_text h, take_append_drop]
  rw [drop_back hwhole (by rw [length_append, Nat.add_comm])]
  cases hsig : hexSignificant rest with
  | nil => exact absurd hsig hne
  | cons c ds => rfl

theorem hexSignificant_fits (h : hexMark rest) :
    ((hexSignificant rest).length < 16 ∨ (hexSignificant rest).length = 16 ∧
        (rest.drop (rest.length - (hexTail rest).length - (hexSignificant rest).length)).headD 0 ≤
          ch '7') ↔
      FitsLong (numberIn 16 (hexOf rest)) := by
  have hhead := headD_dropWhile (p := fun c => decide (c = ch '0')) (by decide) (hexOf rest)
  have hsmall := hex_small (hexSignificant_digits h) hhead
  have hsame : numberIn 16 (hexSignificant rest) = numberIn 16 (hexOf rest) :=
    numberIn_dropZeros 16 (hexOf rest)
  have hfits : FitsLong (numberIn 16 (hexOf rest)) ↔ numberIn 16 (hexOf rest) < 2 ^ 63 := by
    unfold FitsLong
    omega
  rw [hfits, ← hsame, ← hsmall]
  by_cases hne : hexSignificant rest = []
  · rw [hne]
    simp
  · rw [hexSignificant_first h hne]

theorem judgedInt_hex (h : hexOf rest ≠ []) :
    judgedInt allowErrors rest = if hexTail rest ≠ [] ∧ allowErrors = 0 then none
      else some (numberIn 16 (hexOf rest) : Int) := by
  have hmark := hexMark_of_hexOf h
  have hsum := congrArg List.length (hex_text hmark)
  have htwo := hmark.1
  rw [length_drop, length_append] at hsum
  have hiff : allowErrors = 0 ∧ rest.length ≠ 2 + (hexOf rest).length ↔
      hexTail rest ≠ [] ∧ allowErrors = 0 := by
    rw [← length_pos_iff]
    omega
  unfold judgedInt
  rw [if_pos h]
  simp only [hiff]

theorem rightVerdict_hex (allowErrors : Int) (hrest : str.dropWhile isBlankByte = rest)
    (h : hexOf rest ≠ []) :
    RightVerdict allowErrors rest
      (isNumericString zendStrtod zendHexStrtod true true allowErrors str) := by
  have hmark := hexMark_of_hexOf h
  have hfits := hexSignificant_fits hmark
  have hdigits := hexSignificant_digits hmark
  have hmax : maxLengthOfLong = 20 := rfl
  by_cases hmany : maxLengthOfLong ≤ (hexSignificant rest).length
  · have ⟨hcount, hdouble⟩ := digitsLoop_many hdigits (hexTail rest) hmany
    rw [← hexSignificant_split hmark] at hcount hdouble
    rw [isNumericString_hex zendStrtod zendHexStrtod allowErrors hrest hmark rfl hdouble, hcount,
      if_neg (by omega), hexStrtodEnd_eq h]
    apply rightVerdict_of_judged (judgedInt_hex h)
    · intro hall
      rw [numericResult_double, if_pos hall]
      decide
    · exact fun _ hfit => absurd (hfits.mpr hfit) (by omega)
    · intro hall _
      rw [numericResult_double, if_neg hall]
  · have hloop := digitsLoop_hex hdigits (hexTail_head rest) (Nat.lt_of_not_le hmany)
    rw [← hexSignificant_split hmark] at hloop
    rw [isNumericString_hex zendStrtod zendHexStrtod allowErrors hrest hmark hloop rfl]
    simp only [hfits]
    by_cases hfit : FitsLong (numberIn 16 (hexOf rest))
    · rw [if_pos hfit]
      have hfew := hfits.mpr hfit
      have hresult := numericResult_long zendStrtod allowErrors rest 16 (hexTail rest)
        (hexSignificant rest).length (fun heq => by omega)
      apply rightVerdict_of_judged (judgedInt_hex h)
      · intro hall
        rw [hresult.1 hall]
        decide
      · intro hall _
        have hres := hresult.2 hall
        rw [strtol_hex h, min_eq_right hfit.2] at hres
        exact hres
      · exact fun _ hbig => absurd hfit hbig
    · rw [if_neg hfit, hexStrtodEnd_eq h]
      apply rightVerdict_of_judged (judgedInt_hex h)
      · intro hall
        rw [numericResult_double, if_pos hall]
        decide
      · exact fun _ hbad => absurd hbad hfit
      · intro hall _
        rw [numericResult_double, if_neg hall]

def significant (rest : List UInt8) : List UInt8 := (wholeOf rest).dropWhile (· = ch '0')

/-- Nineteen digits that are compared with the wrong text: behind an exponent without digits the
comparison starts one digit late, and elsewhere it does not stop where the digits do, so that the
smallest `long` is taken for a number out of range. -/
def Misjudged (allowErrors : Int) (rest : List UInt8) : Prop :=
  allowErrors ≠ 0 ∧ (significant rest).length = 19 ∧ opensFraction (tailOf rest) = false ∧
    if dangling (tailOf rest) then
      ¬(numberIn 10 (significant rest).tail < 922337203685477580 ↔
        FitsLong (signedValue (signOf rest) (numberIn 10 (wholeOf rest))))
    else
      (tailOf rest).headD 0 ≠ 0 ∧ signOf rest = [ch '-'] ∧ numberIn 10 (wholeOf rest) = 2 ^ 63

theorem significant_digits (rest : List UInt8) : ∀ c ∈ significant rest, isDigit c = true :=
  fun c hc => mem_wholeOf c ((dropWhile_suffix _).subset hc)

theorem numberIn_significant (rest : List UInt8) :
    numberIn 10 (significant rest) = numberIn 10 (wholeOf rest) :=
  numberIn_dropZeros 10 (wholeOf rest)

theorem tailOf_head (rest : List UInt8) : isDigit ((tailOf rest).headD 0) = false :=
  headD_dropWhile (by decide) (unsigned rest)

theorem significant_split (rest : List UInt8) :
    (unsigned rest).dropWhile (· = ch '0') = significant rest ++ tailOf rest := by
  have hzero : decide ((tailOf rest).headD 0 = ch '0') = false := by
    apply decide_eq_false
    intro hc
    have hhead := tailOf_head rest
    rw [hc] at hhead
    exact absurd hhead (by decide)
  have hsplit : unsigned rest = wholeOf rest ++ tailOf rest :=
    (takeWhile_append_dropWhile).symm
  rw [hsplit]
  exact dropWhile_append_of_stop _ hzero

theorem text_split (rest : List UInt8) :
    ∃ front, rest = front ++ (significant rest ++ tailOf rest) := by
  have hsuffix : significant rest <:+ wholeOf rest := dropWhile_suffix _
  have ⟨zeros, hzeros⟩ := hsuffix
  refine ⟨signOf rest ++ zeros, ?_⟩
  calc rest = signOf rest ++ (wholeOf rest ++ tailOf rest) := (text_parts rest).symm
    _ = signOf rest ++ zeros ++ (significant rest ++ tailOf rest) := by
      rw [← hzeros, append_assoc, append_assoc]

theorem signOf_minus (rest : List UInt8) : signOf rest = [ch '-'] ↔ rest.headD 0 = ch '-' := by
  unfold signOf
  cases rest with
  | nil => decide
  | cons c rest =>
    rw [headD_cons]
    by_cases hsign : isSign c = true
    · rw [if_pos hsign]
      show [c] = [ch '-'] ↔ c = ch '-'
      rw [List.cons.injEq, and_iff_left rfl]
    · rw [if_neg hsign]
      refine ⟨fun h => absurd h (by simp), fun h => ?_⟩
      rw [h] at hsign
      exact absurd (by decide) hsign

theorem fitsLong_signed (sign : List UInt8) (n : Nat) :
    FitsLong (signedValue sign n) ↔ n < 2 ^ 63 ∨ n = 2 ^ 63 ∧ sign = [ch '-'] := by
  unfold FitsLong signedValue
  by_cases hsign : sign = [ch '-']
  · rw [if_pos hsign]
    simp only [hsign, and_true]
    omega
  · rw [if_neg hsign]
    simp only [hsign, and_false, or_false]
    omega

theorem strtol_decimal (rest : List UInt8)
    (hfits : FitsLong (signedValue (signOf rest) (numberIn 10 (wholeOf rest)))) :
    strtol 10 rest = signedValue (signOf rest) (numberIn 10 (wholeOf rest)) := by
  have hrun : isDigitIn 10 = isDigit := by
    funext c
    unfold isDigitIn
    rw [show decide (10 = 16) = false by decide, Bool.false_and, Bool.or_false]
  have hstrtol : strtol 10 rest = if rest.headD 0 = ch '-' then
      max (-2 ^ 63) (-(numberIn 10 (wholeOf rest) : Int))
      else min (2 ^ 63 - 1) (numberIn 10 (wholeOf rest) : Int) := by
    unfold strtol wholeOf unsigned
    rw [hrun]
    rfl
  rw [hstrtol]
  unfold FitsLong signedValue at hfits
  unfold signedValue
  simp only [signOf_minus] at hfits ⊢
  by_cases hminus : rest.headD 0 = ch '-'
  · rw [if_pos hminus] at hfits ⊢
    rw [if_pos hminus]
    omega
  · rw [if_neg hminus] at hfits ⊢
    rw [if_neg hminus]
    omega

theorem takeWhile_digits (hds : ∀ c ∈ ds, isDigit c = true) (u : List UInt8) :
    (ds ++ u).takeWhile (· ≠ 0) = ds ++ u.takeWhile (· ≠ 0) := by
  apply takeWhile_append_of_pos
  intro c hc
  apply decide_eq_true
  intro hzero
  have hd := hds c hc
  rw [hzero] at hd
  exact absurd hd (by decide)

set_option maxRecDepth 4000 in
theorem longMinDigits_split : longMinDigits.takeWhile (· ≠ 0) = longMinDigits ∧
    longMinDigits = longMinDigits.take 18 ++ [ch '8'] ∧
    (∀ c ∈ longMinDigits, isDigit c = true) :=
  ⟨by decide +kernel, by decide +kernel, List.all_iff_forall_prop.mp (by decide +kernel)⟩

set_option maxRecDepth 4000 in
theorem numberIn_longMinDigits : numberIn 10 longMinDigits = 2 ^ 63 ∧
    numberIn 10 (longMinDigits.take 18) = 922337203685477580 := by
  decide

theorem strcmp_digits (hds : ∀ c ∈ ds, isDigit c = true) (hlen : ds.length = 19) (tail : List UInt8)
    :
    (strcmp (ds ++ tail) longMinDigits = .lt ↔ numberIn 10 ds < 2 ^ 63) ∧
      (strcmp (ds ++ tail) longMinDigits = .eq ↔ numberIn 10 ds = 2 ^ 63 ∧ tail.headD 0 = 0) := by
  have hcmp : strcmp (ds ++ tail) longMinDigits =
      (compare (numberIn 10 ds) (2 ^ 63)).then
        (List.compareLex compare (tail.takeWhile (· ≠ 0)) []) := by
    unfold strcmp
    have hsame := compareLex_digits hlen hds longMinDigits_split.2.2
      (tail.takeWhile (· ≠ 0)) []
    rw [List.append_nil, numberIn_longMinDigits.1] at hsame
    rw [takeWhile_digits hds, longMinDigits_split.1, hsame]
  have hrest : List.compareLex compare (tail.takeWhile (· ≠ 0)) [] =
      if tail.headD 0 = 0 then .eq else .gt := by
    cases tail with
    | nil => rfl
    | cons c tail =>
      rw [headD_cons]
      by_cases hc : c = 0
      · rw [if_pos hc, takeWhile_cons_of_neg (by simp [hc])]
        rfl
      · rw [if_neg hc, takeWhile_cons_of_pos (by simp [hc])]
        rfl
  rw [hcmp, hrest]
  rcases Nat.lt_trichotomy (numberIn 10 ds) (2 ^ 63) with h | h | h
  · rw [compare_lt_iff_lt.mpr h]
    exact ⟨⟨fun _ => h, fun _ => rfl⟩,
      ⟨fun hc => absurd hc (show Ordering.lt ≠ .eq by decide), fun hc => by omega⟩⟩
  · rw [compare_eq_iff_eq.mpr h]
    show (ite _ _ _ = Ordering.lt ↔ _) ∧ (ite _ _ _ = Ordering.eq ↔ _)
    by_cases hc : tail.headD 0 = 0
    · rw [if_pos hc]
      exact ⟨⟨fun hlt => absurd hlt (by decide), fun hlt => by omega⟩, ⟨fun _ => ⟨h, hc⟩, fun _ => rfl⟩⟩
    · rw [if_neg hc]
      exact ⟨⟨fun hlt => absurd hlt (by decide), fun hlt => by omega⟩,
        ⟨fun heq => absurd heq (by decide), fun heq => absurd heq.2 hc⟩⟩
  · rw [compare_gt_iff_gt.mpr h]
    exact ⟨⟨fun hc => absurd hc (show Ordering.gt ≠ .lt by decide), fun hc => by omega⟩,
      ⟨fun hc => absurd hc (show Ordering.gt ≠ .eq by decide), fun hc => by omega⟩⟩

theorem strcmp_late (hds : ∀ c ∈ ds, isDigit c = true) (hlen : ds.length = 18) {e : UInt8}
    (he : e = ch 'e' ∨ e = ch 'E') (tail : List UInt8) :
    (strcmp (ds ++ e :: tail) longMinDigits = .lt ↔ numberIn 10 ds < 922337203685477580) ∧
      strcmp (ds ++ e :: tail) longMinDigits ≠ .eq := by
  have hgt : List.compareLex compare ((e :: tail).takeWhile (· ≠ 0)) [ch '8'] = .gt := by
    cases he with
    | inl he => rw [he]; rfl
    | inr he => rw [he]; rfl
  have hcmp : strcmp (ds ++ e :: tail) longMinDigits =
      (compare (numberIn 10 ds) 922337203685477580).then .gt := by
    unfold strcmp
    have htake : ∀ c ∈ longMinDigits.take 18, isDigit c = true :=
      fun c hc => longMinDigits_split.2.2 c (mem_of_mem_take hc)
    have hsame := compareLex_digits hlen hds htake
      ((e :: tail).takeWhile (· ≠ 0)) [ch '8']
    rw [← longMinDigits_split.2.1, numberIn_longMinDigits.2, hgt] at hsame
    rw [takeWhile_digits hds, longMinDigits_split.1, hsame]
  rw [hcmp]
  rcases Nat.lt_trichotomy (numberIn 10 ds) 922337203685477580 with h | h | h
  · rw [compare_lt_iff_lt.mpr h]
    exact ⟨⟨fun _ => h, fun _ => rfl⟩, by decide⟩
  · rw [compare_eq_iff_eq.mpr h]
    exact ⟨⟨fun hc => absurd hc (by decide), fun hc => by omega⟩, by decide⟩
  · rw [compare_gt_iff_gt.mpr h]
    exact ⟨⟨fun hc => absurd hc (by decide), fun hc => by omega⟩, by decide⟩

theorem dangling_parts {tail : List UInt8} (h : dangling tail = true) :
    ∃ e ptr, tail = e :: ptr ∧ (e = ch 'e' ∨ e = ch 'E') ∧ ptr ≠ [] := by
  unfold dangling at h
  rw [Bool.and_eq_true] at h
  cases tail with
  | nil => exact absurd h.2 (by decide)
  | cons e ptr =>
    refine ⟨e, ptr, rfl, of_decide_eq_true h.1, ?_⟩
    intro hnil
    rw [tail_cons, hnil] at h
    exact absurd h.2 (by decide)

/-- Where `ptr` is left behind the digits. -/
def ptrBehind (rest : List UInt8) : List UInt8 :=
  if dangling (tailOf rest) then (tailOf rest).tail else tailOf rest

theorem ptrBehind_eq_nil : ptrBehind rest = [] ↔ tailOf rest = [] := by
  unfold ptrBehind
  by_cases h : dangling (tailOf rest) = true
  · have ⟨e, ptr, htail, _, hne⟩ := dangling_parts h
    rw [if_pos h, htail]
    simp [hne]
  · rw [if_neg h]

theorem head_of_wholeOf (h : wholeOf rest ≠ []) :
    isDigit ((unsigned rest).headD 0) = true := by
  unfold wholeOf at h
  cases hu : unsigned rest with
  | nil =>
    rw [hu] at h
    exact absurd rfl h
  | cons c u =>
    rw [headD_cons]
    by_contra hc
    rw [hu, takeWhile_cons_of_neg hc] at h
    exact h rfl

theorem isNumericString_integer (allowErrors : Int) (hrest : str.dropWhile isBlankByte = rest)
    (hmark : ¬ hexMark rest) (hwhole : wholeOf rest ≠ [])
    (hopens : opensFraction (tailOf rest) = false) :
    isNumericString zendStrtod zendHexStrtod true true allowErrors str =
      if maxLengthOfLong ≤ (significant rest).length then
        doubleResult zendStrtod allowErrors rest maxLengthOfLong
      else numericResult zendStrtod true true allowErrors rest 10 .isLong (ptrBehind rest)
        (significant rest).length none := by
  have hdigit := head_of_wholeOf hwhole
  have hsig : ∀ c ∈ significant rest, isDigitIn 10 c = true :=
    fun c hc => isDigitIn_of_isDigit 10 (significant_digits rest c hc)
  rw [isNumericString_decimal zendStrtod zendHexStrtod allowErrors hrest hdigit hmark rfl,
    significant_split]
  by_cases hmany : maxLengthOfLong ≤ (significant rest).length
  · have ⟨hcount, _⟩ := digitsLoop_many hsig (tailOf rest) hmany
    rw [hcount, if_pos hmany, if_pos (Or.inr (Nat.le_refl _))]
  · have hloop : digitsLoop true 10 (significant rest ++ tailOf rest) 0 0 false =
        ⟨ptrBehind rest, (significant rest).length, false⟩ := by
      rw [digitsLoop_append hsig _ (by omega), Nat.zero_add]
      exact (digitsLoop_tail (tailOf_head rest) (by omega)).2 hopens
    rw [hloop, if_neg hmany, if_neg]
    intro h
    cases h with
    | inl h => exact absurd h Bool.false_ne_true
    | inr h => exact hmany h

theorem strcmp_significant (hlen : (significant rest).length = 19) :
    (strcmp (rest.drop (rest.length - (ptrBehind rest).length - 19)) longMinDigits = .lt ∨
        strcmp (rest.drop (rest.length - (ptrBehind rest).length - 19)) longMinDigits = .eq ∧
          rest.headD 0 = ch '-') ↔
      if dangling (tailOf rest) then numberIn 10 (significant rest).tail < 922337203685477580
      else numberIn 10 (wholeOf rest) < 2 ^ 63 ∨
        numberIn 10 (wholeOf rest) = 2 ^ 63 ∧ (tailOf rest).headD 0 = 0 ∧
          signOf rest = [ch '-'] := by
  have ⟨front, hfront⟩ := text_split rest
  rw [← numberIn_significant, signOf_minus]
  unfold ptrBehind
  by_cases hdangling : dangling (tailOf rest) = true
  · have ⟨e, ptr, htail, he, _⟩ := dangling_parts hdangling
    rw [if_pos hdangling, if_pos hdangling, htail, tail_cons]
    rw [htail] at hfront
    have hdigits := significant_digits rest
    cases hsig : significant rest with
    | nil =>
      rw [hsig] at hlen
      exact absurd hlen (by decide)
    | cons c ds =>
      rw [hsig] at hfront hlen hdigits
      have hds : ds.length = 18 := by simpa using hlen
      have hlate := strcmp_late (fun x hx => hdigits x (mem_cons_of_mem _ hx)) hds he ptr
      have hsplit : rest = (front ++ [c]) ++ (ds ++ e :: ptr) := by
        rw [hfront]
        simp
      rw [drop_back hsplit (by rw [length_append, length_cons]; omega), tail_cons,
        ← hlate.1]
      exact ⟨fun h => h.resolve_right fun heq => hlate.2 heq.1, Or.inl⟩
  · rw [if_neg hdangling, if_neg hdangling, drop_back hfront
      (by rw [length_append]; omega)]
    have hcmp := strcmp_digits (significant_digits rest) hlen (tailOf rest)
    rw [hcmp.1, hcmp.2, and_assoc]

theorem strtodEnd_digits (hwhole : wholeOf rest ≠ []) (htail : tailOf rest = [])
    : strtodEnd rest = [] := by
  have hrun : (unsigned rest).takeWhile isDigit ≠ [] := hwhole
  have hend : (unsigned rest).dropWhile isDigit = [] := htail
  unfold unsigned at hrun hend
  have hnul : ¬((0 : UInt8) = ch '.') := by decide
  have hmark : ¬((0 : UInt8) = ch 'e' ∨ (0 : UInt8) = ch 'E') := by decide
  unfold strtodEnd
  simp only [hend, headD_nil, hnul, hmark, if_false, hrun, false_and]

theorem numberIn_significant_bounds (rest : List UInt8) :
    numberIn 10 (wholeOf rest) < 10 ^ (significant rest).length ∧
      (significant rest ≠ [] →
        10 ^ ((significant rest).length - 1) ≤ numberIn 10 (wholeOf rest)) := by
  rw [← numberIn_significant]
  refine ⟨numberIn_lt (Or.inl rfl) fun c hc => isDigitIn_of_isDigit 10 (significant_digits rest c hc),
    fun hne => ?_⟩
  have hdigits := significant_digits rest
  have hhead := headD_dropWhile (p := fun c => decide (c = ch '0')) (by decide) (wholeOf rest)
  change decide ((significant rest).headD 0 = ch '0') = false at hhead
  cases hsig : significant rest with
  | nil => exact absurd hsig hne
  | cons c ds =>
    rw [hsig] at hdigits hhead
    have hpos := digitValue_pos (isDigitIn_of_isDigit 10 (hdigits c mem_cons_self))
      (of_decide_eq_false hhead)
    have hle := le_numberIn 10 c ds hpos
    rw [length_cons, Nat.add_sub_cancel]
    omega

theorem hexMark_parts (h : hexMark rest) :
    ∃ x hs, rest = ch '0' :: x :: hs ∧ (x = ch 'x' ∨ x = ch 'X') ∧ hs ≠ [] := by
  unfold hexMark at h
  cases rest with
  | nil => exact absurd h.1 (by decide)
  | cons z rest =>
    cases rest with
    | nil =>
      have hlen := h.1
      rw [length_singleton] at hlen
      omega
    | cons x hs =>
      rw [headD_cons, tail_cons, headD_cons] at h
      refine ⟨x, hs, by rw [h.2.1], h.2.2, fun hnil => ?_⟩
      have hlen := h.1
      rw [hnil, length_cons, length_singleton] at hlen
      omega

theorem rightVerdict_void (allowErrors : Int) (hrest : str.dropWhile isBlankByte = rest)
    (hmark : hexMark rest) (h : hexOf rest = []) :
    RightVerdict allowErrors rest
        (isNumericString zendStrtod zendHexStrtod true true allowErrors str) ∧
      significant rest = [] := by
  have ⟨x, hs, hparts, hx, hne⟩ := hexMark_parts hmark
  rw [hparts] at hmark h hrest ⊢
  have hrun : hs.takeWhile (isDigitIn 16) = [] := by
    have hhex : hexOf (ch '0' :: x :: hs) = hs.takeWhile (isDigitIn 16) := if_pos hmark.2
    rw [← hhex, h]
  have hhead : isDigitIn 16 (hs.headD 0) = false := by
    cases hs with
    | nil => exact absurd rfl hne
    | cons c hs =>
      rw [headD_cons]
      by_contra hc
      rw [takeWhile_cons_of_pos (Bool.eq_true_of_not_eq_false hc)] at hrun
      exact absurd hrun (by simp)
  have hzeros : hs.dropWhile (· = ch '0') = [] ++ hs :=
    dropWhile_append_of_stop [] (not_zero_of_not_digit hhead)
  have hloop := @digitsLoop_hex [] hs (by simp) hhead (by decide)
  rw [← hzeros] at hloop
  -- the text as a decimal number
  have hdec : wholeOf (ch '0' :: x :: hs) = [ch '0'] ∧ tailOf (ch '0' :: x :: hs) = x :: hs ∧
      opensFraction (x :: hs) = false ∧ (ch '0' :: x :: hs).takeWhile (isDigitIn 16) = [ch '0'] := by
    cases hx with
    | inl hx => rw [hx]; exact ⟨rfl, rfl, rfl, rfl⟩
    | inr hx => rw [hx]; exact ⟨rfl, rfl, rfl, rfl⟩
  have hsig : significant (ch '0' :: x :: hs) = [] := by
    unfold significant
    rw [hdec.1]
    rfl
  refine ⟨?_, hsig⟩
  have hjudged : judgedInt allowErrors (ch '0' :: x :: hs) =
      if hs ≠ [] ∧ allowErrors = 0 then none else some 0 := by
    have hzero : signedValue [] (numberIn 10 [ch '0']) = 0 := by decide
    unfold judgedInt
    rw [if_neg (not_not.mpr h), hdec.1, hdec.2.1, if_pos ⟨by simp, hdec.2.2.1⟩]
    show (if allowErrors = 0 ∧ x :: hs ≠ [] then none
      else some (signedValue [] (numberIn 10 [ch '0']))) = _
    rw [hzero]
    simp only [hne, ne_eq, not_false_eq_true, and_true, true_and, cons_ne_nil]
  have hstrtol : strtol 16 (ch '0' :: x :: hs) = 0 := by
    have hsign : isSign (ch '0') ≠ true := by decide
    have hminus : ch '0' ≠ ch '-' := by decide
    unfold strtol
    rw [headD_cons, if_neg hsign, if_neg hminus]
    simp only [drop_succ_cons, drop_zero, hhead, Bool.false_eq_true, and_false, if_false,
      hdec.2.2.2]
    decide
  have hfew : (DigitScan.mk hs ([] : List UInt8).length false).digits < 16 := by
    show (0 : Nat) < 16
    decide
  rw [isNumericString_hex zendStrtod zendHexStrtod allowErrors hrest hmark hloop rfl,
    if_pos (Or.inl hfew)]
  have hres := numericResult_long zendStrtod allowErrors (ch '0' :: x :: hs) 16 hs
    ([] : List UInt8).length (fun heq => absurd heq (by decide))
  apply rightVerdict_of_judged hjudged
  · intro hall
    rw [hres.1 hall]
    decide
  · intro hall _
    have hlong := hres.2 hall
    rw [hstrtol] at hlong
    exact hlong
  · exact fun _ hfits => absurd (by decide) hfits

theorem misjudged_iff (hlen : (significant rest).length = 19)
    (hopens : opensFraction (tailOf rest) = false) (hread : ¬(tailOf rest ≠ [] ∧ allowErrors = 0)) :
    Misjudged allowErrors rest ↔
      ¬((if dangling (tailOf rest) then
          numberIn 10 (significant rest).tail < 922337203685477580
        else numberIn 10 (wholeOf rest) < 2 ^ 63 ∨
          numberIn 10 (wholeOf rest) = 2 ^ 63 ∧ (tailOf rest).headD 0 = 0 ∧
            signOf rest = [ch '-']) ↔
        FitsLong (signedValue (signOf rest) (numberIn 10 (wholeOf rest)))) := by
  have hallow : ∀ {p : Prop}, (p → tailOf rest ≠ []) → (allowErrors ≠ 0 ∧ p ↔ p) := by
    intro p hp
    exact ⟨fun h => h.2, fun h => ⟨fun h0 => hread ⟨hp h, h0⟩, h⟩⟩
  unfold Misjudged
  rw [hallow]
  · simp only [hlen, hopens, true_and]
    by_cases hdangling : dangling (tailOf rest) = true
    · rw [if_pos hdangling, if_pos hdangling]
    · rw [if_neg hdangling, if_neg hdangling, fitsLong_signed]
      by_cases hhead : (tailOf rest).headD 0 = 0
      · simp only [hhead, ne_eq, not_true_eq_false, false_and, true_and]
      · by_cases hsign : signOf rest = [ch '-']
        · simp only [hhead, hsign, ne_eq, not_false_eq_true, true_and, and_false, and_true,
            or_false]
          omega
        · simp only [hsign, and_false, or_false, not_true_eq_false, false_and]
  · intro h hnil
    have hlast := h.2.2
    rw [hnil, if_neg (by decide)] at hlast
    exact absurd rfl hlast.1

theorem judgedInt_none (hhex : hexOf rest = [])
    (h : ¬(wholeOf rest ≠ [] ∧ opensFraction (tailOf rest) = false)) :
    judgedInt allowErrors rest = none := by
  unfold judgedInt
  rw [if_neg (not_not.mpr hhex), if_neg h]

theorem judgedInt_decimal (allowErrors : Int) (hhex : hexOf rest = []) (hwhole : wholeOf rest ≠ [])
    (hopens : opensFraction (tailOf rest) = false) :
    judgedInt allowErrors rest = if tailOf rest ≠ [] ∧ allowErrors = 0 then none
      else some (signedValue (signOf rest) (numberIn 10 (wholeOf rest))) := by
  unfold judgedInt
  rw [if_neg (not_not.mpr hhex), if_pos ⟨hwhole, hopens⟩]
  simp only [and_comm]

theorem rightVerdict_other (allowErrors : Int) (hrest : str.dropWhile isBlankByte = rest)
    (hhex : hexOf rest = []) (hwhole : wholeOf rest = []) :
    RightVerdict allowErrors rest
      (isNumericString zendStrtod zendHexStrtod true true allowErrors str) := by
  have hdigit : isDigit ((unsigned rest).headD 0) = false := by
    have hhead := tailOf_head rest
    have hsplit : wholeOf rest ++ tailOf rest = unsigned rest := takeWhile_append_dropWhile
    rw [hwhole, nil_append] at hsplit
    rw [← hsplit]
    exact hhead
  exact rightVerdict_of_none (judgedInt_none hhex fun h => h.1 hwhole)
    (isNumericString_other zendStrtod zendHexStrtod allowErrors hrest hdigit)

theorem rightVerdict_fraction (allowErrors : Int) (hrest : str.dropWhile isBlankByte = rest)
    (hhex : hexOf rest = []) (hmark : ¬ hexMark rest) (hwhole : wholeOf rest ≠ [])
    (hopens : opensFraction (tailOf rest) = true) :
    RightVerdict allowErrors rest
      (isNumericString zendStrtod zendHexStrtod true true allowErrors str) := by
  have hsig : ∀ c ∈ significant rest, isDigitIn 10 c = true :=
    fun c hc => isDigitIn_of_isDigit 10 (significant_digits rest c hc)
  apply rightVerdict_of_none
  · apply judgedInt_none hhex
    intro h
    rw [hopens] at h
    exact absurd h.2 (by decide)
  · rw [isNumericString_decimal zendStrtod zendHexStrtod allowErrors hrest
      (head_of_wholeOf hwhole) hmark rfl, significant_split, if_pos]
    · unfold doubleResult
      rw [numericResult_double]
      split <;> decide
    · by_cases hmany : maxLengthOfLong ≤ (significant rest).length
      · rw [(digitsLoop_many hsig (tailOf rest) hmany).1]
        exact Or.inr (Nat.le_refl _)
      · apply Or.inl
        rw [digitsLoop_append hsig _ (by omega), Nat.zero_add]
        exact (digitsLoop_tail (tailOf_head rest) (by omega)).1 hopens

theorem rightVerdict_many (allowErrors : Int) (hhex : hexOf rest = []) (hwhole : wholeOf rest ≠ [])
    (hopens : opensFraction (tailOf rest) = false)
    (hmany : maxLengthOfLong ≤ (significant rest).length) (digits : Nat) :
    RightVerdict allowErrors rest (doubleResult zendStrtod allowErrors rest digits) := by
  have hmax : maxLengthOfLong = 20 := rfl
  have hfits := fitsLong_signed (signOf rest) (numberIn 10 (wholeOf rest))
  have hlarge : 10 ^ 19 ≤ numberIn 10 (wholeOf rest) :=
    Nat.le_trans (Nat.pow_le_pow_right (by decide) (by omega))
      ((numberIn_significant_bounds rest).2 (length_pos_iff.mp (by omega)))
  unfold doubleResult
  apply rightVerdict_of_judged (judgedInt_decimal allowErrors hhex hwhole hopens)
  · intro _
    rw [numericResult_double]
    split <;> decide
  · exact fun _ hfit => absurd (hfits.mp hfit) (by omega)
  · intro hread _
    rw [numericResult_double, if_neg]
    intro hleft
    exact hread ⟨fun hnil => hleft.1 (strtodEnd_digits hwhole hnil), hleft.2⟩

theorem rightVerdict_few (allowErrors : Int) (hhex : hexOf rest = []) (hwhole : wholeOf rest ≠ [])
    (hopens : opensFraction (tailOf rest) = false) (hfew : (significant rest).length < 19) :
    RightVerdict allowErrors rest
      (numericResult zendStrtod true true allowErrors rest 10 .isLong (ptrBehind rest)
        (significant rest).length none) := by
  have hmax : maxLengthOfLong = 20 := rfl
  have hfits := fitsLong_signed (signOf rest) (numberIn 10 (wholeOf rest))
  have hsmall : numberIn 10 (wholeOf rest) < 10 ^ 18 :=
    Nat.lt_of_lt_of_le (numberIn_significant_bounds rest).1
      (Nat.pow_le_pow_right (by decide) (by omega))
  have hlong := numericResult_long zendStrtod allowErrors rest 10 (ptrBehind rest)
    (significant rest).length (fun heq => by omega)
  apply rightVerdict_of_judged (judgedInt_decimal allowErrors hhex hwhole hopens)
  · intro hread
    rw [hlong.1 ⟨fun hnil => hread.1 (ptrBehind_eq_nil.mp hnil), hread.2⟩]
    decide
  · intro hread hfit
    have hres := hlong.2 fun h => hread ⟨fun hnil => h.1 (ptrBehind_eq_nil.mpr hnil), h.2⟩
    rw [strtol_decimal rest hfit] at hres
    exact hres
  · exact fun _ hfit => absurd (hfits.mpr (Or.inl (by omega))) hfit

theorem rightVerdict_nineteen (allowErrors : Int) (hhex : hexOf rest = [])
    (hwhole : wholeOf rest ≠ []) (hopens : opensFraction (tailOf rest) = false)
    (hlen : (significant rest).length = 19) :
    RightVerdict allowErrors rest
        (numericResult zendStrtod true true allowErrors rest 10 .isLong (ptrBehind rest) 19 none) ↔
      ¬ Misjudged allowErrors rest := by
  have hjudged := judgedInt_decimal allowErrors hhex hwhole hopens
  by_cases hread : tailOf rest ≠ [] ∧ allowErrors = 0
  · have hptr : ptrBehind rest ≠ [] ∧ allowErrors = 0 :=
      ⟨fun hnil => hread.1 (ptrBehind_eq_nil.mp hnil), hread.2⟩
    rw [if_pos hread] at hjudged
    refine iff_of_true (rightVerdict_of_none hjudged ?_) fun h => h.1 hread.2
    unfold numericResult
    rw [if_pos hptr]
    show NumericType.zero ≠ .isLong
    decide
  have hptr : ¬(ptrBehind rest ≠ [] ∧ allowErrors = 0) :=
    fun h => hread ⟨fun hnil => h.1 (ptrBehind_eq_nil.mpr hnil), h.2⟩
  have hstrtol := strtol_decimal rest
  rw [misjudged_iff hlen hopens hread, not_not, ← strcmp_significant hlen]
  rw [if_neg hread] at hjudged
  unfold RightVerdict
  rw [hjudged]
  generalize signedValue (signOf rest) (numberIn 10 (wholeOf rest)) = v at hstrtol ⊢
  have hsome : ∀ {r : NumericResult D}, ((some v = none → r.type ≠ .isLong) ∧
      ∀ v', some v = some v' → (FitsLong v' → r.type = .isLong ∧ r.lval = some v') ∧
        (¬ FitsLong v' → r.type = .isDouble)) ↔
      (FitsLong v → r.type = .isLong ∧ r.lval = some v) ∧ (¬ FitsLong v → r.type = .isDouble) := by
    intro r
    refine ⟨fun h => h.2 v rfl, fun h => ⟨fun hnone => absurd hnone (by simp), fun v' hv => ?_⟩⟩
    rw [← Option.some.inj hv]
    exact h
  rw [hsome]
  by_cases hok : strcmp (rest.drop (rest.length - (ptrBehind rest).length - 19))
        longMinDigits = .lt ∨
      strcmp (rest.drop (rest.length - (ptrBehind rest).length - 19)) longMinDigits = .eq ∧
        rest.headD 0 = ch '-'
  · have hres := (numericResult_long zendStrtod allowErrors rest 10 (ptrBehind rest) 19
      (fun _ => hok)).2 hptr
    rw [iff_true_left hok]
    constructor
    · intro h
      by_contra hfit
      rw [h.2 hfit] at hres
      exact absurd hres.1 (by decide)
    · intro hfit
      rw [hstrtol hfit] at hres
      exact ⟨fun _ => hres, fun hnot => absurd hfit hnot⟩
  · have hres := numericResult_overflow zendStrtod allowErrors 10
      (rfl : 19 = maxLengthOfLong - 1) hok
    rw [if_neg hptr] at hres
    rw [iff_false_left hok]
    constructor
    · intro h hfit
      rw [(h.1 hfit).1] at hres
      exact absurd hres (by decide)
    · exact fun hfit => ⟨fun h => absurd h hfit, fun _ => hres⟩

theorem not_misjudged (h : (significant rest).length ≠ 19)
    : ¬ Misjudged allowErrors rest := fun hbad => h hbad.2.1

/-- The function is right about the integer literals of every text that is not misjudged, and wrong
about the others. -/
theorem isNumericString_classifies_iff (allowErrors : Int) (str : List UInt8) :
    ClassifiesIntegers allowErrors str
        (isNumericString zendStrtod zendHexStrtod true true allowErrors str) ↔
      ¬ Misjudged allowErrors (str.dropWhile isBlankByte) := by
  rw [classifiesIntegers_iff]
  generalize hrest : str.dropWhile isBlankByte = rest
  by_cases hhex : hexOf rest = []
  swap
  · have ⟨_, _, _, _, _, _, hone, _⟩ := hexOf_parts hhex
    have hnil : significant rest = [] := by
      unfold significant
      rw [hone]
      rfl
    exact iff_of_true (rightVerdict_hex zendStrtod zendHexStrtod allowErrors hrest hhex)
      (not_misjudged (by rw [hnil]; decide))
  by_cases hmark : hexMark rest
  · have hvoid := rightVerdict_void zendStrtod zendHexStrtod allowErrors hrest hmark hhex
    exact iff_of_true hvoid.1 (not_misjudged (by rw [hvoid.2]; decide))
  by_cases hwhole : wholeOf rest = []
  · have hnil : significant rest = [] := by
      unfold significant
      rw [hwhole]
      rfl
    exact iff_of_true (rightVerdict_other zendStrtod zendHexStrtod allowErrors hrest hhex hwhole)
      (not_misjudged (by rw [hnil]; decide))
  by_cases hopens : opensFraction (tailOf rest) = true
  · refine iff_of_true
      (rightVerdict_fraction zendStrtod zendHexStrtod allowErrors hrest hhex hmark hwhole hopens) ?_
    intro h
    rw [h.2.2.1] at hopens
    exact absurd hopens (by decide)
  have hopens := eq_false_of_ne_true hopens
  have hmax : maxLengthOfLong = 20 := rfl
  rw [isNumericString_integer zendStrtod zendHexStrtod allowErrors hrest hmark hwhole hopens]
  by_cases hmany : maxLengthOfLong ≤ (significant rest).length
  · rw [if_pos hmany]
    exact iff_of_true (rightVerdict_many zendStrtod allowErrors hhex hwhole hopens hmany _)
      (not_misjudged (by omega))
  rw [if_neg hmany]
  by_cases hlen : (significant rest).length = 19
  · rw [hlen]
    exact rightVerdict_nineteen zendStrtod allowErrors hhex hwhole hopens hlen
  · exact iff_of_true (rightVerdict_few zendStrtod allowErrors hhex hwhole hopens (by omega))
      (not_misjudged hlen)

/-- The smallest `long` with letters behind it is reported as a `double`. -/
theorem isNumericString_smallest :
    ¬ ClassifiesIntegers 1 ("-9223372036854775808abc".toList.map ch)
      (isNumericString (fun _ => ()) (fun _ => ()) true true 1
        ("-9223372036854775808abc".toList.map ch)) := by
  intro h
  have hjudged : judgedInt 1 (("-9223372036854775808abc".toList.map ch).dropWhile isBlankByte) =
      some (-9223372036854775808) := by decide +kernel
  have hdouble : (isNumericString (fun _ => ()) (fun _ => ()) true true 1
      ("-9223372036854775808abc".toList.map ch)).type = .isDouble := by decide +kernel
  have hlong := (((classifiesIntegers_iff.mp h).2 _ hjudged).1 (by decide)).1
  rw [hdouble] at hlong
  exact absurd hlong (by decide)

end Php53.Zend
