import Php53.Zend.NumericString

/-!
# NumericLiteral — the integers that `is_numeric_string` recognises

The literals of a number, the one that a text is judged by, and when the scanner judges it right.
-/

namespace Php53.Zend

open List

variable {p q rest sign y : List UInt8} {allowErrors v : Int}

def OptSign (sign : List UInt8) : Prop := sign = [] ∨ sign = [ch '-'] ∨ sign = [ch '+']

def signedValue (sign : List UInt8) (n : Nat) : Int := if sign = [ch '-'] then -n else n

/-- An integer literal and its mathematical value. -/
inductive IntLiteral : List UInt8 → Int → Prop
  | decimal {sign digits : List UInt8} (hsign : OptSign sign) (hne : digits ≠ [])
      (hdigits : ∀ c ∈ digits, isDigit c = true) :
      IntLiteral (sign ++ digits) (signedValue sign (numberIn 10 digits))
  | hex {x : UInt8} {digits : List UInt8} (hx : x = ch 'x' ∨ x = ch 'X') (hne : digits ≠ [])
      (hdigits : ∀ c ∈ digits, isDigitIn 16 c = true) :
      IntLiteral (ch '0' :: x :: digits) (numberIn 16 digits)

inductive Exponent : List UInt8 → Prop
  | mk {e : UInt8} {sign digits : List UInt8} (he : e = ch 'e' ∨ e = ch 'E')
      (hsign : OptSign sign) (hne : digits ≠ []) (hdigits : ∀ c ∈ digits, isDigit c = true) :
      Exponent (e :: (sign ++ digits))

inductive FloatLiteral : List UInt8 → Prop
  | fraction {sign whole frac exponent : List UInt8} (hsign : OptSign sign)
      (hwhole : ∀ c ∈ whole, isDigit c = true) (hfrac : ∀ c ∈ frac, isDigit c = true)
      (hne : whole ≠ [] ∨ frac ≠ []) (hexponent : exponent = [] ∨ Exponent exponent) :
      FloatLiteral (sign ++ (whole ++ ch '.' :: (frac ++ exponent)))
  | exponent {sign whole exponent : List UInt8} (hsign : OptSign sign)
      (hwhole : ∀ c ∈ whole, isDigit c = true) (hne : whole ≠ []) (hexponent : Exponent exponent) :
      FloatLiteral (sign ++ (whole ++ exponent))

def NumericLiteral (p : List UInt8) : Prop := (∃ v, IntLiteral p v) ∨ FloatLiteral p

def LongestNumeric (rest p : List UInt8) : Prop :=
  p <+: rest ∧ NumericLiteral p ∧ ∀ q, q <+: rest → NumericLiteral q → q.length ≤ p.length

def Judged (allowErrors : Int) (rest p : List UInt8) : Prop :=
  if allowErrors = 0 then p = rest else LongestNumeric rest p

def FitsLong (v : Int) : Prop := -2 ^ 63 ≤ v ∧ v ≤ 2 ^ 63 - 1

instance (v : Int) : Decidable (FitsLong v) := inferInstanceAs (Decidable (_ ∧ _))

/-- A `long` is reported for the integer literals in its range, with their value, and a `double` for
the integer literals outside of it. -/
def ClassifiesIntegers {D : Type} (allowErrors : Int) (str : List UInt8) (r : NumericResult D) :
    Prop :=
  (r.type = .isLong ↔ ∃ p v, Judged allowErrors (str.dropWhile isBlankByte) p ∧ IntLiteral p v ∧
      FitsLong v) ∧
    (∀ p v, Judged allowErrors (str.dropWhile isBlankByte) p → IntLiteral p v → FitsLong v →
      r.lval = some v) ∧
    ∀ p v, Judged allowErrors (str.dropWhile isBlankByte) p → IntLiteral p v → ¬ FitsLong v →
      r.type = .isDouble

def signOf (s : List UInt8) : List UInt8 := if isSign (s.headD 0) then s.take 1 else []

def unsigned (s : List UInt8) : List UInt8 := if isSign (s.headD 0) then s.tail else s

def wholeOf (s : List UInt8) : List UInt8 := (unsigned s).takeWhile isDigit

def tailOf (s : List UInt8) : List UInt8 := (unsigned s).dropWhile isDigit

/-- The digits behind `0x`. -/
def hexOf (s : List UInt8) : List UInt8 :=
  if s.headD 0 = ch '0' ∧ (s.tail.headD 0 = ch 'x' ∨ s.tail.headD 0 = ch 'X') then
    (s.drop 2).takeWhile (isDigitIn 16)
  else []

theorem signOf_append_unsigned (s : List UInt8) : signOf s ++ unsigned s = s := by
  unfold signOf unsigned
  by_cases h : isSign (s.headD 0) = true
  · rw [if_pos h, if_pos h, ← drop_one]
    exact take_append_drop 1 s
  · rw [if_neg h, if_neg h, nil_append]

theorem optSign_signOf (s : List UInt8) : OptSign (signOf s) := by
  unfold signOf
  by_cases h : isSign (s.headD 0) = true
  · rw [if_pos h]
    cases s with
    | nil => exact Or.inl rfl
    | cons c s =>
      rw [headD_cons, isSign, Bool.or_eq_true] at h
      cases h with
      | inl h => exact Or.inr (Or.inl (by rw [of_decide_eq_true h]; rfl))
      | inr h => exact Or.inr (Or.inr (by rw [of_decide_eq_true h]; rfl))
  · rw [if_neg h]
    exact Or.inl rfl

theorem sign_unique (hsign : OptSign sign) (hy : isSign (y.headD 0) = false)
    : signOf (sign ++ y) = sign ∧ unsigned (sign ++ y) = y := by
  unfold signOf unsigned
  rcases hsign with rfl | rfl | rfl
  · rw [nil_append, if_neg (ne_true_of_eq_false hy), if_neg (ne_true_of_eq_false hy)]
    exact ⟨rfl, rfl⟩
  · exact ⟨rfl, rfl⟩
  · exact ⟨rfl, rfl⟩

theorem sign_of_prefix (hsign : OptSign sign) (hne : y ≠ []) (hy : isSign (y.headD 0) = false)
    (h : sign ++ y <+: rest) :
    signOf rest = sign ∧ y <+: unsigned rest := by
  have ⟨t, ht⟩ := h
  have hhead : isSign ((y ++ t).headD 0) = false := by
    cases y with
    | nil => exact absurd rfl hne
    | cons c y => exact hy
  have hparts := sign_unique hsign hhead
  rw [← append_assoc, ht] at hparts
  exact ⟨hparts.1, t, hparts.2.symm⟩

theorem prefix_takeWhile {p : UInt8 → Bool} {u : List UInt8} (hy : ∀ c ∈ y, p c = true)
    (h : y <+: u) : y <+: u.takeWhile p := by
  have ⟨t, ht⟩ := h
  rw [← ht, takeWhile_append_of_pos hy]
  exact prefix_append _ _

theorem parts_of_run {whole w u : List UInt8} {m : UInt8} (hwhole : ∀ c ∈ whole, isDigit c = true)
    (hm : isDigit m = false) (h : whole ++ m :: w <+: u) :
    u.takeWhile isDigit = whole ∧ m :: w <+: u.dropWhile isDigit := by
  have ⟨t, ht⟩ := h
  rw [← ht, append_assoc, takeWhile_append_of_pos hwhole,
    dropWhile_append_of_pos hwhole, cons_append,
    takeWhile_cons_of_neg (ne_true_of_eq_false hm), List.append_nil,
    dropWhile_cons_of_neg (ne_true_of_eq_false hm)]
  exact ⟨rfl, t, rfl⟩

theorem isDigit_not_sign {c : UInt8} (h : isDigit c = true) : isSign c = false := by
  by_contra hsign
  have hnot := isSign_not_digit (Bool.eq_true_of_not_eq_false hsign)
  rw [h] at hnot
  exact absurd hnot (by decide)

theorem mem_of_headD {ds : List UInt8} (hne : ds ≠ []) : ds.headD 0 ∈ ds := by
  cases ds with
  | nil => exact absurd rfl hne
  | cons c ds => exact mem_cons_self

theorem IntLiteral.at_front (hp : IntLiteral p v) (hinitial : p <+: rest) :
    (∃ ds, p = signOf rest ++ ds ∧ ds <+: wholeOf rest ∧ ds ≠ [] ∧
        v = signedValue (signOf rest) (numberIn 10 ds)) ∨
      ∃ hs, p = rest.take 2 ++ hs ∧ hs <+: hexOf rest ∧ hs ≠ [] ∧ 2 ≤ rest.length ∧
        v = numberIn 16 hs := by
  cases hp with
  | @decimal sign digits hsign hne hdigits =>
    have hhead : isSign (digits.headD 0) = false := isDigit_not_sign (hdigits _ (mem_of_headD hne))
    have ⟨hsame, hrun⟩ := sign_of_prefix hsign hne hhead hinitial
    exact Or.inl ⟨digits, by rw [hsame], prefix_takeWhile hdigits hrun, hne, by rw [hsame]⟩
  | @hex x digits hx hne hdigits =>
    have ⟨t, ht⟩ := hinitial
    have hhex : hexOf rest = (digits ++ t).takeWhile (isDigitIn 16) := by
      rw [← ht]
      exact if_pos ⟨rfl, hx⟩
    rw [← ht] at hhex ⊢
    refine Or.inr ⟨digits, rfl, ?_, hne, ?_, rfl⟩
    · rw [hhex]
      exact prefix_takeWhile hdigits (prefix_append _ _)
    · simp

theorem opensFraction_exponent {e d : UInt8} (he : e = ch 'e' ∨ e = ch 'E') (hsign : OptSign sign)
    (hd : isDigit d = true) (w : List UInt8) :
    opensFraction (e :: (sign ++ d :: w)) = true := by
  have hmark : decide (e = ch 'e' ∨ e = ch 'E') = true := decide_eq_true he
  have hminus : isSign (ch '-') = true := by decide
  have hplus : isSign (ch '+') = true := by decide
  unfold opensFraction
  rw [headD_cons, hmark, Bool.true_and, Bool.or_eq_true]
  apply Or.inr
  rcases hsign with rfl | rfl | rfl
  · show (isDigit d || isSign d && isDigit (w.headD 0)) = true
    rw [hd, Bool.true_or]
  · show (isDigit (ch '-') || isSign (ch '-') && isDigit d) = true
    rw [hminus, hd, Bool.and_self, Bool.or_true]
  · show (isDigit (ch '+') || isSign (ch '+') && isDigit d) = true
    rw [hplus, hd, Bool.and_self, Bool.or_true]

theorem FloatLiteral.at_front (hq : FloatLiteral q) (hinitial : q <+: rest) :
    opensFraction (tailOf rest) = true := by
  have hdot : isDigit (ch '.') = false := by decide
  have hdotSign : isSign (ch '.') = false := by decide
  cases hq with
  | @fraction sign whole frac exponent hsign hwhole hfrac hne hexponent =>
    have hhead : isSign ((whole ++ ch '.' :: (frac ++ exponent)).headD 0) = false := by
      cases whole with
      | nil => exact hdotSign
      | cons c whole => exact isDigit_not_sign (hwhole c mem_cons_self)
    have ⟨_, hrun⟩ := sign_of_prefix hsign (by simp) hhead hinitial
    have ⟨_, t, ht⟩ := parts_of_run hwhole hdot hrun
    unfold tailOf
    rw [← ht]
    rfl
  | @exponent sign whole exponent hsign hwhole hne hexponent =>
    have hhead : isSign ((whole ++ exponent).headD 0) = false := by
      cases whole with
      | nil => exact absurd rfl hne
      | cons c whole => exact isDigit_not_sign (hwhole c mem_cons_self)
    have ⟨_, hrun⟩ := sign_of_prefix hsign (by simp [hne]) hhead hinitial
    cases hexponent with
    | @mk e esign digits he hesign hedigits hall =>
      have hmark : isDigit e = false := by
        cases he with
        | inl he => rw [he]; decide
        | inr he => rw [he]; decide
      have ⟨_, t, ht⟩ := parts_of_run hwhole hmark hrun
      have hdigit : isDigit (digits.headD 0) = true := hall _ (mem_of_headD hedigits)
      unfold tailOf
      cases digits with
      | nil => exact absurd rfl hedigits
      | cons d digits =>
        rw [headD_cons] at hdigit
        have hsplit : e :: (esign ++ d :: digits) ++ t = e :: (esign ++ d :: (digits ++ t)) := by
          simp
        rw [← ht, hsplit]
        exact opensFraction_exponent he hesign hdigit (digits ++ t)

theorem floatLiteral_of_opensFraction {tail : List UInt8} (h : opensFraction tail = true) :
    ∃ y, y <+: tail ∧ y ≠ [] ∧ ∀ sign whole : List UInt8, OptSign sign →
      (∀ c ∈ whole, isDigit c = true) → whole ≠ [] → FloatLiteral (sign ++ (whole ++ y)) := by
  have hnil : ∀ c ∈ ([] : List UInt8), isDigit c = true := fun c hc => absurd hc (by simp)
  unfold opensFraction at h
  rw [Bool.or_eq_true] at h
  cases tail with
  | nil => exact absurd h (by decide)
  | cons e tail =>
    rw [headD_cons, tail_cons] at h
    cases h with
    | inl hdot =>
      rw [of_decide_eq_true hdot]
      refine ⟨[ch '.'], ⟨tail, rfl⟩, by simp, fun sign whole hsign hwhole hne => ?_⟩
      exact FloatLiteral.fraction hsign hwhole hnil (Or.inl hne) (Or.inl rfl)
    | inr hexponent =>
      rw [Bool.and_eq_true, Bool.or_eq_true, Bool.and_eq_true] at hexponent
      have he := of_decide_eq_true hexponent.1
      cases tail with
      | nil => exact absurd hexponent.2 (by decide)
      | cons d tail =>
        rw [headD_cons, tail_cons] at hexponent
        cases hexponent.2 with
        | inl hd =>
          refine ⟨[e, d], ⟨tail, rfl⟩, by simp, fun sign whole hsign hwhole hne => ?_⟩
          have hone : Exponent (e :: ([] ++ [d])) :=
            .mk he (Or.inl rfl) (by simp) (fun c hc => by rw [mem_singleton.mp hc]; exact hd)
          exact .exponent hsign hwhole hne hone
        | inr hd =>
          cases tail with
          | nil => exact absurd hd.2 (by decide)
          | cons d' tail =>
            refine ⟨[e, d, d'], ⟨tail, rfl⟩, by simp, fun sign whole hsign hwhole hne => ?_⟩
            have hopt : OptSign [d] := by
              have hsign := hd.1
              rw [isSign, Bool.or_eq_true] at hsign
              cases hsign with
              | inl h => exact Or.inr (Or.inl (by rw [of_decide_eq_true h]))
              | inr h => exact Or.inr (Or.inr (by rw [of_decide_eq_true h]))
            have hone : Exponent (e :: ([d] ++ [d'])) :=
              .mk he hopt (by simp) (fun c hc => by rw [mem_singleton.mp hc]; exact hd.2)
            exact .exponent hsign hwhole hne hone

theorem mem_wholeOf : ∀ c ∈ wholeOf rest, isDigit c = true :=
  fun _ hc => mem_takeWhile_imp hc

theorem text_parts (rest : List UInt8) : signOf rest ++ (wholeOf rest ++ tailOf rest) = rest := by
  unfold wholeOf tailOf
  rw [takeWhile_append_dropWhile, signOf_append_unsigned]

/-- The value of the integer literal that a text is judged by, if it is one. -/
def judgedInt (allowErrors : Int) (rest : List UInt8) : Option Int :=
  if hexOf rest ≠ [] then
    if allowErrors = 0 ∧ rest.length ≠ 2 + (hexOf rest).length then none
    else some (numberIn 16 (hexOf rest))
  else if wholeOf rest ≠ [] ∧ opensFraction (tailOf rest) = false then
    if allowErrors = 0 ∧ tailOf rest ≠ [] then none
    else some (signedValue (signOf rest) (numberIn 10 (wholeOf rest)))
  else none

theorem hexOf_parts (h : hexOf rest ≠ []) :
    ∃ x hs, rest = ch '0' :: x :: hs ∧ (x = ch 'x' ∨ x = ch 'X') ∧ hexOf rest <+: hs ∧
      signOf rest = [] ∧ wholeOf rest = [ch '0'] ∧ opensFraction (tailOf rest) = false := by
  unfold hexOf at h ⊢
  by_cases hmark : rest.headD 0 = ch '0' ∧ (rest.tail.headD 0 = ch 'x' ∨ rest.tail.headD 0 = ch 'X')
  · rw [if_pos hmark]
    cases rest with
    | nil => exact absurd hmark.1 (by decide)
    | cons z rest =>
      cases rest with
      | nil =>
        have hnul : ¬((0 : UInt8) = ch 'x' ∨ (0 : UInt8) = ch 'X') := by decide
        exact absurd hmark.2 hnul
      | cons x hs =>
        rw [headD_cons, tail_cons, headD_cons] at hmark
        have hx := hmark.2
        rw [hmark.1]
        refine ⟨x, hs, rfl, hx, List.takeWhile_prefix _, ?_⟩
        cases hx with
        | inl hx => rw [hx]; exact ⟨rfl, rfl, rfl⟩
        | inr hx => rw [hx]; exact ⟨rfl, rfl, rfl⟩
  · rw [if_neg hmark] at h
    exact absurd rfl h

theorem intLiteral_hexOf (h : hexOf rest ≠ []) :
    IntLiteral (rest.take 2 ++ hexOf rest) (numberIn 16 (hexOf rest)) ∧
      rest.take 2 ++ hexOf rest <+: rest ∧
      (rest.take 2 ++ hexOf rest).length = 2 + (hexOf rest).length := by
  have hdigits : ∀ c ∈ hexOf rest, isDigitIn 16 c = true := by
    intro c hc
    unfold hexOf at hc
    split at hc
    · exact mem_takeWhile_imp hc
    · exact absurd hc (by simp)
  have ⟨x, hs, hrest, hx, ⟨t, ht⟩, _⟩ := hexOf_parts h
  have htake : rest.take 2 = [ch '0', x] := by
    rw [hrest]
    rfl
  rw [htake]
  refine ⟨.hex hx h hdigits, ⟨t, ?_⟩, by rw [length_append]; rfl⟩
  calc [ch '0', x] ++ hexOf rest ++ t = ch '0' :: x :: (hexOf rest ++ t) := rfl
    _ = rest := by rw [ht, ← hrest]

theorem intLiteral_wholeOf (h : wholeOf rest ≠ []) :
    IntLiteral (signOf rest ++ wholeOf rest)
        (signedValue (signOf rest) (numberIn 10 (wholeOf rest))) ∧
      signOf rest ++ wholeOf rest <+: rest := by
  refine ⟨.decimal (optSign_signOf rest) h mem_wholeOf, ⟨tailOf rest, ?_⟩⟩
  rw [append_assoc, text_parts]

theorem numericLiteral_length (hq : NumericLiteral q) (hinitial : q <+: rest)
    (hopens : opensFraction (tailOf rest) = false) :
    (hexOf rest ≠ [] → q.length ≤ 2 + (hexOf rest).length) ∧
      (hexOf rest = [] → q.length ≤ (signOf rest ++ wholeOf rest).length) := by
  cases hq with
  | inl hint =>
    have ⟨v, hint⟩ := hint
    cases hint.at_front hinitial with
    | inl hdec =>
      have ⟨ds, hq, hds, _, _⟩ := hdec
      have hle := hds.length_le
      rw [hq, length_append, length_append]
      refine ⟨fun hne => ?_, fun _ => by omega⟩
      have ⟨_, _, _, _, _, hsign, hwhole, _⟩ := hexOf_parts hne
      rw [hwhole] at hle
      rw [hsign]
      exact Nat.le_trans (by simpa using hle) (Nat.le_trans (by decide : 1 ≤ 2) (Nat.le_add_right _ _))
    | inr hhex =>
      have ⟨hs, hq, hhs, hne, hlen, _⟩ := hhex
      have hle := hhs.length_le
      rw [hq, length_append, length_take_of_le hlen]
      refine ⟨fun _ => by omega, fun hnil => ?_⟩
      rw [hnil] at hhs
      exact absurd (prefix_nil.mp hhs) hne
  | inr hfloat =>
    rw [hfloat.at_front hinitial] at hopens
    exact absurd hopens (by decide)

theorem Judged.isPrefix (h : Judged allowErrors rest p) :
    p <+: rest := by
  unfold Judged at h
  split at h
  · rw [h]
  · exact h.1

theorem Judged.length_le (h : Judged allowErrors rest p) (hq : NumericLiteral q)
    (hinitial : q <+: rest) : q.length ≤ p.length := by
  unfold Judged at h
  split at h
  · rw [h]
    exact List.IsPrefix.length_le hinitial
  · exact h.2.2 q hinitial hq

theorem judgedInt_of_judged (h : Judged allowErrors rest p) (hp : IntLiteral p v)
    : judgedInt allowErrors rest = some v := by
  have hwholeText : allowErrors = 0 → p.length = rest.length := by
    intro h0
    unfold Judged at h
    rw [if_pos h0] at h
    rw [h]
  unfold judgedInt
  cases hp.at_front h.isPrefix with
  | inl hdec =>
    have ⟨ds, hpe, hds, hne, hv⟩ := hdec
    have hle := hds.length_le
    have hwhole : wholeOf rest ≠ [] := by
      intro hnil
      rw [hnil] at hds
      exact hne (prefix_nil.mp hds)
    have hlen : p.length = (signOf rest).length + ds.length := by rw [hpe, length_append]
    have hhex : hexOf rest = [] := by
      by_contra hhex
      have ⟨hlit, hpre, hlong⟩ := intLiteral_hexOf hhex
      have hless := h.length_le (Or.inl ⟨_, hlit⟩) hpre
      have ⟨_, _, _, _, _, hsign, hone, _⟩ := hexOf_parts hhex
      rw [hone, length_singleton] at hle
      rw [hsign, length_nil] at hlen
      omega
    have hopens : opensFraction (tailOf rest) = false := by
      by_contra hopens
      have ⟨y, ⟨t, ht⟩, hy, hfloat⟩ :=
        floatLiteral_of_opensFraction (Bool.eq_true_of_not_eq_false hopens)
      have hlit := hfloat _ _ (optSign_signOf rest) mem_wholeOf hwhole
      have hless := h.length_le (Or.inr hlit) ⟨t, by
        rw [append_assoc, append_assoc, ht, text_parts]⟩
      have hpos := length_pos_of_ne_nil hy
      rw [length_append, length_append] at hless
      omega
    have hfull : ds = wholeOf rest := by
      have ⟨hlit, hpre⟩ := intLiteral_wholeOf hwhole
      have hless := h.length_le (Or.inl ⟨_, hlit⟩) hpre
      rw [length_append] at hless
      exact hds.eq_of_length (by omega)
    have htail : ¬(allowErrors = 0 ∧ tailOf rest ≠ []) := by
      intro hbad
      have hpos := length_pos_of_ne_nil hbad.2
      have hrest := congrArg List.length (text_parts rest)
      have hsame := hwholeText hbad.1
      rw [length_append, length_append] at hrest
      omega
    rw [if_neg (not_not.mpr hhex), if_pos ⟨hwhole, hopens⟩, if_neg htail, hv, hfull]
  | inr hhex =>
    have ⟨hs, hpe, hhs, hne, hlen, hv⟩ := hhex
    have hle := hhs.length_le
    have hnonempty : hexOf rest ≠ [] := by
      intro hnil
      rw [hnil] at hhs
      exact hne (prefix_nil.mp hhs)
    have ⟨hlit, hpre, hlong⟩ := intLiteral_hexOf hnonempty
    have hless := h.length_le (Or.inl ⟨_, hlit⟩) hpre
    have hplen : p.length = 2 + hs.length := by
      rw [hpe, length_append, length_take_of_le hlen]
    have hfull : hs = hexOf rest := hhs.eq_of_length (by omega)
    have hall : ¬(allowErrors = 0 ∧ rest.length ≠ 2 + (hexOf rest).length) := by
      intro hbad
      have hsame := hwholeText hbad.1
      omega
    rw [if_pos hnonempty, if_neg hall, hv, hfull]

theorem judged_of_judgedInt (h : judgedInt allowErrors rest = some v) :
    ∃ p, Judged allowErrors rest p ∧ IntLiteral p v := by
  unfold judgedInt at h
  unfold Judged
  by_cases hhex : hexOf rest ≠ []
  · rw [if_pos hhex] at h
    have ⟨hlit, hpre, hlong⟩ := intLiteral_hexOf hhex
    have ⟨_, _, _, _, _, _, _, hopens⟩ := hexOf_parts hhex
    by_cases hall : allowErrors = 0 ∧ rest.length ≠ 2 + (hexOf rest).length
    · rw [if_pos hall] at h
      exact absurd h (by simp)
    · rw [if_neg hall, Option.some.injEq] at h
      rw [← h]
      refine ⟨_, ?_, hlit⟩
      split
      · exact hpre.eq_of_length (by omega)
      · refine ⟨hpre, Or.inl ⟨_, hlit⟩, fun q hq hnum => ?_⟩
        rw [hlong]
        exact (numericLiteral_length hnum hq hopens).1 hhex
  · rw [if_neg hhex] at h
    by_cases hdec : wholeOf rest ≠ [] ∧ opensFraction (tailOf rest) = false
    · rw [if_pos hdec] at h
      have ⟨hlit, hpre⟩ := intLiteral_wholeOf hdec.1
      by_cases hall : allowErrors = 0 ∧ tailOf rest ≠ []
      · rw [if_pos hall] at h
        exact absurd h (by simp)
      · rw [if_neg hall, Option.some.injEq] at h
        rw [← h]
        refine ⟨_, ?_, hlit⟩
        split
        · rename_i h0
          have htail : tailOf rest = [] := by
            by_contra htail
            exact hall ⟨h0, htail⟩
          have hparts := text_parts rest
          rw [htail, List.append_nil] at hparts
          exact hparts
        · refine ⟨hpre, Or.inl ⟨_, hlit⟩, fun q hq hnum => ?_⟩
          exact (numericLiteral_length hnum hq hdec.2).2 (not_not.mp hhex)
    · rw [if_neg hdec] at h
      exact absurd h (by simp)

end Php53.Zend
