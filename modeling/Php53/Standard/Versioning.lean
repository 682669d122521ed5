import Mathlib.Data.List.Chain
import Mathlib.Data.List.TakeWhile
import Php53.Reasoning.Comparison
import Php53.Zend.Decimal

/-!
# Versioning — `php_version_compare`

A version is rewritten to parts between dots, and the parts are compared one by one.  The first half
is the source; the second says what `php_canonicalize_version` leaves.
-/

namespace Php53.Standard

open Reasoning
open Zend (ch isDigit digitsNat)
open List

/-- `isalnum`, as far as every locale agrees. -/
structure VersionCtype where
  isalnum : UInt8 → Bool
  isalnum_ascii : ∀ c, c < 128 → isalnum c =
    (isDigit c || ch 'A' ≤ c && c ≤ ch 'Z' || ch 'a' ≤ c && c ≤ ch 'z')

def isSpecialVer (c : UInt8) : Bool := c = ch '-' ∨ c = ch '_' ∨ c = ch '+'

def isDig (c : UInt8) : Bool := isDigit c ∧ c ≠ ch '.'

def isNDig (c : UInt8) : Bool := ¬ isDigit c ∧ c ≠ ch '.'

/-- `if (lq != '.') *q++ = '.';` -/
def dotBehind (lq : UInt8) : List UInt8 := if lq ≠ ch '.' then [ch '.'] else []

namespace VersionCtype

variable (t : VersionCtype)

/-- What a turn of the loop of `php_canonicalize_version` writes: `lp` was read and `lq` was written
before. -/
def canonStep (lp lq c : UInt8) : List UInt8 :=
  if isSpecialVer c then dotBehind lq
  else if isNDig lp ∧ isDig c ∨ isDig lp ∧ isNDig c then dotBehind lq ++ [c]
  else if ¬ t.isalnum c then dotBehind lq
  else [c]

/-- The loop of `php_canonicalize_version`; `buf` ends at `q`. -/
def canonLoop : UInt8 → List UInt8 → List UInt8 → List UInt8
  | _, buf, [] => buf
  | lp, buf, c :: p => canonLoop c (buf ++ t.canonStep lp (buf.getLastD 0) c) p

def phpCanonicalizeVersion : List UInt8 → List UInt8
  | [] => []
  | c :: p => t.canonLoop c [c] p

end VersionCtype

/-- The table of `compare_special_version_forms`. -/
def specialForms : List (List UInt8 × ℤ) :=
  [([ch 'd', ch 'e', ch 'v'], 0),
    ([ch 'a', ch 'l', ch 'p', ch 'h', ch 'a'], 1),
    ([ch 'a'], 1),
    ([ch 'b', ch 'e', ch 't', ch 'a'], 2),
    ([ch 'b'], 2),
    ([ch 'R', ch 'C'], 3),
    ([ch 'r', ch 'c'], 3),
    ([ch '#'], 4),
    ([ch 'p', ch 'l'], 5),
    ([ch 'p'], 5)]

/-- `found1`: the order of the first form that the name begins with. -/
def formOrder (form : List UInt8) : ℤ :=
  match specialForms.find? fun pp => pp.1.isPrefixOf form with
  | some pp => pp.2
  | none => -1

def compareSpecialVersionForms (form1 form2 : List UInt8) : ℤ :=
  (formOrder form1 - formOrder form2).sign

def placeholder : List UInt8 := [ch '#', ch 'N', ch '#']

/-- `strtol(p, NULL, 10)` of a part that begins with a digit. -/
def strtolPart (p : List UInt8) : ℕ := min (2 ^ 63 - 1) (digitsNat (p.takeWhile isDigit))

/-- A turn of the loop of `php_version_compare`. -/
def comparePart (p1 p2 : List UInt8) : ℤ :=
  if isDigit (p1.headD 0) ∧ isDigit (p2.headD 0) then
    ((strtolPart p1 : ℤ) - strtolPart p2).sign
  else if ¬ isDigit (p1.headD 0) ∧ ¬ isDigit (p2.headD 0) then compareSpecialVersionForms p1 p2
  else if isDigit (p1.headD 0) then compareSpecialVersionForms placeholder p2
  else compareSpecialVersionForms p1 placeholder

/-- The part in front of `strchr(p, '.')`. -/
def partOf (p : List UInt8) : List UInt8 := p.takeWhile (· ≠ ch '.')

/-- What is behind `strchr(p, '.')`, if there is a dot. -/
def afterDot (p : List UInt8) : Option (List UInt8) :=
  match p.dropWhile (· ≠ ch '.') with
  | [] => none
  | _ :: r => some r

theorem part_of_afterDot_none {p : List UInt8} (h : afterDot p = none) : partOf p = p := by
  have hsplit : partOf p ++ p.dropWhile (· ≠ ch '.') = p := takeWhile_append_dropWhile
  unfold afterDot at h
  split at h
  · rename_i hnil
    rw [hnil, List.append_nil] at hsplit
    exact hsplit
  · exact nomatch h

theorem eq_of_afterDot {p r : List UInt8} (h : afterDot p = some r) :
    p = partOf p ++ ch '.' :: r := by
  have hsplit : partOf p ++ p.dropWhile (· ≠ ch '.') = p := takeWhile_append_dropWhile
  unfold afterDot at h
  split at h
  · cases h
  · rename_i c r' hcons
    have hc : c = ch '.' := by
      have hne : p.dropWhile (· ≠ ch '.') ≠ [] := by
        rw [hcons]
        exact cons_ne_nil _ _
      have hhead := head_dropWhile_not (fun c => decide (c ≠ ch '.')) hne
      simp only [hcons, head_cons] at hhead
      exact Decidable.not_not.mp (of_decide_eq_false hhead)
    rw [← Option.some.inj h, ← hc, ← hcons]
    exact hsplit.symm

theorem length_lt_of_afterDot {p r : List UInt8} (h : afterDot p = some r) :
    r.length < p.length := by
  rw [eq_of_afterDot h, length_append, length_cons]
  omega

/-- The loop of `php_version_compare`: `compare`, and what is left behind `n1` and `n2`. -/
def versionLoop : Option (List UInt8) → Option (List UInt8) →
    ℤ × Option (List UInt8) × Option (List UInt8)
  | some p1, some p2 =>
    if p1 = [] ∨ p2 = [] then (0, some p1, some p2)
    else
      let compare := comparePart (partOf p1) (partOf p2)
      if compare ≠ 0 then (compare, afterDot p1, afterDot p2)
      else
        match _h : afterDot p1 with
        | none => (0, none, afterDot p2)
        | some r1 => versionLoop (some r1) (afterDot p2)
  | n1, n2 => (0, n1, n2)
termination_by n1 => (n1.getD []).length
decreasing_by exact length_lt_of_afterDot _h

namespace VersionCtype

variable (t : VersionCtype)

/-- `ver1`, and `ver2` likewise. -/
def canonicalUnlessHash (version : List UInt8) : List UInt8 :=
  if version.headD 0 = ch '#' then version else t.phpCanonicalizeVersion version

/-- What is left of one version when the other one has ended; `compare` is the recursive call. -/
def compareRest (compare : List UInt8 → List UInt8 → ℤ) :
    Option (List UInt8) → Option (List UInt8) → ℤ
  | some p1, _ => if isDigit (p1.headD 0) then 1 else compare p1 placeholder
  | none, some p2 => if isDigit (p2.headD 0) then -1 else compare placeholder p2
  | none, none => 0

/-- `php_version_compare`, in calls that are nested no deeper than `fuel`. -/
def versionCompareFuel : ℕ → List UInt8 → List UInt8 → ℤ
  | 0, _, _ => 0
  | fuel + 1, origVer1, origVer2 =>
    if origVer1 = [] ∨ origVer2 = [] then
      if origVer1 = [] ∧ origVer2 = [] then 0
      else if origVer1 ≠ [] then 1
      else -1
    else
      let r := versionLoop (some (t.canonicalUnlessHash origVer1))
        (some (t.canonicalUnlessHash origVer2))
      if r.1 ≠ 0 then r.1 else compareRest (versionCompareFuel fuel) r.2.1 r.2.2

def phpVersionCompare (origVer1 origVer2 : List UInt8) : ℤ :=
  t.versionCompareFuel (2 * (origVer1.length + origVer2.length) + 2) origVer1 origVer2

end VersionCtype

variable {c : UInt8}

theorem isDigit_ne_dot (h : isDigit c = true) : c ≠ ch '.' := by
  intro hc
  rw [hc] at h
  exact absurd h (by decide)

theorem isDig_eq (c : UInt8) : isDig c = isDigit c := by
  unfold isDig
  by_cases h : isDigit c = true
  · rw [h]
    exact decide_eq_true ⟨rfl, isDigit_ne_dot h⟩
  · rw [Bool.not_eq_true] at h
    rw [h]
    exact decide_eq_false fun hb => nomatch hb.1

namespace VersionCtype

variable (t : VersionCtype)

theorem isalnum_of_isDigit (h : isDigit c = true) : t.isalnum c = true := by
  have hlt : c < 128 := by
    have hrange := Zend.isDigit_iff.mp h
    rw [UInt8.lt_iff_toNat_lt]
    show c.toNat < 128
    omega
  rw [t.isalnum_ascii c hlt, h]
  rfl

theorem isalnum_dot : t.isalnum (ch '.') = false := t.isalnum_ascii _ (by decide)

theorem isalnum_hash : t.isalnum (ch '#') = false := t.isalnum_ascii _ (by decide)

theorem isalnum_special (h : isSpecialVer c = true) : t.isalnum c = false := by
  have hc : c = ch '-' ∨ c = ch '_' ∨ c = ch '+' := of_decide_eq_true h
  rcases hc with hc | hc | hc
  · rw [hc]
    exact t.isalnum_ascii _ (by decide)
  · rw [hc]
    exact t.isalnum_ascii _ (by decide)
  · rw [hc]
    exact t.isalnum_ascii _ (by decide)

def LeavesDot (lp c : UInt8) : Prop :=
  isSpecialVer c = true ∨ t.isalnum c = false ∧ ¬ (isDigit lp = true ∧ c ≠ ch '.')

def Changes (lp c : UInt8) : Prop :=
  isNDig lp = true ∧ isDig c = true ∨ isDig lp = true ∧ isNDig c = true

instance (lp c : UInt8) : Decidable (Changes lp c) := inferInstanceAs (Decidable (_ ∨ _))

variable {t} {lp lq c : UInt8} {x : List UInt8}

theorem Changes.iff : Changes lp c ↔
    isDigit lp ≠ isDigit c ∧ lp ≠ ch '.' ∧ c ≠ ch '.' := by
  unfold Changes isNDig
  rw [isDig_eq, isDig_eq, decide_eq_true_eq, decide_eq_true_eq]
  have hlp : isDigit lp = true → lp ≠ ch '.' := isDigit_ne_dot
  have hc : isDigit c = true → c ≠ ch '.' := isDigit_ne_dot
  cases h : isDigit lp <;> cases h' : isDigit c <;> simp_all

theorem changes_of_keep (h : ¬ t.LeavesDot lp c) (halnum : t.isalnum c = false) :
    Changes lp c := by
  have hkeep : isDigit lp = true ∧ c ≠ ch '.' :=
    Decidable.not_not.mp fun hb => h (.inr ⟨halnum, hb⟩)
  have hc : isDigit c = false := by
    rw [← Bool.not_eq_true]
    intro hc
    exact absurd (t.isalnum_of_isDigit hc) (by rw [halnum]; decide)
  rw [Changes.iff, hkeep.1, hc]
  exact ⟨nofun, isDigit_ne_dot hkeep.1, hkeep.2⟩

theorem isalnum_of_keep (h : ¬ t.LeavesDot lp c) (hno : ¬ Changes lp c) : t.isalnum c = true := by
  rw [← Bool.not_eq_false]
  exact fun halnum => hno (changes_of_keep h halnum)

theorem ne_dot_of_keep (h : ¬ t.LeavesDot lp c) : c ≠ ch '.' := by
  intro hc
  apply h
  rw [hc]
  exact .inr ⟨t.isalnum_dot, fun hboth => hboth.2 rfl⟩

theorem canonStep_keep (h : ¬ t.LeavesDot lp c) :
    t.canonStep lp lq c = (if Changes lp c then dotBehind lq else []) ++ [c] := by
  unfold canonStep
  rw [if_neg fun hspecial => h (.inl hspecial)]
  by_cases hchange : Changes lp c
  · rw [if_pos hchange]
    exact if_pos hchange
  · rw [if_neg hchange, nil_append]
    exact (if_neg hchange).trans (if_neg (not_not_intro (isalnum_of_keep h hchange)))

theorem canonStep_leavesDot (h : t.LeavesDot lp c) : t.canonStep lp lq c = dotBehind lq := by
  unfold canonStep
  by_cases hspecial : isSpecialVer c = true
  · exact if_pos hspecial
  · have hleaves := h.resolve_left hspecial
    have hno : ¬ Changes lp c := by
      rw [Changes.iff]
      intro hchange
      cases hc : isDigit c with
      | true => exact absurd (t.isalnum_of_isDigit hc) (by rw [hleaves.1]; decide)
      | false =>
        rw [hc] at hchange
        exact hleaves.2 ⟨Bool.eq_true_of_not_eq_false hchange.1, hchange.2.2⟩
    have halnum : ¬ t.isalnum c = true := by
      rw [hleaves.1]
      decide
    rw [if_neg hspecial]
    exact (if_neg hno).trans (if_pos halnum)

theorem getLastD_dotBehind {q : List UInt8} (h : q.getLastD 0 = lq) :
    (q ++ dotBehind lq).getLastD 0 = ch '.' := by
  unfold dotBehind
  split
  · exact getLastD_concat ..
  · rename_i hdot
    rw [List.append_nil, h]
    exact Decidable.not_not.mp hdot

theorem getLastD_canonStep {q : List UInt8} (h : q.getLastD 0 = lq) :
    (q ++ t.canonStep lp lq c).getLastD 0 = ch '.' ∧ t.LeavesDot lp c ∨
      (q ++ t.canonStep lp lq c).getLastD 0 = c ∧ c ≠ ch '.' ∧ ¬ t.LeavesDot lp c := by
  by_cases hleaves : t.LeavesDot lp c
  · rw [canonStep_leavesDot hleaves]
    exact .inl ⟨getLastD_dotBehind h, hleaves⟩
  · rw [canonStep_keep hleaves, ← append_assoc]
    exact .inr ⟨getLastD_concat .., ne_dot_of_keep hleaves, hleaves⟩

theorem canonLoop_append (lp : UInt8) (buf a b : List UInt8) :
    t.canonLoop lp buf (a ++ b) = t.canonLoop (a.getLastD lp) (t.canonLoop lp buf a) b := by
  induction a generalizing lp buf with
  | nil => rfl
  | cons c a ih =>
    rw [cons_append, canonLoop, canonLoop, ih, getLastD_cons]

theorem canonLoop_eq_append (lp : UInt8) (buf p : List UInt8) :
    ∃ rest, t.canonLoop lp buf p = buf ++ rest := by
  induction p generalizing lp buf with
  | nil => exact ⟨[], (List.append_nil buf).symm⟩
  | cons c p ih =>
    have ⟨rest, hrest⟩ := ih c (buf ++ t.canonStep lp (buf.getLastD 0) c)
    rw [append_assoc] at hrest
    exact ⟨_, hrest⟩

theorem phpCanonicalizeVersion_append (hx : x ≠ []) (b : List UInt8) :
    t.phpCanonicalizeVersion (x ++ b) =
      t.canonLoop (x.getLastD 0) (t.phpCanonicalizeVersion x) b := by
  cases x with
  | nil => exact absurd rfl hx
  | cons c p =>
    rw [cons_append, phpCanonicalizeVersion, phpCanonicalizeVersion, canonLoop_append,
      getLastD_cons]

theorem phpCanonicalizeVersion_concat (hx : x ≠ []) (c : UInt8) :
    t.phpCanonicalizeVersion (x ++ [c]) = t.phpCanonicalizeVersion x ++
      t.canonStep (x.getLastD 0) ((t.phpCanonicalizeVersion x).getLastD 0) c := by
  rw [phpCanonicalizeVersion_append hx]
  rfl

theorem headD_phpCanonicalizeVersion (x : List UInt8) :
    (t.phpCanonicalizeVersion x).headD 0 = x.headD 0 := by
  cases x with
  | nil => rfl
  | cons c p =>
    have ⟨rest, hrest⟩ := t.canonLoop_eq_append c [c] p
    rw [phpCanonicalizeVersion, hrest]
    rfl

theorem phpCanonicalizeVersion_ne_nil (hx : x ≠ []) :
    t.phpCanonicalizeVersion x ≠ [] := by
  cases x with
  | nil => exact absurd rfl hx
  | cons c p =>
    have ⟨rest, hrest⟩ := t.canonLoop_eq_append c [c] p
    rw [phpCanonicalizeVersion, hrest]
    exact cons_ne_nil _ _

theorem getLastD_phpCanonicalizeVersion (hx : x ≠ []) :
    (t.phpCanonicalizeVersion x).getLastD 0 = ch '.' ∨
      (t.phpCanonicalizeVersion x).getLastD 0 = x.getLastD 0 := by
  cases eq_nil_or_concat' x with
  | inl hnil => exact absurd hnil hx
  | inr hconcat =>
    have ⟨front, c, he⟩ := hconcat
    rw [he]
    by_cases hfront : front = []
    · rw [hfront]
      exact .inr rfl
    · rw [phpCanonicalizeVersion_concat hfront, getLastD_concat]
      cases @getLastD_canonStep t (front.getLastD 0) _ c
        (t.phpCanonicalizeVersion front) rfl with
      | inl h => exact .inl h.1
      | inr h => exact .inr h.1

variable (t)

def OpenEnd (x : List UInt8) : Prop :=
  x = [ch '.'] ∨ ∃ u d c, x = u ++ [d, c] ∧ t.LeavesDot d c

def HashFree (x : List UInt8) : Prop :=
  x.headD 0 ≠ ch '#' ∧ x.IsChain fun d c => isDigit d = true → c ≠ ch '#'

/-- A version that ends with a part, and none of whose parts is taken for the placeholder. -/
structure Orderly (x : List UInt8) : Prop where
  hashFree : HashFree x
  closed : ¬ t.OpenEnd x

variable {t}

theorem openEnd_concat {front : List UInt8} (h : front ≠ []) :
    t.OpenEnd (front ++ [c]) ↔ t.LeavesDot (front.getLastD 0) c := by
  have ⟨u, d, hfront⟩ := (eq_nil_or_concat' front).resolve_left h
  rw [hfront, getLastD_concat, append_assoc]
  constructor
  · intro hopen
    rcases hopen with hdot | ⟨u', d', c', he, hleaves⟩
    · have hlen := congrArg List.length hdot
      simp at hlen
    · have hparts := append_inj' he rfl
      have hd : d = d' := head_eq_of_cons_eq hparts.2
      have hc : c = c' := head_eq_of_cons_eq (tail_eq_of_cons_eq hparts.2)
      rw [hd, hc]
      exact hleaves
  · exact fun hleaves => .inr ⟨u, d, c, rfl, hleaves⟩

theorem getLastD_eq_dot (hx : x ≠ []) :
    (t.phpCanonicalizeVersion x).getLastD 0 = ch '.' ↔ t.OpenEnd x := by
  have ⟨front, c, he⟩ := (eq_nil_or_concat' x).resolve_left hx
  rw [he]
  by_cases hfront : front = []
  · rw [hfront]
    constructor
    · intro hc
      have hdot : c = ch '.' := hc
      exact .inl (by rw [hdot]; rfl)
    · intro hopen
      rcases hopen with hdot | ⟨u, d, c', he', -⟩
      · rw [hdot]
        rfl
      · have hlen := congrArg List.length he'
        simp at hlen
  · rw [openEnd_concat hfront, phpCanonicalizeVersion_concat hfront]
    rcases @getLastD_canonStep t (front.getLastD 0) _ c
      (t.phpCanonicalizeVersion front) rfl with h | h
    · exact ⟨fun _ => h.2, fun _ => h.1⟩
    · exact ⟨fun hdot => absurd (h.1.symm.trans hdot) h.2.1, fun hleaves => absurd hleaves h.2.2⟩

end VersionCtype

end Php53.Standard
