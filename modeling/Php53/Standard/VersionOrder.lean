import Mathlib.Data.Set.Insert
import Php53.Standard.Versioning

/-!
# VersionOrder — which versions `php_version_compare` compares consistently

The parts of an orderly version and a mark behind the last one are its key, and orderly versions are
compared by their keys.  Every other version breaks the order.
-/

namespace Php53.Standard

open Reasoning
open Zend (ch isDigit digitsNat)
open List

namespace VersionCtype

variable {t : VersionCtype} {lq c : UInt8} {p q r : List UInt8} {x name w : List UInt8} {d : UInt8}

def Follows (t : VersionCtype) (lq c : UInt8) : Prop :=
  c = ch '.' ∧ lq ≠ ch '.' ∨
    c ≠ ch '.' ∧ c ≠ ch '#' ∧ (lq = ch '.' ∨ t.isalnum c = true ∧ isDigit c = isDigit lq)

/-- A text whose parts are compared one by one. -/
structure VersionText (t : VersionCtype) (p : List UInt8) : Prop where
  ne_nil : p ≠ []
  chain : p.IsChain (Follows t)
  noHash : p.headD 0 ≠ ch '#'
  closed : p.getLastD 0 ≠ ch '.'

theorem isChain_concat {R : UInt8 → UInt8 → Prop} (h : q.IsChain R)
    (hlast : q ≠ [] → R (q.getLastD 0) c) : (q ++ [c]).IsChain R := by
  rw [isChain_append]
  refine ⟨h, .singleton c, fun x hx y hy => ?_⟩
  have hne : q ≠ [] := by
    intro hnil
    rw [hnil] at hx
    exact nomatch hx
  have hc : c = y := Option.some.inj hy
  have hx' : q.getLastD 0 = x := by
    rw [getLastD_eq_getLast?, hx]
    rfl
  rw [← hc, ← hx']
  exact hlast hne

theorem ne_hash_of_isalnum (h : t.isalnum c = true) : c ≠ ch '#' := by
  intro hc
  rw [hc, t.isalnum_hash] at h
  exact nomatch h

theorem isChain_canonStep {lp : UInt8} (h : q.IsChain (Follows t))
    (hlast : q.getLastD 0 = ch '.' ∨ q.getLastD 0 = lp) (hhash : isDigit lp = true → c ≠ ch '#') :
    (q ++ t.canonStep lp (q.getLastD 0) c).IsChain (Follows t) := by
  have hdot : (q ++ dotBehind (q.getLastD 0)).IsChain (Follows t) := by
    unfold dotBehind
    split
    · rename_i hlq
      exact isChain_concat h fun _ => .inl ⟨rfl, hlq⟩
    · rw [List.append_nil]
      exact h
  by_cases hleaves : t.LeavesDot lp c
  · rw [canonStep_leavesDot hleaves]
    exact hdot
  have hc := ne_dot_of_keep hleaves
  rw [canonStep_keep hleaves]
  by_cases hchange : Changes lp c
  · rw [if_pos hchange, ← append_assoc]
    refine isChain_concat hdot fun _ => .inr ⟨hc, ?_, .inl (getLastD_dotBehind rfl)⟩
    -- a '#' is kept behind a digit only
    by_cases halnum : t.isalnum c = true
    · exact ne_hash_of_isalnum halnum
    · rw [Bool.not_eq_true] at halnum
      apply hhash
      have hdiff := (Changes.iff.mp hchange).1
      cases hd : isDigit c with
      | true => exact absurd (t.isalnum_of_isDigit hd) (by rw [halnum]; decide)
      | false =>
        rw [hd] at hdiff
        exact Bool.eq_true_of_not_eq_false hdiff
  · rw [if_neg hchange, nil_append]
    have halnum := isalnum_of_keep hleaves hchange
    refine isChain_concat h fun _ => .inr ⟨hc, ne_hash_of_isalnum halnum, ?_⟩
    by_cases hlq : q.getLastD 0 = ch '.'
    · exact .inl hlq
    · have hlp := hlast.resolve_left hlq
      refine .inr ⟨halnum, ?_⟩
      rw [hlp]
      rw [hlp] at hlq
      exact Decidable.not_not.mp fun hdiff =>
        hchange (Changes.iff.mpr ⟨fun he => hdiff he.symm, hlq, hc⟩)

theorem isChain_phpCanonicalizeVersion (h : x.IsChain fun d c => isDigit d = true → c ≠ ch '#') :
    (t.phpCanonicalizeVersion x).IsChain (Follows t) := by
  induction x using reverseRecOn with
  | nil => exact .nil
  | append_singleton front c ih =>
    by_cases hfront : front = []
    · rw [hfront]
      exact .singleton c
    · have hparts := isChain_append.mp h
      rw [phpCanonicalizeVersion_concat hfront]
      refine isChain_canonStep (ih hparts.1) (getLastD_phpCanonicalizeVersion hfront)
        (hparts.2.2 _ ?_ c rfl)
      rw [getLastD_eq_getLast?, List.getLast?_eq_some_getLast hfront]
      rfl

theorem Orderly.text (h : t.Orderly x) (hx : x ≠ []) :
    VersionText t (t.phpCanonicalizeVersion x) where
  ne_nil := phpCanonicalizeVersion_ne_nil hx
  chain := isChain_phpCanonicalizeVersion h.hashFree.2
  noHash := by
    rw [headD_phpCanonicalizeVersion]
    exact h.hashFree.1
  closed := fun hdot => h.closed ((getLastD_eq_dot hx).mp hdot)

theorem VersionText.afterDot (h : VersionText t p) (hr : afterDot p = some r) :
    VersionText t r ∧ r.headD 0 ≠ ch '.' := by
  have he := eq_of_afterDot hr
  have hne : r ≠ [] := by
    intro hnil
    apply h.closed
    rw [he, hnil]
    exact getLastD_concat ..
  cases r with
  | nil => exact absurd rfl hne
  | cons c r =>
    have hchain := h.chain
    rw [he, isChain_append] at hchain
    have hrest := hchain.2.1
    rw [isChain_cons_cons] at hrest
    have hc := hrest.1.resolve_left fun hdot => hdot.2 rfl
    refine ⟨⟨hne, hrest.2, hc.2.1, ?_⟩, hc.1⟩
    intro hlast
    apply h.closed
    rw [he, getLastD_eq_getLast?, List.getLast?_append_of_ne_nil _ (by simp),
      List.getLast?_cons_cons, ← getLastD_eq_getLast?]
    exact hlast

def Plain (t : VersionCtype) (lq c : UInt8) : Prop :=
  c = ch '.' ∧ lq ≠ ch '.' ∨ t.isalnum c = true ∧ (lq = ch '.' ∨ isDigit c = isDigit lq)

theorem canonStep_plain (h : Plain t lq c) : t.canonStep lq lq c = [c] := by
  rcases h with ⟨hc, hlq⟩ | ⟨halnum, hlq⟩
  · rw [hc, canonStep_leavesDot (.inr ⟨t.isalnum_dot, fun hb => hb.2 rfl⟩)]
    exact if_pos hlq
  · have hkeep : ¬ t.LeavesDot lq c := by
      intro hleaves
      rcases hleaves with hspecial | ⟨hno, -⟩
      · exact absurd (t.isalnum_special hspecial) (by rw [halnum]; decide)
      · exact absurd hno (by rw [halnum]; decide)
    have hno : ¬ Changes lq c := by
      rw [Changes.iff]
      intro hchange
      rcases hlq with hdot | hsame
      · exact hchange.2.1 hdot
      · exact hchange.1 hsame.symm
    rw [canonStep_keep hkeep, if_neg hno]
    rfl

theorem canonLoop_plain {buf b : List UInt8} (h : (lq :: b).IsChain (Plain t))
    (hbuf : buf.getLastD 0 = lq) : t.canonLoop lq buf b = buf ++ b := by
  induction b generalizing lq buf with
  | nil => exact (List.append_nil buf).symm
  | cons c b ih =>
    rw [isChain_cons_cons] at h
    rw [canonLoop, hbuf, canonStep_plain h.1, ih h.2 (getLastD_concat ..), append_assoc]
    rfl

theorem mem_partOf (h : c ∈ partOf p) : c ≠ ch '.' :=
  of_decide_eq_true (mem_takeWhile_imp (p := fun c => decide (c ≠ ch '.')) h)

theorem partOf_append (h : ∀ c ∈ w, c ≠ ch '.') (r : List UInt8) :
    partOf (w ++ ch '.' :: r) = w := by
  unfold partOf
  rw [takeWhile_append_of_pos fun c hc => decide_eq_true (h c hc)]
  exact List.append_nil w

theorem phpCanonicalizeVersion_part (h : w.IsChain (Follows t))
    (hdot : ∀ c ∈ w, c ≠ ch '.') : t.phpCanonicalizeVersion w = w := by
  have hplain : w.IsChain (Plain t) := by
    refine h.imp_of_mem_imp fun a b ha hb hfollows => ?_
    have hb' := hfollows.resolve_left fun hboth => hdot b hb hboth.1
    exact .inr ⟨(hb'.2.2.resolve_left (hdot a ha)).1, .inr (hb'.2.2.resolve_left (hdot a ha)).2⟩
  cases w with
  | nil => rfl
  | cons c w => exact @canonLoop_plain t c [c] w hplain rfl

theorem VersionText.partOf_canonical (h : VersionText t r) (hdot : r.headD 0 ≠ ch '.') :
    partOf (t.phpCanonicalizeVersion r) = partOf r := by
  cases hafter : Standard.afterDot r with
  | none =>
    have hpart := part_of_afterDot_none hafter
    have hmem : ∀ c ∈ r, c ≠ ch '.' := fun c hc => mem_partOf (by rw [hpart]; exact hc)
    rw [phpCanonicalizeVersion_part h.chain hmem]
  | some r' =>
    have he := eq_of_afterDot hafter
    have hchain := h.chain
    rw [he, isChain_append] at hchain
    have hne : partOf r ≠ [] := by
      intro hnil
      rw [hnil] at he
      exact hdot (by rw [he]; rfl)
    have hpart := phpCanonicalizeVersion_part hchain.1 fun c hc => mem_partOf hc
    have hlast : (partOf r).getLastD 0 ≠ ch '.' := by
      rw [getLastD_eq_getLast?, List.getLast?_eq_some_getLast hne]
      exact mem_partOf (getLast_mem hne)
    -- the dot behind the part is written, and what follows does not touch it
    have hrest := t.canonLoop_eq_append (ch '.') (partOf r ++ [ch '.']) r'
    have ⟨rest, hrest⟩ := hrest
    have hcanonical : t.phpCanonicalizeVersion r = partOf r ++ ch '.' :: rest := by
      conv_lhs => rw [he]
      rw [phpCanonicalizeVersion_append hne, hpart, canonLoop, canonStep_plain (.inl ⟨rfl, hlast⟩),
        hrest, append_assoc]
      rfl
    rw [hcanonical, partOf_append fun c hc => mem_partOf hc]

theorem headD_partOf (h : p.headD 0 ≠ ch '.') : (partOf p).headD 0 = p.headD 0 := by
  cases p with
  | nil => rfl
  | cons c p =>
    have hc : decide (c ≠ ch '.') = true := decide_eq_true h
    unfold partOf
    rw [takeWhile_cons, if_pos hc]
    rfl

theorem formOrder_ne (h : p.headD 0 ≠ ch '#') : formOrder p ≠ 4 := by
  unfold formOrder
  cases hfind : specialForms.find? fun pp => pp.1.isPrefixOf p with
  | none => decide
  | some pp =>
    intro horder
    have hprefix := List.find?_some hfind
    have honly : ∀ form ∈ specialForms, form.2 = 4 → form.1 = [ch '#'] := by decide
    have hname := honly pp (List.mem_of_find?_eq_some hfind) horder
    apply h
    rw [hname] at hprefix
    cases p with
    | nil => exact nomatch hprefix
    | cons c p =>
      have hc : (ch '#' == c && ([] : List UInt8).isPrefixOf p) = true := hprefix
      rw [Bool.and_eq_true] at hc
      exact (eq_of_beq hc.1).symm

/-- A number, or a name; the mark behind the last part is `(4, 0)`. -/
def partKey (p : List UInt8) : ℤ × ℕ :=
  if isDigit (p.headD 0) then (4, strtolPart p + 1) else (formOrder p, 0)

def keyCmp : ℤ × ℕ → ℤ × ℕ → Ordering := compareLex (compareOn Prod.fst) (compareOn Prod.snd)

instance : Std.TransCmp keyCmp :=
  inferInstanceAs (Std.TransCmp (compareLex (compareOn Prod.fst) (compareOn Prod.snd)))

def textKey (p : List UInt8) : List (ℤ × ℕ) := (p.splitOn (ch '.')).map partKey ++ [(4, 0)]

def versionKey (t : VersionCtype) (x : List UInt8) : List (ℤ × ℕ) :=
  if x = [] then [] else textKey (t.phpCanonicalizeVersion x)

theorem keyCmp_of_fst {a b : ℤ × ℕ} (h : a.1 ≠ b.1) : keyCmp a b = compare a.1 b.1 := by
  have hne : compare a.1 b.1 ≠ .eq := fun he => h (Int.compare_eq_eq.mp he)
  show (compare a.1 b.1).then (compare a.2 b.2) = _
  cases hcmp : compare a.1 b.1 with
  | lt => rfl
  | eq => exact absurd hcmp hne
  | gt => rfl

theorem keyCmp_of_snd (n : ℤ) (a b : ℕ) : keyCmp (n, a) (n, b) = compare a b := by
  show (compare n n).then (compare a b) = _
  rw [Int.compare_eq_eq.mpr rfl]
  rfl

theorem compareSpecial_eq (p q : List UInt8) :
    compareSpecialVersionForms p q = outcomeSign (keyCmp (formOrder p, 0) (formOrder q, 0)) := by
  unfold compareSpecialVersionForms
  rw [sign_sub_eq]
  by_cases h : formOrder p = formOrder q
  · rw [h, keyCmp_of_snd, Int.compare_eq_eq.mpr rfl, Nat.compare_eq_eq.mpr rfl]
  · rw [keyCmp_of_fst h]

theorem formOrder_placeholder : formOrder placeholder = 4 := by decide

theorem partKey_number (h : isDigit (p.headD 0) = true) : partKey p = (4, strtolPart p + 1) :=
  if_pos h

theorem partKey_name (h : isDigit (p.headD 0) = false) : partKey p = (formOrder p, 0) := by
  unfold partKey
  rw [h]
  rfl

theorem compare_placeholder (h : isDigit (p.headD 0) = false) (hhash : p.headD 0 ≠ ch '#') :
    compareSpecialVersionForms p placeholder = outcomeSign (keyCmp (partKey p) (4, 0)) ∧
      compareSpecialVersionForms placeholder p = outcomeSign (keyCmp (4, 0) (partKey p)) ∧
      keyCmp (partKey p) (4, 0) ≠ .eq ∧ keyCmp (4, 0) (partKey p) ≠ .eq := by
  rw [compareSpecial_eq, compareSpecial_eq, formOrder_placeholder, partKey_name h]
  refine ⟨rfl, rfl, ?_, ?_⟩
  · rw [keyCmp_of_fst (formOrder_ne hhash)]
    exact fun he => formOrder_ne hhash (Int.compare_eq_eq.mp he)
  · rw [keyCmp_of_fst (formOrder_ne hhash).symm]
    exact fun he => formOrder_ne hhash (Int.compare_eq_eq.mp he).symm

theorem comparePart_eq (hp : p.headD 0 ≠ ch '#') (hq : q.headD 0 ≠ ch '#') :
    comparePart p q = outcomeSign (keyCmp (partKey p) (partKey q)) := by
  unfold comparePart
  cases hp' : isDigit (p.headD 0) with
  | true =>
    cases hq' : isDigit (q.headD 0) with
    | true =>
      rw [if_pos ⟨rfl, rfl⟩, sign_sub_eq, partKey_number hp', partKey_number hq', keyCmp_of_snd]
      rcases Nat.lt_trichotomy (strtolPart p) (strtolPart q) with h | h | h
      · rw [Int.compare_eq_lt.mpr (by omega), Nat.compare_eq_lt.mpr (by omega)]
      · rw [Int.compare_eq_eq.mpr (by omega), Nat.compare_eq_eq.mpr (by omega)]
      · rw [Int.compare_eq_gt.mpr (by omega), Nat.compare_eq_gt.mpr (by omega)]
    | false =>
      rw [if_neg (by decide), if_neg (by decide), if_pos rfl]
      rw [compareSpecial_eq, formOrder_placeholder, partKey_number hp', partKey_name hq',
        keyCmp_of_fst (formOrder_ne hq).symm, keyCmp_of_fst (formOrder_ne hq).symm]
  | false =>
    cases hq' : isDigit (q.headD 0) with
    | true =>
      rw [if_neg (by decide), if_neg (by decide), if_neg (by decide)]
      rw [compareSpecial_eq, formOrder_placeholder, partKey_name hp', partKey_number hq',
        keyCmp_of_fst (formOrder_ne hp), keyCmp_of_fst (formOrder_ne hp)]
    | false =>
      rw [if_neg (by decide), if_pos (by decide), compareSpecial_eq, partKey_name hp',
        partKey_name hq']

theorem textKey_last (h : afterDot p = none) : textKey p = [partKey (partOf p), (4, 0)] := by
  have hpart := part_of_afterDot_none h
  have hmem : ch '.' ∉ p := fun hc => mem_partOf (by rw [hpart]; exact hc) rfl
  rw [textKey, splitOn_eq_singleton hmem, hpart]
  rfl

theorem textKey_cons (h : afterDot p = some r) : textKey p = partKey (partOf p) :: textKey r := by
  have hmem : ch '.' ∉ partOf p := fun hc => mem_partOf hc rfl
  conv_lhs => rw [eq_of_afterDot h]
  rw [textKey, splitOn_append_cons_self_of_not_mem hmem]
  rfl

/-- What `php_version_compare` makes of the end of its loop. -/
def settle (compare : List UInt8 → List UInt8 → ℤ)
    (e : ℤ × Option (List UInt8) × Option (List UInt8)) : ℤ :=
  if e.1 ≠ 0 then e.1 else compareRest compare e.2.1 e.2.2

theorem versionCompareFuel_succ (fuel : ℕ) {y : List UInt8} (hx : x ≠ []) (hy : y ≠ []) :
    t.versionCompareFuel (fuel + 1) x y =
      settle (t.versionCompareFuel fuel) (versionLoop (some (t.canonicalUnlessHash x))
        (some (t.canonicalUnlessHash y))) := by
  rw [versionCompareFuel, if_neg fun h => h.elim hx hy]
  rfl

theorem versionLoop_differ (hp : p ≠ []) (hq : q ≠ [])
    (h : comparePart (partOf p) (partOf q) ≠ 0) :
    versionLoop (some p) (some q) =
      (comparePart (partOf p) (partOf q), afterDot p, afterDot q) := by
  rw [versionLoop, if_neg fun hnil => hnil.elim hp hq]
  exact if_pos h

theorem versionLoop_agree (hp : p ≠ []) (hq : q ≠ [])
    (h : comparePart (partOf p) (partOf q) = 0) :
    versionLoop (some p) (some q) = versionLoop (afterDot p) (afterDot q) := by
  rw [versionLoop, if_neg fun hnil => hnil.elim hp hq]
  dsimp only
  rw [if_neg (not_not_intro h)]
  cases afterDot p with
  | none =>
    rw [versionLoop]
    intro _ _ h
    cases h
  | some r => rfl

theorem versionLoop_none_left (n2 : Option (List UInt8)) :
    versionLoop none n2 = (0, none, n2) := by
  rw [versionLoop]
  intro _ _ h
  cases h

theorem versionLoop_none_right (n1 : Option (List UInt8)) :
    versionLoop n1 none = (0, n1, none) := by
  rw [versionLoop]
  intro _ _ _ h
  cases h

theorem settle_differ {compare : List UInt8 → List UInt8 → ℤ} {n : ℤ}
    {n1 n2 : Option (List UInt8)} (h : n ≠ 0) : settle compare (n, n1, n2) = n := if_pos h

theorem outcomeSign_ne_zero {o : Ordering} (h : o ≠ .eq) : outcomeSign o ≠ 0 :=
  fun hzero => h (outcomeSign_eq_zero.mp hzero)

theorem canonicalUnlessHash_of (h : p.headD 0 ≠ ch '#') :
    t.canonicalUnlessHash p = t.phpCanonicalizeVersion p := if_neg h

theorem versionCompare_placeholder (h : VersionText t r) (hdot : r.headD 0 ≠ ch '.')
    (hdigit : isDigit (r.headD 0) = false) (fuel : ℕ) :
    t.versionCompareFuel (fuel + 1) r placeholder =
        outcomeSign (keyCmp (partKey (partOf r)) (4, 0)) ∧
      t.versionCompareFuel (fuel + 1) placeholder r =
        outcomeSign (keyCmp (4, 0) (partKey (partOf r))) := by
  have hhead := headD_partOf hdot
  have hkeys := @compare_placeholder (partOf r) (by rw [hhead]; exact hdigit)
    (by rw [hhead]; exact h.noHash)
  have hcanonical : t.canonicalUnlessHash r = t.phpCanonicalizeVersion r :=
    canonicalUnlessHash_of h.noHash
  have hmark : t.canonicalUnlessHash placeholder = placeholder := if_pos rfl
  have hpart : partOf (t.phpCanonicalizeVersion r) = partOf r := h.partOf_canonical hdot
  have hne : t.phpCanonicalizeVersion r ≠ [] := phpCanonicalizeVersion_ne_nil h.ne_nil
  have hne' : placeholder ≠ [] := by decide
  have hmarkPart : partOf placeholder = placeholder := by decide
  have hnames : ¬ (isDigit ((partOf r).headD 0) = true ∧ isDigit (placeholder.headD 0) = true) ∧
      (¬ isDigit ((partOf r).headD 0) = true ∧ ¬ isDigit (placeholder.headD 0) = true) := by
    rw [hhead, hdigit]
    decide
  constructor
  · rw [versionCompareFuel_succ fuel h.ne_nil hne', hcanonical, hmark]
    have hcompare : comparePart (partOf (t.phpCanonicalizeVersion r)) (partOf placeholder) =
        outcomeSign (keyCmp (partKey (partOf r)) (4, 0)) := by
      rw [hpart, hmarkPart, ← hkeys.1, comparePart, if_neg hnames.1, if_pos hnames.2]
    have hdiffer := outcomeSign_ne_zero hkeys.2.2.1
    rw [← hcompare] at hdiffer
    rw [versionLoop_differ hne hne' hdiffer, settle_differ hdiffer, hcompare]
  · rw [versionCompareFuel_succ fuel hne' h.ne_nil, hcanonical, hmark]
    have hcompare : comparePart (partOf placeholder) (partOf (t.phpCanonicalizeVersion r)) =
        outcomeSign (keyCmp (4, 0) (partKey (partOf r))) := by
      rw [hpart, hmarkPart, ← hkeys.2.1, comparePart, if_neg fun hb => hnames.1 hb.symm,
        if_pos hnames.2.symm]
    have hdiffer := outcomeSign_ne_zero hkeys.2.2.2
    rw [← hcompare] at hdiffer
    rw [versionLoop_differ hne' hne hdiffer, settle_differ hdiffer, hcompare]

theorem keyCmp_number (n : ℕ) :
    keyCmp (4, n + 1) (4, 0) = .gt ∧ keyCmp (4, 0) (4, n + 1) = .lt := by
  rw [keyCmp_of_snd, keyCmp_of_snd]
  exact ⟨Nat.compare_eq_gt.mpr (by omega), Nat.compare_eq_lt.mpr (by omega)⟩

theorem compareRest_text (h : VersionText t r) (hdot : r.headD 0 ≠ ch '.') (fuel : ℕ)
    (n2 : Option (List UInt8)) :
    compareRest (t.versionCompareFuel (fuel + 1)) (some r) n2 =
        outcomeSign (keyCmp (partKey (partOf r)) (4, 0)) ∧
      compareRest (t.versionCompareFuel (fuel + 1)) none (some r) =
        outcomeSign (keyCmp (4, 0) (partKey (partOf r))) ∧
      keyCmp (partKey (partOf r)) (4, 0) ≠ .eq ∧ keyCmp (4, 0) (partKey (partOf r)) ≠ .eq := by
  have hhead := headD_partOf hdot
  unfold compareRest
  dsimp only
  cases hdigit : isDigit (r.headD 0) with
  | true =>
    rw [partKey_number (by rw [hhead]; exact hdigit), (keyCmp_number _).1, (keyCmp_number _).2]
    exact ⟨rfl, rfl, nofun, nofun⟩
  | false =>
    have hkeys := @compare_placeholder (partOf r) (by rw [hhead]; exact hdigit)
      (by rw [hhead]; exact h.noHash)
    have hcalls := versionCompare_placeholder h hdot hdigit fuel
    exact ⟨hcalls.1, hcalls.2, hkeys.2.2⟩

theorem settle_text (fuel : ℕ) : ∀ {p q : List UInt8}, VersionText t p → VersionText t q →
    settle (t.versionCompareFuel (fuel + 1)) (versionLoop (some p) (some q)) =
      outcomeSign ((textKey p).compareLex keyCmp (textKey q)) := by
  intro p
  induction hn : p.length using Nat.strongRecOn generalizing p with
  | ind n ih =>
    intro q hp hq
    have hfirst {x : List UInt8} (h : VersionText t x) : (partOf x).headD 0 ≠ ch '#' := by
      by_cases hdot : x.headD 0 = ch '.'
      · have hnil : partOf x = [] := by
          cases x with
          | nil => rfl
          | cons c x =>
            have hc : ¬ decide (c ≠ ch '.') = true := fun hb => of_decide_eq_true hb hdot
            exact takeWhile_cons_of_neg hc
        rw [hnil]
        decide
      · rw [headD_partOf hdot]
        exact h.noHash
    have hcompare := comparePart_eq (hfirst hp) (hfirst hq)
    have hkey (x : List UInt8) : ∃ l, textKey x = partKey (partOf x) :: l := by
      cases hx : afterDot x with
      | none => exact ⟨_, textKey_last hx⟩
      | some r => exact ⟨_, textKey_cons hx⟩
    by_cases hagree : comparePart (partOf p) (partOf q) = 0
    · have heq := outcomeSign_eq_zero.mp (hcompare.symm.trans hagree)
      rw [versionLoop_agree hp.ne_nil hq.ne_nil hagree]
      cases hp' : afterDot p with
      | none =>
        rw [versionLoop_none_left, textKey_last hp']
        cases hq' : afterDot q with
        | none =>
          rw [textKey_last hq', List.compareLex_cons_cons, heq]
          rfl
        | some r =>
          have hr := hq.afterDot hq'
          have hrest := compareRest_text hr.1 hr.2 fuel none
          have ⟨l, hl⟩ := hkey r
          rw [textKey_cons hq', hl, List.compareLex_cons_cons, heq, List.compareLex_cons_cons]
          show compareRest _ none (some r) =
            outcomeSign ((keyCmp (4, 0) (partKey (partOf r))).then _)
          rw [hrest.2.1, outcomeSign_then, if_pos (outcomeSign_ne_zero hrest.2.2.2)]
      | some r =>
        have hr := hp.afterDot hp'
        have hrest := compareRest_text hr.1 hr.2 fuel none
        have hlt := length_lt_of_afterDot hp'
        rw [textKey_cons hp']
        cases hq' : afterDot q with
        | none =>
          have ⟨l, hl⟩ := hkey r
          rw [versionLoop_none_right, textKey_last hq', List.compareLex_cons_cons, heq, hl,
            List.compareLex_cons_cons]
          show compareRest _ (some r) none =
            outcomeSign ((keyCmp (partKey (partOf r)) (4, 0)).then _)
          rw [hrest.1, outcomeSign_then, if_pos (outcomeSign_ne_zero hrest.2.2.1)]
        | some r' =>
          rw [textKey_cons hq', List.compareLex_cons_cons, heq]
          exact ih r.length (by omega) rfl hr.1 (hq.afterDot hq').1
    · have hdiffer := hagree
      rw [hcompare] at hdiffer
      rw [versionLoop_differ hp.ne_nil hq.ne_nil hagree, settle_differ hagree, hcompare]
      have ⟨l, hl⟩ := hkey p
      have ⟨l', hl'⟩ := hkey q
      rw [hl, hl', List.compareLex_cons_cons, outcomeSign_then, if_pos hdiffer]

theorem phpVersionCompare_eq {y : List UInt8} (hx : t.Orderly x) (hy : t.Orderly y) :
    t.phpVersionCompare x y =
      outcomeSign ((versionKey t x).compareLex keyCmp (versionKey t y)) := by
  unfold phpVersionCompare versionKey
  by_cases hx' : x = []
  · by_cases hy' : y = []
    · rw [hx', hy']
      rfl
    · rw [versionCompareFuel, if_pos (.inl hx'), if_neg fun h => hy' h.2,
        if_neg (not_not_intro hx'), if_pos hx', if_neg hy']
      unfold textKey
      cases (t.phpCanonicalizeVersion y).splitOn (ch '.') <;> rfl
  · by_cases hy' : y = []
    · rw [versionCompareFuel, if_pos (.inr hy'), if_neg fun h => hx' h.1, if_pos hx', if_neg hx',
        if_pos hy']
      unfold textKey
      cases (t.phpCanonicalizeVersion x).splitOn (ch '.') <;> rfl
    · rw [if_neg hx', if_neg hy', versionCompareFuel_succ _ hx' hy',
        canonicalUnlessHash_of hx.hashFree.1, canonicalUnlessHash_of hy.hashFree.1]
      exact settle_text _ (hx.text hx') (hy.text hy')

theorem comparePart_self (p : List UInt8) : comparePart p p = 0 := by
  unfold comparePart compareSpecialVersionForms
  rw [Int.sub_self, Int.sub_self]
  cases isDigit (p.headD 0) <;> rfl

theorem versionLoop_nil_left (n2 : List UInt8) :
    versionLoop (some []) (some n2) = (0, some [], some n2) := by
  rw [versionLoop, if_pos (.inl rfl)]

theorem versionLoop_nil_right (p : List UInt8) :
    versionLoop (some p) (some []) = (0, some p, some []) := by
  rw [versionLoop, if_pos (.inr rfl)]

theorem afterDot_append (h : ∀ c ∈ w, c ≠ ch '.') (r : List UInt8) :
    afterDot (w ++ ch '.' :: r) = some r := by
  have hdrop : (w ++ ch '.' :: r).dropWhile (fun c => decide (c ≠ ch '.')) = ch '.' :: r := by
    rw [dropWhile_append_of_pos fun c hc => decide_eq_true (h c hc)]
    exact dropWhile_cons_of_neg (by decide)
  unfold afterDot
  rw [hdrop]

theorem getLastD_append (h : r ≠ []) : (w ++ r).getLastD 0 = r.getLastD 0 := by
  rw [getLastD_eq_getLast?, List.getLast?_append_of_ne_nil _ h, getLastD_eq_getLast?]

theorem versionLoop_self (hne : p ≠ []) (hlast : p.getLastD 0 = ch '.') :
    versionLoop (some p) (some p) = (0, some [], some []) := by
  induction hn : p.length using Nat.strongRecOn generalizing p with
  | ind n ih =>
    rw [versionLoop_agree hne hne (comparePart_self _)]
    cases hafter : afterDot p with
    | none =>
      -- there is a dot, the last one at least
      have hpart := part_of_afterDot_none hafter
      have hmem : ch '.' ∈ p := by
        rw [← hlast, getLastD_eq_getLast?, List.getLast?_eq_some_getLast hne]
        exact getLast_mem hne
      rw [← hpart] at hmem
      exact absurd rfl (mem_partOf hmem)
    | some r =>
      by_cases hr : r = []
      · rw [hr]
        exact versionLoop_nil_left []
      · have he := eq_of_afterDot hafter
        have hlt := length_lt_of_afterDot hafter
        have hlast' : r.getLastD 0 = ch '.' := by
          rw [← hlast, he, getLastD_append (cons_ne_nil _ _), ← singleton_append,
            getLastD_append hr]
        exact ih r.length (by omega) hr hlast' rfl

theorem phpVersionCompare_self (hopen : t.OpenEnd x)
    (hhash : x.headD 0 ≠ ch '#') : t.phpVersionCompare x x = -1 := by
  have hx : x ≠ [] := by
    intro hnil
    rw [hnil] at hopen
    rcases hopen with hdot | ⟨u, d, c, he, -⟩
    · exact nomatch hdot
    · exact absurd (congrArg List.length he) (by simp)
  unfold phpVersionCompare
  rw [versionCompareFuel_succ _ hx hx, canonicalUnlessHash_of hhash,
    versionLoop_self (phpCanonicalizeVersion_ne_nil hx) ((getLastD_eq_dot hx).mpr hopen)]
  rfl

theorem versionLoop_append (q p r : List UInt8) :
    versionLoop (some (q ++ ch '.' :: p)) (some (q ++ ch '.' :: r)) =
      versionLoop (some p) (some r) := by
  induction hn : q.length using Nat.strongRecOn generalizing q with
  | ind n ih =>
    have hne (l : List UInt8) : q ++ ch '.' :: l ≠ [] := by simp
    cases hafter : afterDot q with
    | none =>
      have hmem : ∀ c ∈ q, c ≠ ch '.' := by
        intro c hc
        rw [← part_of_afterDot_none hafter] at hc
        exact mem_partOf hc
      rw [versionLoop_agree (hne p) (hne r)]
      · rw [afterDot_append hmem, afterDot_append hmem]
      · rw [partOf_append hmem, partOf_append hmem, comparePart_self]
    | some q' =>
      have hmem : ∀ c ∈ partOf q, c ≠ ch '.' := fun c hc => mem_partOf hc
      have hlt := length_lt_of_afterDot hafter
      have he (l : List UInt8) :
          q ++ ch '.' :: l = partOf q ++ ch '.' :: (q' ++ ch '.' :: l) := by
        conv_lhs => rw [eq_of_afterDot hafter]
        rw [append_assoc]
        rfl
      rw [versionLoop_agree (hne p) (hne r)]
      · rw [he p, he r, afterDot_append hmem, afterDot_append hmem]
        exact ih q'.length (by omega) q' rfl
      · rw [he p, he r, partOf_append hmem, partOf_append hmem, comparePart_self]

/-- A name `k + 1` times. -/
def names (name : List UInt8) : ℕ → List UInt8
  | 0 => name
  | k + 1 => name ++ ch '.' :: names name k

def foo : List UInt8 := [ch 'f', ch 'o', ch 'o']

def pl : List UInt8 := [ch 'p', ch 'l']

theorem formOrder_range (p : List UInt8) : -1 ≤ formOrder p ∧ formOrder p ≤ 5 := by
  unfold formOrder
  cases hfind : specialForms.find? fun pp => pp.1.isPrefixOf p with
  | none => decide
  | some pp =>
    have hall : ∀ form ∈ specialForms, -1 ≤ form.2 ∧ form.2 ≤ 5 := by decide
    exact hall pp (List.mem_of_find?_eq_some hfind)

theorem comparePart_foo (p : List UInt8) : comparePart foo p ≤ 0 := by
  have hrange := formOrder_range p
  unfold comparePart
  cases isDigit (p.headD 0) with
  | true =>
    show compareSpecialVersionForms foo placeholder ≤ 0
    decide
  | false =>
    show (formOrder foo - formOrder p).sign ≤ 0
    rw [Int.sign_nonpos_iff, show formOrder foo = -1 by decide]
    omega

theorem comparePart_pl (p : List UInt8) : comparePart p pl ≤ 0 := by
  have hrange := formOrder_range p
  unfold comparePart
  cases isDigit (p.headD 0) with
  | true =>
    show compareSpecialVersionForms placeholder pl ≤ 0
    decide
  | false =>
    show (formOrder p - formOrder pl).sign ≤ 0
    rw [Int.sign_nonpos_iff, show formOrder pl = 5 by decide]
    omega

/-- A name that a canonical form can repeat. -/
structure Repeats (t : VersionCtype) (name : List UInt8) : Prop where
  ne_nil : name ≠ []
  alnum : ∀ c ∈ name, t.isalnum c = true ∧ isDigit c = false

theorem repeats_of_letters (hne : name ≠ [])
    (h : ∀ c ∈ name, 97 ≤ c.toNat ∧ c.toNat ≤ 122) : Repeats t name := by
  refine ⟨hne, fun c hc => ?_⟩
  have hrange := h c hc
  have hlt : c < 128 := by
    rw [UInt8.lt_iff_toNat_lt]
    show c.toNat < 128
    omega
  have hdigit : isDigit c = false := by
    rw [← Bool.not_eq_true, Zend.isDigit_iff]
    omega
  have hlower : ch 'a' ≤ c ∧ c ≤ ch 'z' := by
    rw [UInt8.le_iff_toNat_le, UInt8.le_iff_toNat_le]
    exact hrange
  refine ⟨?_, hdigit⟩
  rw [t.isalnum_ascii c hlt, decide_eq_true hlower.1, decide_eq_true hlower.2, Bool.and_self,
    Bool.or_true]

theorem repeats_foo : Repeats t foo := repeats_of_letters (by decide) (by simp [foo])

theorem repeats_pl : Repeats t pl := repeats_of_letters (by decide) (by simp [pl])

section

variable {name : List UInt8} (h : Repeats t name)

include h

theorem Repeats.ne_dot {c : UInt8} (hc : c ∈ name) : c ≠ ch '.' := by
  intro hdot
  have halnum := (h.alnum c hc).1
  rw [hdot, t.isalnum_dot] at halnum
  exact nomatch halnum

theorem names_cons (k : ℕ) : ∃ c l, names name k = c :: l ∧ c ∈ name := by
  cases hname : name with
  | nil => exact absurd hname h.ne_nil
  | cons c l =>
    cases k with
    | zero => exact ⟨c, l, rfl, mem_cons_self⟩
    | succ k => exact ⟨c, _, rfl, mem_cons_self⟩

theorem isChain_name : name.IsChain (Plain t) := by
  have hall : name.IsChain fun _ _ => True := by
    induction name with
    | nil => exact .nil
    | cons c l ih =>
      cases l with
      | nil => exact .singleton c
      | cons d l =>
        exact .cons_cons trivial (ih ⟨cons_ne_nil _ _, fun x hx => h.alnum x (.tail _ hx)⟩)
  refine hall.imp_of_mem_imp fun a b ha hb _ => ?_
  have ha' := h.alnum a ha
  have hb' := h.alnum b hb
  exact .inr ⟨hb'.1, .inr (hb'.2.trans ha'.2.symm)⟩

theorem isChain_names (k : ℕ) : (ch '.' :: names name k).IsChain (Plain t) := by
  have hdot : (ch '.' :: name).IsChain (Plain t) := by
    rw [isChain_cons]
    refine ⟨fun c hc => ?_, isChain_name h⟩
    exact .inr ⟨(h.alnum c (mem_of_mem_head? hc)).1, .inl rfl⟩
  induction k with
  | zero => exact hdot
  | succ k ih =>
    show ((ch '.' :: name) ++ ch '.' :: names name k).IsChain (Plain t)
    rw [isChain_append]
    refine ⟨hdot, ih, fun c hc d hd => ?_⟩
    rw [List.getLast?_cons_of_ne_nil h.ne_nil] at hc
    have hd' : ch '.' = d := Option.some.inj hd
    exact .inl ⟨hd'.symm, h.ne_dot (mem_of_getLast? hc)⟩

theorem getLastD_names (k : ℕ) : (names name k).getLastD 0 ≠ ch '.' := by
  induction k with
  | zero =>
    rw [names, getLastD_eq_getLast?, List.getLast?_eq_some_getLast h.ne_nil]
    exact h.ne_dot (getLast_mem _)
  | succ k ih =>
    have ⟨c, l, hcons, _⟩ := names_cons h k
    have hne : names name k ≠ [] := by
      rw [hcons]
      exact cons_ne_nil _ _
    rw [names, getLastD_append (cons_ne_nil _ _), ← singleton_append,
      getLastD_append hne]
    exact ih

theorem partOf_names (k : ℕ) : partOf (names name k) = name := by
  cases k with
  | zero => exact takeWhile_eq_self_iff.mpr fun c hc => decide_eq_true (h.ne_dot hc)
  | succ k => exact partOf_append (fun c hc => h.ne_dot hc) _

theorem afterDot_names (k : ℕ) : afterDot (names name (k + 1)) = some (names name k) :=
  afterDot_append (fun _ hc => h.ne_dot hc) _

end

theorem Plain.follows (h : Plain t lq c) : Follows t lq c := by
  rcases h with hdot | ⟨halnum, hlq⟩
  · exact .inl hdot
  · refine .inr ⟨fun hc => ?_, ne_hash_of_isalnum halnum, hlq.imp_right fun hs => ⟨halnum, hs⟩⟩
    rw [hc, t.isalnum_dot] at halnum
    exact nomatch halnum

theorem text_names (h : Repeats t name) (k : ℕ) :
    VersionText t (names name k) ∧ (names name k).headD 0 ∈ name := by
  have ⟨c, l, hcons, hc⟩ := names_cons h k
  have hchain : (names name k).IsChain (Follows t) :=
    (isChain_names h k).tail.imp fun _ _ => Plain.follows
  refine ⟨⟨?_, hchain, ?_, getLastD_names h k⟩, ?_⟩
  · rw [hcons]
    exact cons_ne_nil _ _
  · rw [hcons]
    exact ne_hash_of_isalnum (h.alnum c hc).1
  · rw [hcons]
    exact hc

theorem compareRest_foo (fuel k : ℕ) (n2 : Option (List UInt8)) :
    compareRest (t.versionCompareFuel (fuel + 1)) (some (names foo k)) n2 ≤ 0 := by
  have hfoo : Repeats t foo := repeats_foo
  have htext := text_names hfoo k
  rw [(compareRest_text htext.1 (hfoo.ne_dot htext.2) fuel n2).1, partOf_names hfoo]
  decide

theorem compareRest_pl (fuel k : ℕ) :
    compareRest (t.versionCompareFuel (fuel + 1)) none (some (names pl k)) ≤ 0 := by
  have hpl : Repeats t pl := repeats_pl
  have htext := text_names hpl k
  rw [(compareRest_text htext.1 (hpl.ne_dot htext.2) fuel none).2.1, partOf_names hpl]
  decide

theorem length_afterDot_le {p : List UInt8} {k : ℕ} (h : p.length ≤ k + 1) :
    ((afterDot p).getD []).length ≤ k := by
  cases hafter : afterDot p with
  | none => exact Nat.zero_le k
  | some r => exact Nat.le_of_lt_succ (Nat.lt_of_lt_of_le (length_lt_of_afterDot hafter) h)

theorem settle_foo (fuel k : ℕ) (n2 : Option (List UInt8)) (h : (n2.getD []).length ≤ k) :
    settle (t.versionCompareFuel (fuel + 1)) (versionLoop (some (names foo k)) n2) ≤ 0 := by
  induction k generalizing n2 with
  | zero =>
    cases n2 with
    | none =>
      rw [versionLoop_none_right]
      exact compareRest_foo fuel 0 none
    | some p =>
      have hp : p = [] := length_eq_zero_iff.mp (Nat.le_zero.mp h)
      rw [hp, versionLoop_nil_right]
      exact compareRest_foo fuel 0 (some [])
  | succ k ih =>
    cases n2 with
    | none =>
      rw [versionLoop_none_right]
      exact compareRest_foo fuel (k + 1) none
    | some p =>
      by_cases hp : p = []
      · rw [hp, versionLoop_nil_right]
        exact compareRest_foo fuel (k + 1) (some [])
      have hne := (text_names (t := t) repeats_foo (k + 1)).1.ne_nil
      have hcompare := comparePart_foo (partOf p)
      rw [← partOf_names (t := t) repeats_foo (k + 1)] at hcompare
      by_cases hagree : comparePart (partOf (names foo (k + 1))) (partOf p) = 0
      · rw [versionLoop_agree hne hp hagree, afterDot_names (t := t) repeats_foo k]
        exact ih _ (length_afterDot_le h)
      · rw [versionLoop_differ hne hp hagree, settle_differ hagree]
        exact hcompare

theorem settle_pl (fuel k : ℕ) (n1 : Option (List UInt8)) (h : (n1.getD []).length ≤ k) :
    settle (t.versionCompareFuel (fuel + 1)) (versionLoop n1 (some (names pl k))) ≤ 0 := by
  induction k generalizing n1 with
  | zero =>
    cases n1 with
    | none =>
      rw [versionLoop_none_left]
      exact compareRest_pl fuel 0
    | some p =>
      have hp : p = [] := length_eq_zero_iff.mp (Nat.le_zero.mp h)
      rw [hp, versionLoop_nil_left]
      exact (by decide : (-1 : ℤ) ≤ 0)
  | succ k ih =>
    cases n1 with
    | none =>
      rw [versionLoop_none_left]
      exact compareRest_pl fuel (k + 1)
    | some p =>
      by_cases hp : p = []
      · rw [hp, versionLoop_nil_left]
        exact (by decide : (-1 : ℤ) ≤ 0)
      have hne := (text_names (t := t) repeats_pl (k + 1)).1.ne_nil
      have hcompare := comparePart_pl (partOf p)
      rw [← partOf_names (t := t) repeats_pl (k + 1)] at hcompare
      by_cases hagree : comparePart (partOf p) (partOf (names pl (k + 1))) = 0
      · rw [versionLoop_agree hp hne hagree, afterDot_names (t := t) repeats_pl k]
        exact ih _ (length_afterDot_le h)
      · rw [versionLoop_differ hp hne hagree, settle_differ hagree]
        exact hcompare

/-- A text that is written behind a dot as it is read. -/
structure Probe (t : VersionCtype) (b : List UInt8) : Prop where
  ne_nil : b ≠ []
  chain : (ch '.' :: b).IsChain (Plain t)
  closed : b.getLastD 0 ≠ ch '.'

theorem Probe.headD_ne {b : List UInt8} (h : Probe t b) : b.headD 0 ≠ ch '#' := by
  cases b with
  | nil => exact absurd rfl h.ne_nil
  | cons c b =>
    have hfirst := (isChain_cons_cons.mp h.chain).1
    have hc := hfirst.resolve_left fun hb => hb.2 rfl
    exact ne_hash_of_isalnum hc.1

/-- `pre` is canonicalised to `q`, and `b` behind it is kept. -/
structure Keeps (t : VersionCtype) (pre q b : List UInt8) : Prop where
  orderly : t.Orderly (pre ++ b)
  canonical : t.canonicalUnlessHash (pre ++ b) = q ++ b

theorem ne_hash_of_plain (h : Plain t lq c) : c ≠ ch '#' := by
  rcases h with ⟨hc, -⟩ | ⟨halnum, -⟩
  · rw [hc]
    decide
  · exact ne_hash_of_isalnum halnum

theorem keeps_nil {b : List UInt8} (h : Probe t b) : Keeps t [] [] b := by
  have hcanonical : t.phpCanonicalizeVersion b = b := by
    cases b with
    | nil => rfl
    | cons c b => exact @canonLoop_plain t c [c] b h.chain.tail rfl
  refine ⟨⟨⟨h.headD_ne, ?_⟩, ?_⟩, ?_⟩
  · exact h.chain.tail.imp fun _ _ hplain _ => ne_hash_of_plain hplain
  · intro hopen
    apply h.closed
    rw [← (getLastD_eq_dot h.ne_nil).mpr hopen, hcanonical]
  · exact (canonicalUnlessHash_of h.headD_ne).trans hcanonical

theorem getLastD_number {u : List UInt8} (hd : isDigit d = true) :
    (t.phpCanonicalizeVersion (u ++ [d])).getLastD 0 = d := by
  by_cases hu : u = []
  · rw [hu]
    rfl
  · rw [phpCanonicalizeVersion_concat hu]
    rcases @getLastD_canonStep t (u.getLastD 0) _ d (t.phpCanonicalizeVersion u) rfl with h | h
    · have halnum := t.isalnum_of_isDigit hd
      rcases h.2 with hspecial | ⟨hno, -⟩
      · exact absurd (t.isalnum_special hspecial) (by rw [halnum]; decide)
      · exact absurd hno (by rw [halnum]; decide)
    · exact h.1

theorem keeps_number {u b : List UInt8} (hu : HashFree (u ++ [d])) (hd : isDigit d = true)
    (h : Probe t b) :
    Keeps t (u ++ [d] ++ [ch '.']) (t.phpCanonicalizeVersion (u ++ [d]) ++ [ch '.']) b := by
  have hne : u ++ [d] ≠ [] := by simp
  have hlast := getLastD_number (t := t) (u := u) hd
  have hchain : (d :: ch '.' :: b).IsChain (Plain t) :=
    .cons_cons (.inl ⟨rfl, isDigit_ne_dot hd⟩) h.chain
  have hcanonical : t.phpCanonicalizeVersion (u ++ [d] ++ ch '.' :: b) =
      t.phpCanonicalizeVersion (u ++ [d]) ++ ch '.' :: b := by
    rw [phpCanonicalizeVersion_append hne, getLastD_concat]
    exact canonLoop_plain hchain hlast
  have hhead (l : List UInt8) : (u ++ [d] ++ l).headD 0 ≠ ch '#' := by
    have hfirst := hu.1
    cases u with
    | nil => exact hfirst
    | cons c u => exact hfirst
  have hassoc (l : List UInt8) : l ++ [ch '.'] ++ b = l ++ ch '.' :: b := by
    rw [append_assoc]
    rfl
  have hcanonical' : t.canonicalUnlessHash (u ++ [d] ++ ch '.' :: b) =
      t.phpCanonicalizeVersion (u ++ [d]) ++ ch '.' :: b :=
    (canonicalUnlessHash_of (hhead _)).trans hcanonical
  constructor
  · rw [hassoc]
    refine ⟨⟨hhead _, ?_⟩, ?_⟩
    · rw [isChain_append]
      refine ⟨hu.2, hchain.tail.imp fun _ _ hplain _ => ne_hash_of_plain hplain, ?_⟩
      intro c _ e he _
      rw [← Option.some.inj he]
      decide
    · intro hopen
      apply h.closed
      rw [← (getLastD_eq_dot (by simp)).mpr hopen, hcanonical,
        getLastD_append (cons_ne_nil _ _), ← singleton_append, getLastD_append h.ne_nil]
  · rw [hassoc, hassoc, hcanonical']

theorem exists_keeps (h : ¬ HashFree x) :
    ∃ pre q rest, t.canonicalUnlessHash x = q ++ ch '#' :: rest ∧ (∀ c ∈ pre, c = ch '.' ∨ c ∈ x) ∧
      (q = [] ∨ ∃ q', q = q' ++ [ch '.']) ∧ ∀ b, Probe t b → Keeps t pre q b := by
  by_cases hhead : x.headD 0 = ch '#'
  · cases x with
    | nil => exact absurd hhead (by decide)
    | cons c x =>
      have hc : c = ch '#' := hhead
      refine ⟨[], [], x, ?_, nofun, .inl rfl, fun b => keeps_nil⟩
      rw [canonicalUnlessHash, if_pos hhead, hc]
      rfl
  -- the first '#' behind a digit
  · have hchain : ¬ x.IsChain fun d c => isDigit d = true → c ≠ ch '#' := fun hc => h ⟨hhead, hc⟩
    have hfirst : ∃ u d v, x = u ++ d :: ch '#' :: v ∧ isDigit d = true ∧
        (u ++ [d]).IsChain fun d c => isDigit d = true → c ≠ ch '#' := by
      clear h hhead
      induction x using reverseRecOn with
      | nil => exact absurd .nil hchain
      | append_singleton x e ih =>
        by_cases hx : x.IsChain fun d c => isDigit d = true → c ≠ ch '#'
        · have hbad : ¬ (x ≠ [] → isDigit (x.getLastD 0) = true → e ≠ ch '#') :=
            fun hlast => hchain (isChain_concat hx hlast)
          rw [Classical.not_imp, Classical.not_imp, not_not] at hbad
          have ⟨u, d, hu⟩ := (eq_nil_or_concat' x).resolve_left hbad.1
          rw [hu, getLastD_concat] at hbad
          refine ⟨u, d, [], ?_, hbad.2.1, ?_⟩
          · rw [hu, hbad.2.2, append_assoc]
            rfl
          · rw [← hu]
            exact hx
        · have ⟨u, d, v, he, hd, hu⟩ := ih hx
          refine ⟨u, d, v ++ [e], ?_, hd, hu⟩
          rw [he, append_assoc]
          rfl
    have ⟨u, d, v, he, hd, hu⟩ := hfirst
    have hfree : HashFree (u ++ [d]) := by
      refine ⟨?_, hu⟩
      rw [he] at hhead
      cases u with
      | nil => exact hhead
      | cons c u => exact hhead
    have hne : u ++ [d] ≠ [] := by simp
    have hlast : (t.phpCanonicalizeVersion (u ++ [d])).getLastD 0 = d := getLastD_number hd
    have hleaves : ¬ t.LeavesDot d (ch '#') := by
      intro hleaves
      rcases hleaves with hspecial | ⟨-, hno⟩
      · exact absurd hspecial (by decide)
      · exact hno ⟨hd, by decide⟩
    have hchange : Changes d (ch '#') :=
      Changes.iff.mpr ⟨by rw [hd]; decide, isDigit_ne_dot hd, by decide⟩
    -- a dot and the '#' are written behind the digit
    have ⟨rest, hrest⟩ := t.canonLoop_eq_append (ch '#')
      (t.phpCanonicalizeVersion (u ++ [d]) ++ [ch '.'] ++ [ch '#']) v
    refine ⟨u ++ [d] ++ [ch '.'], t.phpCanonicalizeVersion (u ++ [d]) ++ [ch '.'], rest, ?_, ?_,
      .inr ⟨_, rfl⟩, fun b hb => keeps_number hfree hd hb⟩
    · have hx : x = u ++ [d] ++ ch '#' :: v := by
        rw [he, append_assoc]
        rfl
      rw [canonicalUnlessHash_of hhead, hx, phpCanonicalizeVersion_append hne, getLastD_concat,
        canonLoop, hlast, canonStep_keep hleaves, if_pos hchange, dotBehind,
        if_pos (isDigit_ne_dot hd), ← append_assoc, hrest, append_assoc]
      rfl
    · intro c hc
      rw [mem_append, mem_singleton] at hc
      rcases hc with hc | hc
      · right
        rw [he, ← singleton_append, ← append_assoc]
        exact mem_append_left _ hc
      · exact .inl hc

theorem probe_number (h : Repeats t name) (hd : isDigit d = true)
    (k : ℕ) : Probe t (d :: ch '.' :: names name k) := by
  have ⟨c, l, hcons, _⟩ := names_cons h k
  refine ⟨cons_ne_nil _ _, ?_, ?_⟩
  · rw [isChain_cons_cons, isChain_cons_cons]
    exact ⟨.inr ⟨t.isalnum_of_isDigit hd, .inl rfl⟩, .inl ⟨rfl, isDigit_ne_dot hd⟩,
      isChain_names h k⟩
  · have hlast := getLastD_names h k
    rw [hcons] at hlast ⊢
    exact hlast

theorem mem_names {c : UInt8} {k : ℕ} (h : c ∈ names name k) :
    c = ch '.' ∨ c ∈ name := by
  induction k with
  | zero => exact .inr h
  | succ k ih =>
    rw [names, mem_append, mem_cons] at h
    rcases h with h | h | h
    · exact .inr h
    · exact .inl h
    · exact ih h

theorem versionLoop_keeps (hq : q = [] ∨ ∃ q', q = q' ++ [ch '.']) (p r : List UInt8) :
    versionLoop (some (q ++ p)) (some (q ++ r)) = versionLoop (some p) (some r) := by
  rcases hq with hq | ⟨q', hq⟩
  · rw [hq]
    rfl
  · rw [hq, append_assoc, append_assoc]
    exact versionLoop_append q' p r

theorem formOrder_hash (w : List UInt8) : formOrder (ch '#' :: w) = 4 := rfl

theorem partOf_cons {c : UInt8} (h : c ≠ ch '.') (p : List UInt8) :
    partOf (c :: p) = c :: partOf p := by
  unfold partOf
  rw [takeWhile_cons, decide_eq_true h]
  rfl

theorem comparePart_hash (hd : isDigit d = true) (w : List UInt8) :
    comparePart [d] (ch '#' :: w) = 0 ∧ comparePart (ch '#' :: w) [d] = 0 := by
  have hdigit : isDigit (([d] : List UInt8).headD 0) = true := hd
  have hhash : isDigit ((ch '#' :: w).headD 0) = false := by
    show isDigit (ch '#') = false
    decide
  unfold comparePart compareSpecialVersionForms
  rw [hdigit, hhash, formOrder_hash, formOrder_placeholder]
  exact ⟨rfl, rfl⟩

theorem exists_between (h : ¬ HashFree x) (hzero : 0 ∉ x) :
    ∃ y z, t.Orderly y ∧ t.Orderly z ∧ 0 ∉ y ∧ 0 ∉ z ∧ t.phpVersionCompare y x ≤ 0 ∧
      t.phpVersionCompare x z ≤ 0 ∧ t.phpVersionCompare y z = 1 := by
  have ⟨pre, q, rest, hx, hpre, hq, hkeeps⟩ := exists_keeps (t := t) h
  have hfoo : Repeats t foo := repeats_foo
  have hpl : Repeats t pl := repeats_pl
  generalize hk : rest.length = k
  have htwo : isDigit (ch '2') = true := by decide
  have hone : isDigit (ch '1') = true := by decide
  have hy := hkeeps _ (probe_number hfoo htwo k)
  have hz := hkeeps _ (probe_number hpl hone k)
  have hxne : x ≠ [] := by
    intro hnil
    rw [hnil] at h
    exact h ⟨by decide, .nil⟩
  have hne (d : UInt8) (l : List UInt8) : pre ++ d :: l ≠ [] := by simp
  have hpart {d : UInt8} (hd : isDigit d = true) (l : List UInt8) :
      partOf (d :: ch '.' :: l) = [d] ∧ afterDot (d :: ch '.' :: l) = some l := by
    have hdot : ∀ c ∈ [d], c ≠ ch '.' := fun c hc => by
      rw [mem_singleton.mp hc]
      exact isDigit_ne_dot hd
    exact ⟨partOf_append hdot l, afterDot_append hdot l⟩
  have hrest : ((afterDot (ch '#' :: rest)).getD []).length ≤ k := by
    cases hafter : afterDot (ch '#' :: rest) with
    | none => exact Nat.zero_le k
    | some r =>
      have hlt := length_lt_of_afterDot hafter
      rw [length_cons, hk] at hlt
      show r.length ≤ k
      omega
  have hzero' {name : List UInt8} (hname : 0 ∉ name) {d : UInt8} (hd : 0 ≠ d) :
      0 ∉ pre ++ d :: ch '.' :: names name k := by
    intro hmem
    rw [mem_append, mem_cons, mem_cons] at hmem
    rcases hmem with hmem | hmem | hmem | hmem
    · rcases hpre 0 hmem with hc | hc
      · exact absurd hc (by decide)
      · exact hzero hc
    · exact hd hmem
    · exact absurd hmem (by decide)
    · rcases mem_names hmem with hc | hc
      · exact absurd hc (by decide)
      · exact hname hc
  refine ⟨_, _, hy.orderly, hz.orderly, hzero' (by decide) (by decide),
    hzero' (by decide) (by decide), ?_, ?_, ?_⟩
  · unfold phpVersionCompare
    rw [versionCompareFuel_succ _ (hne _ _) hxne, hy.canonical, hx, versionLoop_keeps hq,
      versionLoop_agree (cons_ne_nil _ _) (cons_ne_nil _ _), (hpart htwo _).2]
    · exact settle_foo _ k _ hrest
    · rw [(hpart htwo _).1, partOf_cons (by decide)]
      exact (comparePart_hash htwo _).1
  · unfold phpVersionCompare
    rw [versionCompareFuel_succ _ hxne (hne _ _), hz.canonical, hx, versionLoop_keeps hq,
      versionLoop_agree (cons_ne_nil _ _) (cons_ne_nil _ _), (hpart hone _).2]
    · exact settle_pl _ k _ hrest
    · rw [(hpart hone _).1, partOf_cons (by decide)]
      exact (comparePart_hash hone _).2
  · have hdiffer : comparePart (partOf (ch '2' :: ch '.' :: names foo k))
        (partOf (ch '1' :: ch '.' :: names pl k)) = 1 := by
      rw [(hpart htwo _).1, (hpart hone _).1]
      decide
    unfold phpVersionCompare
    rw [versionCompareFuel_succ _ (hne _ _) (hne _ _), hy.canonical, hz.canonical,
      versionLoop_keeps hq, versionLoop_differ (cons_ne_nil _ _) (cons_ne_nil _ _),
      settle_differ, hdiffer]
    · rw [hdiffer]
      decide
    · rw [hdiffer]
      decide

abbrev Version := { s : List UInt8 // 0 ∉ s }

/-- `php_version_compare` is an order on these versions. -/
def Lawful (t : VersionCtype) (s : Set Version) : Prop :=
  ∀ a ∈ s, ∀ b ∈ s, ∀ c ∈ s,
    t.phpVersionCompare a b = -t.phpVersionCompare b a ∧
      (t.phpVersionCompare a b ≤ 0 → t.phpVersionCompare b c ≤ 0 → t.phpVersionCompare a c ≤ 0)

theorem lawful_orderly (t : VersionCtype) : t.Lawful {x | t.Orderly x} := by
  have hcomparison : Comparison fun a b : { x // t.Orderly x } => t.phpVersionCompare a b := by
    apply Comparison.of_key (List.compareLex keyCmp) fun a => versionKey t a.1
    intro a b
    rw [phpVersionCompare_eq a.2 b.2, sign_outcomeSign]
  intro a ha b hb c hc
  constructor
  · have hopposite := hcomparison.opposite ⟨a, ha⟩ ⟨b, hb⟩
    have hsign {x y : Version} (hx : t.Orderly x) (hy : t.Orderly y) :
        (t.phpVersionCompare x y).sign = t.phpVersionCompare x y := by
      rw [phpVersionCompare_eq hx hy, sign_outcomeSign]
    rw [← hsign ha hb, ← hsign hb ha]
    exact hopposite
  · exact hcomparison.trans ⟨a, ha⟩ ⟨b, hb⟩ ⟨c, hc⟩

/-- `isalnum` of the "C" locale. -/
def cLocale : VersionCtype where
  isalnum c := isDigit c || ch 'A' ≤ c && c ≤ ch 'Z' || ch 'a' ≤ c && c ≤ ch 'z'
  isalnum_ascii _ _ := rfl

end VersionCtype

end Php53.Standard
