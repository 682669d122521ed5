import Php53.Main.BuildQuery
import Php53.Main.FormFields

/-!
# QueryText — the query string of an array, leaf by leaf

Every leaf of an array is one field.  Its name is the path to the leaf, escaped, and decoding the
field gives the path and the leaf back.
-/

namespace Php53.Main

open Zend List

theorem forall_byte {P : UInt8 → Prop} (h : ∀ n : Fin 256, P (.ofNat n)) (c : UInt8) : P c := by
  have hc := h ⟨c.toNat, c.toNat_lt⟩
  rwa [UInt8.ofNat_toNat] at hc

def PlainByte (c : UInt8) : Prop := c ≠ ch '&' ∧ c ≠ ch '=' ∧ c ≠ 0

instance (c : UInt8) : Decidable (PlainByte c) := inferInstanceAs (Decidable (_ ∧ _ ∧ _))

theorem plainByte_urlEncodeByte (c : UInt8) : ∀ x ∈ urlEncodeByte c, PlainByte x := by
  have hall : ∀ c, (urlEncodeByte c).all (fun x => decide (PlainByte x)) = true := by
    apply forall_byte
    decide +kernel
  intro x hx
  exact of_decide_eq_true (all_eq_true.mp (hall c) x hx)

theorem urlDecode_hex {a b : UInt8} (ha : isxdigit a = true) (hb : isxdigit b = true)
    (s : List UInt8) : urlDecode (ch '%' :: a :: b :: s) = phpHtoi a b :: urlDecode s := by
  rw [urlDecode, if_neg (by decide), if_pos ⟨rfl, ha, hb⟩]

theorem urlDecode_other {c : UInt8} (hplus : c ≠ ch '+') (hpercent : c ≠ ch '%')
    (s : List UInt8) : urlDecode (c :: s) = c :: urlDecode s := by
  rcases s with _ | ⟨x, _ | ⟨y, s⟩⟩
  · rw [urlDecode_one, if_neg hplus]
    rfl
  · rw [urlDecode_two, if_neg hplus]
  · rw [urlDecode, if_neg hplus, if_neg fun h => hpercent h.1]

theorem urlEncodeByte_cases (c : UInt8) :
    (c = ch ' ' ∧ urlEncodeByte c = [ch '+']) ∨
      (∃ a b, urlEncodeByte c = [ch '%', a, b] ∧ isxdigit a = true ∧ isxdigit b = true ∧
        phpHtoi a b = c) ∨
      (urlEncodeByte c = [c] ∧ c ≠ ch '+' ∧ c ≠ ch '%') := by
  have hhex : ∀ c : UInt8, isxdigit (hexchars (c.toNat >>> 4)) = true ∧
      isxdigit (hexchars (c.toNat &&& 15)) = true ∧
      phpHtoi (hexchars (c.toNat >>> 4)) (hexchars (c.toNat &&& 15)) = c := by
    apply forall_byte
    decide +kernel
  rw [urlEncodeByte]
  split
  · next h => exact .inl ⟨h, rfl⟩
  · split
    · exact .inr (.inl ⟨_, _, rfl, hhex c⟩)
    · next h =>
      refine .inr (.inr ⟨rfl, ?_, ?_⟩)
      · rintro rfl
        exact h (by decide)
      · rintro rfl
        exact h (by decide)

theorem urlDecode_encodeByte (c : UInt8) (rest : List UInt8) :
    urlDecode (urlEncodeByte c ++ rest) = c :: urlDecode rest := by
  rcases urlEncodeByte_cases c with ⟨rfl, h⟩ | ⟨a, b, h, ha, hb, hc⟩ | ⟨h, hplus, hpercent⟩
  · rw [h]
    exact urlDecode_plus rest
  · rw [h]
    exact (urlDecode_hex ha hb rest).trans (by rw [hc])
  · rw [h]
    exact urlDecode_other hplus hpercent rest

theorem urlDecode_encode (s rest : List UInt8) :
    urlDecode (phpUrlEncode s ++ rest) = s ++ urlDecode rest := by
  induction s with
  | nil => rfl
  | cons c s ih =>
    rw [phpUrlEncode, flatMap_cons, append_assoc, urlDecode_encodeByte]
    exact congrArg (c :: ·) ih

theorem plainByte_phpUrlEncode (s : List UInt8) : ∀ x ∈ phpUrlEncode s, PlainByte x := by
  intro x hx
  obtain ⟨c, -, hx⟩ := mem_flatMap.mp hx
  exact plainByte_urlEncodeByte c x hx

theorem mem_printLong {l : BitVec 64} {c : UInt8} (h : c ∈ printLong l) :
    isDigit c = true ∨ c = ch '-' := by
  rw [printLong_eq] at h
  split at h
  · rcases mem_cons.mp h with rfl | h
    · exact .inr rfl
    · exact .inl (isDigit_of_mem_longDigits h)
  · exact .inl (isDigit_of_mem_longDigits h)

theorem urlDecode_append_of_plain {s : List UInt8} (h : ∀ c ∈ s, c ≠ ch '+' ∧ c ≠ ch '%')
    (rest : List UInt8) : urlDecode (s ++ rest) = s ++ urlDecode rest := by
  induction s with
  | nil => rfl
  | cons c s ih =>
    have hc := h c mem_cons_self
    rw [cons_append, urlDecode_other hc.1 hc.2,
      ih fun x hx => h x (mem_cons_of_mem _ hx)]
    rfl

theorem urlDecode_encodeKey (k : HashKey) (rest : List UInt8) :
    urlDecode (encodeKey k ++ rest) = keyText k ++ urlDecode rest := by
  cases k with
  | str s => exact urlDecode_encode s rest
  | index l =>
    apply urlDecode_append_of_plain
    intro c hc
    rcases mem_printLong hc with hdigit | rfl
    · rw [isDigit_iff] at hdigit
      constructor
      · rintro rfl
        exact absurd hdigit (by decide)
      · rintro rfl
        exact absurd hdigit (by decide)
    · decide

theorem plainByte_encodeKey (k : HashKey) : ∀ x ∈ encodeKey k, PlainByte x := by
  cases k with
  | str s => exact plainByte_phpUrlEncode s
  | index l =>
    intro c hc
    rcases mem_printLong hc with hdigit | rfl
    · rw [isDigit_iff] at hdigit
      refine ⟨?_, ?_, ?_⟩
      · rintro rfl
        exact absurd hdigit (by decide)
      · rintro rfl
        exact absurd hdigit (by decide)
      · rintro rfl
        exact absurd hdigit (by decide)
    · decide

def Canonical (k : HashKey) : Prop := symtableKey (keyText k) = k

mutual

def Regular : Zval → Prop
  | .string _ => True
  | .long _ => False
  | .array es _ => es ≠ [] ∧ RegularElements es

def RegularElements : List (HashKey × Zval) → Prop
  | [] => True
  | (k, z) :: es => Canonical k ∧ (∀ e ∈ es, e.1 ≠ k) ∧ Regular z ∧ RegularElements es

end

mutual

def leaves : Zval → List (List HashKey × List UInt8)
  | .string val => [([], val)]
  | .long _ => []
  | .array es _ => leavesOf es

def leavesOf : List (HashKey × Zval) → List (List HashKey × List UInt8)
  | [] => []
  | (k, z) :: es => ((leaves z).map fun l => (k :: l.1, l.2)) ++ leavesOf es

end

theorem path_ne_nil {es : List (HashKey × Zval)} : ∀ l ∈ leavesOf es, l.1 ≠ [] := by
  induction es with
  | nil => simp [leavesOf]
  | cons e es ih =>
    intro l hl
    rw [leavesOf, mem_append, mem_map] at hl
    rcases hl with ⟨l', -, rfl⟩ | hl
    · exact cons_ne_nil _ _
    · exact ih l hl

def bracketed (ks : List HashKey) : List UInt8 :=
  ks.flatMap fun k => ch '[' :: (keyText k ++ [ch ']'])

def pathText : List HashKey → List UInt8
  | [] => []
  | k :: ks => keyText k ++ bracketed ks

def encodePath (keySuffix : List UInt8) : List HashKey → List UInt8
  | [] => []
  | k :: ks => encodeKey k ++ keySuffix ++
      ks.flatMap fun k => openBracket ++ encodeKey k ++ closeBracket

def encodeLeaf (l : List HashKey × List UInt8) : List UInt8 :=
  encodePath [] l.1 ++ ch '=' :: phpUrlEncode l.2

def appendFields (argSep formstr : List UInt8) (fields : List (List UInt8)) : List UInt8 :=
  fields.foldl (fun s field => (if s ≠ [] then s ++ argSep else s) ++ field) formstr

theorem appendFields_append (argSep formstr : List UInt8) (fs gs : List (List UInt8)) :
    appendFields argSep formstr (fs ++ gs) =
      appendFields argSep (appendFields argSep formstr fs) gs := foldl_append

theorem encodePath_cons (keySuffix : List UInt8) (k : HashKey) {p : List HashKey} (hp : p ≠ []) :
    encodePath keySuffix (k :: p) =
      encodeKey k ++ keySuffix ++ openBracket ++ encodePath closeBracket p := by
  obtain ⟨k', ks, rfl⟩ : ∃ k' ks, p = k' :: ks := exists_cons_of_ne_nil hp
  simp [encodePath]

mutual

theorem encodeElement_eq (argSep : List UInt8) : ∀ (z : Zval) (keyPrefix keySuffix : List UInt8)
    (k : HashKey) (formstr : List UInt8), Regular z →
    encodeElement argSep keyPrefix keySuffix k z formstr =
      appendFields argSep formstr ((leaves z).map fun l =>
        keyPrefix ++ encodePath keySuffix (k :: l.1) ++ ch '=' :: phpUrlEncode l.2)
  | .string val, keyPrefix, keySuffix, k, formstr, _ => by
    simp [encodeElement, leaves, appendFields, encodePath]
  | .array es next, keyPrefix, keySuffix, k, formstr, h => by
    rw [encodeElement, encodeElements_eq argSep es _ _ _ h.2, leaves]
    congr 1
    apply map_congr_left
    intro l hl
    rw [encodePath_cons keySuffix k (path_ne_nil l hl)]
    simp only [append_assoc]

theorem encodeElements_eq (argSep : List UInt8) : ∀ (es : List (HashKey × Zval))
    (keyPrefix keySuffix formstr : List UInt8), RegularElements es →
    encodeElements argSep keyPrefix keySuffix es formstr =
      appendFields argSep formstr ((leavesOf es).map fun l =>
        keyPrefix ++ encodePath keySuffix l.1 ++ ch '=' :: phpUrlEncode l.2)
  | [], _, _, _, _ => rfl
  | (k, z) :: es, keyPrefix, keySuffix, formstr, h => by
    rw [encodeElements, encodeElements_eq argSep es _ _ _ h.2.2.2,
      encodeElement_eq argSep z _ _ _ _ h.2.2.1, leavesOf, map_append, appendFields_append,
      map_map]
    rfl

end

theorem phpUrlEncodeHashEx_eq (argSep : List UInt8) {ht : Table}
    (h : RegularElements ht.elements) :
    phpUrlEncodeHashEx argSep ht =
      appendFields argSep [] ((leavesOf ht.elements).map encodeLeaf) := by
  rw [phpUrlEncodeHashEx, encodeElements_eq argSep _ _ _ _ h]
  rfl

theorem appendFields_of_ne_nil (argSep : List UInt8) {s : List UInt8} (hs : s ≠ [])
    (fields : List (List UInt8)) :
    appendFields argSep s fields = s ++ fields.flatMap (argSep ++ ·) := by
  induction fields generalizing s with
  | nil => simp [appendFields]
  | cons f fields ih =>
    have hstep : appendFields argSep s (f :: fields) = appendFields argSep (s ++ argSep ++ f) fields := by
      rw [appendFields, foldl_cons, if_pos hs]
      rfl
    rw [hstep, ih (by simp [hs]), flatMap_cons]
    simp only [append_assoc]

theorem fieldsOf_appendFields {fields : List (List UInt8)}
    (h : ∀ f ∈ fields, f ≠ [] ∧ ch '&' ∉ f) :
    (fieldsOf (appendFields [ch '&'] [] fields)).filter (· ≠ []) = fields := by
  cases fields with
  | nil => simp [appendFields, fieldsOf]
  | cons f fields =>
    have hf := h f mem_cons_self
    have hfirst : appendFields [ch '&'] [] (f :: fields) = appendFields [ch '&'] f fields := by
      rw [appendFields, foldl_cons, if_neg (by simp), nil_append]
      rfl
    rw [hfirst, appendFields_of_ne_nil _ hf.1]
    have hall : ∀ (gs : List (List UInt8)), (∀ g ∈ gs, g ≠ [] ∧ ch '&' ∉ g) →
        ∀ f : List UInt8, ch '&' ∉ f →
        fieldsOf (f ++ gs.flatMap ([ch '&'] ++ ·)) = f :: gs := by
      intro gs
      induction gs with
      | nil =>
        intro _ f hf
        rw [flatMap_nil, append_nil]
        exact splitOn_eq_singleton hf
      | cons g gs ih =>
        intro hgs f hf
        have hrest := ih (fun x hx => hgs x (mem_cons_of_mem _ hx)) g
          (hgs g mem_cons_self).2
        rw [flatMap_cons, append_assoc, singleton_append, fieldsOf,
          splitOn_append_cons_self_of_not_mem hf]
        exact congrArg (f :: ·) hrest
    rw [hall fields (fun x hx => h x (mem_cons_of_mem _ hx)) f hf.2, filter_eq_self]
    intro g hg
    simpa using (h g hg).1

theorem plainByte_encodePath (p : List HashKey) : ∀ x ∈ encodePath [] p, PlainByte x := by
  have hopen : ∀ x ∈ openBracket, PlainByte x := plainByte_urlEncodeByte (ch '[')
  have hclose : ∀ x ∈ closeBracket, PlainByte x := plainByte_urlEncodeByte (ch ']')
  cases p with
  | nil => simp [encodePath]
  | cons k ks =>
    intro x hx
    rw [encodePath, append_nil, mem_append, mem_flatMap] at hx
    rcases hx with hx | ⟨k', -, hx⟩
    · exact plainByte_encodeKey k x hx
    · rw [mem_append, mem_append] at hx
      rcases hx with (hx | hx) | hx
      · exact hopen x hx
      · exact plainByte_encodeKey k' x hx
      · exact hclose x hx

theorem urlDecode_encodePath (p : List HashKey) : urlDecode (encodePath [] p) = pathText p := by
  have hopen : ∀ rest, urlDecode (openBracket ++ rest) = ch '[' :: urlDecode rest :=
    urlDecode_encodeByte (ch '[')
  have hclose : ∀ rest, urlDecode (closeBracket ++ rest) = ch ']' :: urlDecode rest :=
    urlDecode_encodeByte (ch ']')
  cases p with
  | nil => rfl
  | cons k ks =>
    rw [encodePath, append_nil, urlDecode_encodeKey, pathText]
    congr 1
    induction ks with
    | nil => rfl
    | cons k ks ih =>
      rw [flatMap_cons, append_assoc, append_assoc, hopen, urlDecode_encodeKey,
        hclose, ih, bracketed, bracketed, flatMap_cons]
      simp

theorem encodeLeaf_field (l : List HashKey × List UInt8) :
    encodeLeaf l ≠ [] ∧ ch '&' ∉ encodeLeaf l ∧ 0 ∉ encodeLeaf l := by
  have hmem : ∀ c ∈ encodeLeaf l, c = ch '=' ∨ PlainByte c := by
    intro c hc
    rw [encodeLeaf, mem_append, mem_cons] at hc
    rcases hc with hc | rfl | hc
    · exact .inr (plainByte_encodePath l.1 c hc)
    · exact .inl rfl
    · exact .inr (plainByte_phpUrlEncode l.2 c hc)
  refine ⟨by simp [encodeLeaf], fun h => ?_, fun h => ?_⟩
  · rcases hmem _ h with heq | hplain
    · exact absurd heq (by decide)
    · exact hplain.1 rfl
  · rcases hmem _ h with heq | hplain
    · exact absurd heq (by decide)
    · exact hplain.2.2 rfl

theorem decodeField_encodeLeaf {l : List HashKey × List UInt8} (hnul : 0 ∉ pathText l.1) :
    decodeField (encodeLeaf l) = (pathText l.1, l.2) := by
  have hassign : ch '=' ∉ encodePath [] l.1 := fun h => (plainByte_encodePath l.1 _ h).2.1 rfl
  have hvalue : urlDecode (phpUrlEncode l.2) = l.2 := by
    have h := urlDecode_encode l.2 []
    rwa [append_nil, show urlDecode [] = [] from rfl, append_nil] at h
  rw [encodeLeaf, decodeField_assign hassign, urlDecode_encodePath, hvalue,
    takeWhile_eq_self_iff.mpr]
  intro c hc
  exact decide_eq_true fun h => hnul (h ▸ hc)

end Php53.Main
