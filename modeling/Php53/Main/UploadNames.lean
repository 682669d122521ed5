import Php53.Main.ProtectedVariables

/-!
# UploadNames — the attributes of file fields

`rfc1867_post_handler` takes a name whose brackets are closed one after the other, and registers each
attribute of a file behind the variable itself.  The registrar reads the names of all attributes as
paths that differ in the attribute only.
-/

namespace Php53.Main

open Zend List

def bracketsClosed : Int → List UInt8 → Bool
  | c, [] => c = 0
  | c, b :: tmp =>
    let c := if b = ch '[' then c + 1 else if b = ch ']' then c - 1 else c
    if b = ch ']' ∧ tmp ≠ [] ∧ tmp.head? ≠ some (ch '[') then false
    else if c < 0 then false
    else bracketsClosed c tmp

/-- `is_arr_upload`, with `abuf` and `array_index`. -/
def arrayUpload (param : List UInt8) : Option (List UInt8 × List UInt8) :=
  let startArr := param.dropWhile (· ≠ ch '[')
  if startArr ≠ [] ∧ param.getLast? = some (ch ']') then
    some (param.take (param.length - startArr.length), (startArr.drop 1).take (startArr.length - 2))
  else none

/-- The name of an attribute, in `lbuf`. -/
def attributeName (upload : Option (List UInt8 × List UInt8)) (param attr : List UInt8) :
    List UInt8 :=
  match upload with
  | some (abuf, arrayIndex) =>
    abuf ++ ch '[' :: attr ++ [ch ']'] ++ ch '[' :: arrayIndex ++ [ch ']']
  | none => param ++ ch '[' :: attr ++ [ch ']']

/-- `name` -/
def nameAttribute : List UInt8 := [110, 97, 109, 101]

/-- `type` -/
def typeAttribute : List UInt8 := [116, 121, 112, 101]

/-- `tmp_name` -/
def tmpNameAttribute : List UInt8 := [116, 109, 112, 95, 110, 97, 109, 101]

/-- `error` -/
def errorAttribute : List UInt8 := [101, 114, 114, 111, 114]

/-- `size` -/
def sizeAttribute : List UInt8 := [115, 105, 122, 101]

def attributes : List (List UInt8) :=
  [nameAttribute, typeAttribute, tmpNameAttribute, errorAttribute, sizeAttribute]

/-- A variable and its indices, as the text of a name. -/
structure FieldName (param base : List UInt8) (indices : List (List UInt8)) : Prop where
  text : param = base ++ joined indices none
  base : ch '[' ∉ base
  opened : ∀ index ∈ indices, ch '[' ∉ index
  closed : ∀ index ∈ indices, ch ']' ∉ index

theorem bracketsClosed_cons {c : Int} {b : UInt8} {tmp : List UInt8}
    (h : bracketsClosed c (b :: tmp) = true) :
    (b = ch '[' → bracketsClosed (c + 1) tmp = true) ∧
      (b = ch ']' → 0 ≤ c - 1 ∧ bracketsClosed (c - 1) tmp = true ∧
        (tmp = [] ∨ tmp.head? = some (ch '['))) ∧
      (b ≠ ch '[' → b ≠ ch ']' → bracketsClosed c tmp = true) := by
  have hneg : ∀ {c : Int}, (if c < 0 then false else bracketsClosed c tmp) = true →
      0 ≤ c ∧ bracketsClosed c tmp = true := by
    intro c hc
    by_cases hlt : c < 0
    · rw [if_pos hlt] at hc
      exact nomatch hc
    · rw [if_neg hlt] at hc
      exact ⟨by omega, hc⟩
  rw [bracketsClosed] at h
  by_cases hbehind : b = ch ']' ∧ tmp ≠ [] ∧ tmp.head? ≠ some (ch '[')
  · rw [if_pos hbehind] at h
    exact nomatch h
  · rw [if_neg hbehind] at h
    have hrest := hneg h
    refine ⟨?_, ?_, ?_⟩
    · intro hopen
      rw [if_pos hopen] at hrest
      exact hrest.2
    · intro hclose
      have hopen : b ≠ ch '[' := by
        rw [hclose]
        decide
      rw [if_neg hopen, if_pos hclose] at hrest
      refine ⟨hrest.1, hrest.2, ?_⟩
      by_contra htmp
      rw [not_or] at htmp
      exact hbehind ⟨hclose, htmp⟩
    · intro hopen hclose
      rw [if_neg hopen, if_neg hclose] at hrest
      exact hrest.2

theorem open_le {c : Int} {s : List UInt8} (h : bracketsClosed c s = true) :
    c ≤ 1 ∧ (s.head? = some (ch '[') → c ≤ 0) := by
  induction s generalizing c with
  | nil =>
    have hc : c = 0 := of_decide_eq_true h
    omega
  | cons b tmp ih =>
    obtain ⟨hopened, hclosed, hother⟩ := bracketsClosed_cons h
    by_cases hopen : b = ch '['
    · have hrest := ih (hopened hopen)
      omega
    · suffices hle : c ≤ 1 from ⟨hle, fun hb => absurd (Option.some.inj hb) hopen⟩
      by_cases hclose : b = ch ']'
      · obtain ⟨-, htmp, hnil | hhead⟩ := hclosed hclose
        · rw [hnil] at htmp
          have hc : c - 1 = 0 := of_decide_eq_true htmp
          omega
        · have hrest := (ih htmp).2 hhead
          omega
      · exact (ih (hother hopen hclose)).1

theorem split_brackets (s : List UInt8) :
    (bracketsClosed 0 s = true → ∃ base indices, FieldName s base indices) ∧
      (bracketsClosed 1 s = true → ∃ index rest indices, s = index ++ ch ']' :: rest ∧
        ch '[' ∉ index ∧ ch ']' ∉ index ∧ FieldName rest [] indices) := by
  induction s with
  | nil =>
    constructor
    · intro _
      exact ⟨[], [], rfl, not_mem_nil, by simp, by simp⟩
    · intro h
      exact absurd (of_decide_eq_true h) (by decide)
  | cons b tmp ih =>
    by_cases hopen : b = ch '['
    · subst hopen
      constructor
      · intro h
        obtain ⟨index, rest, indices, rfl, hindexOpen, hindexClose, hname⟩ :=
          ih.2 ((bracketsClosed_cons h).1 rfl)
        refine ⟨[], index :: indices, ?_, not_mem_nil, ?_, ?_⟩
        · rw [joined_cons, hname.text]
          rfl
        · exact forall_mem_cons.mpr ⟨hindexOpen, hname.opened⟩
        · exact forall_mem_cons.mpr ⟨hindexClose, hname.closed⟩
      · intro h
        have hle := (open_le h).2 rfl
        omega
    · by_cases hclose : b = ch ']'
      · subst hclose
        constructor
        · intro h
          have hle := ((bracketsClosed_cons h).2.1 rfl).1
          omega
        · intro h
          obtain ⟨-, htmp, hbehind⟩ := (bracketsClosed_cons h).2.1 rfl
          obtain ⟨base, indices, hname⟩ := ih.1 htmp
          -- behind the bracket there is no variable
          have hbase : base = [] := by
            cases base with
            | nil => rfl
            | cons x base =>
              rw [hname.text] at hbehind
              rcases hbehind with hnil | hhead
              · exact nomatch hnil
              · exact absurd (Option.some.inj hhead ▸ mem_cons_self) hname.base
          subst hbase
          exact ⟨[], tmp, indices, rfl, not_mem_nil, not_mem_nil, hname⟩
      · have hbracket : ch '[' ≠ b ∧ ch ']' ≠ b := ⟨Ne.symm hopen, Ne.symm hclose⟩
        constructor
        · intro h
          obtain ⟨base, indices, hname⟩ := ih.1 ((bracketsClosed_cons h).2.2 hopen hclose)
          refine ⟨b :: base, indices, by rw [hname.text]; rfl, ?_, hname.opened, hname.closed⟩
          exact fun hmem => (mem_cons.mp hmem).elim hbracket.1 hname.base
        · intro h
          obtain ⟨index, rest, indices, rfl, hindexOpen, hindexClose, hname⟩ :=
            ih.2 ((bracketsClosed_cons h).2.2 hopen hclose)
          refine ⟨b :: index, rest, indices, rfl, ?_, ?_, hname⟩
          · exact fun hmem => (mem_cons.mp hmem).elim hbracket.1 hindexOpen
          · exact fun hmem => (mem_cons.mp hmem).elim hbracket.2 hindexClose

theorem exists_fieldName {param : List UInt8} (h : bracketsClosed 0 param = true) :
    ∃ base indices, FieldName param base indices := (split_brackets param).1 h

theorem joined_ends (index : List UInt8) (indices : List (List UInt8)) :
    ∃ inner, joined (index :: indices) none = ch '[' :: (inner ++ [ch ']']) := by
  induction indices generalizing index with
  | nil => exact ⟨index, by simp [joined]⟩
  | cons i indices ih =>
    obtain ⟨inner, hinner⟩ := ih i
    refine ⟨index ++ ch ']' :: ch '[' :: inner, ?_⟩
    rw [joined_cons, hinner]
    simp

theorem attribute_spec {attr : List UInt8} (h : attr ∈ attributes) :
    attr.dropWhile isBlank = attr ∧ ch ']' ∉ attr ∧ 2 ≤ attr.length ∧
      symtableKey attr = .str attr := by
  have hall : ∀ attr ∈ attributes, attr.dropWhile isBlank = attr ∧ ch ']' ∉ attr ∧
      2 ≤ attr.length ∧ symtableKey attr = .str attr := by decide +kernel
  exact hall attr h

section Attributes

variable {param base : List UInt8} {indices : List (List UInt8)}

theorem arrayUpload_eq (h : FieldName param base indices) :
    (indices = [] ∧ arrayUpload param = none) ∨
      ∃ inner, joined indices none = ch '[' :: (inner ++ [ch ']']) ∧
        arrayUpload param = some (base, inner) := by
  have hall : ∀ c ∈ base, decide (c ≠ ch '[') = true := by
    intro c hc
    exact decide_eq_true fun heq => h.base (heq ▸ hc)
  cases indices with
  | nil =>
    have hdrop : param.dropWhile (· ≠ ch '[') = [] := by
      rw [h.text, joined, flatMap_nil, Option.elim_none, append_nil, append_nil]
      exact dropWhile_eq_nil_iff.mpr hall
    exact .inl ⟨rfl, by rw [arrayUpload, hdrop, if_neg fun hne => hne.1 rfl]⟩
  | cons index indices =>
    obtain ⟨inner, hinner⟩ := joined_ends index indices
    have hdrop : param.dropWhile (· ≠ ch '[') = ch '[' :: (inner ++ [ch ']']) := by
      rw [h.text, hinner, dropWhile_append_of_pos hall, dropWhile_cons_of_neg (by simp)]
    have hlast : param.getLast? = some (ch ']') := by
      rw [h.text, hinner, ← cons_append, ← append_assoc, getLast?_concat]
    refine .inr ⟨inner, hinner, ?_⟩
    rw [arrayUpload, hdrop, hlast, if_pos ⟨cons_ne_nil _ _, rfl⟩, h.text, hinner]
    simp

theorem attributeName_eq (h : FieldName param base indices) (attr : List UInt8) :
    attributeName (arrayUpload param) param attr = base ++ joined (attr :: indices) none ∧
      (attributeName (arrayUpload param) (normalizeProtectedVariable param) attr =
          base ++ joined (attr :: indices) none ∨
        attributeName (arrayUpload param) (normalizeProtectedVariable param) attr =
          varName base ++ joined (attr :: indices) none) := by
  rcases arrayUpload_eq h with ⟨rfl, hupload⟩ | ⟨inner, hinner, hupload⟩
  · have hparam : param = base := h.text.trans (append_nil base)
    have hbrackets : brackets param = [] := by
      rw [h.text]
      exact (varName_joined h.base []).2
    rw [hupload, normalize_plain hbrackets, hparam]
    have hname : ∀ s, attributeName none s attr = s ++ joined [attr] none := by
      simp [attributeName, joined]
    exact ⟨hname base, .inr (hname _)⟩
  · rw [hupload]
    have hname : ∀ s, attributeName (some (base, inner)) s attr =
        base ++ joined (attr :: indices) none := by
      intro s
      rw [joined_cons, hinner, attributeName]
      simp
    exact ⟨hname _, .inl (hname _)⟩

theorem normalize_joined (hbase : ch '[' ∉ base) (hclosed : ∀ i ∈ indices, ch ']' ∉ i) :
    normalizeProtectedVariable (base ++ joined indices none) =
      varName base ++ joined (indices.map (dropWhile isBlank)) none := by
  obtain ⟨hvar, hbrackets⟩ := varName_joined hbase indices
  cases indices with
  | nil =>
    rw [normalize_plain hbrackets, hvar]
    exact (append_nil _).symm
  | cons index indices =>
    rw [normalize_indexed (hbrackets.trans (joined_cons _ _))
      (indices_joined (hclosed index mem_cons_self) fun i hi =>
        hclosed i (mem_cons_of_mem _ hi)), hvar]
    rfl

def attributeForm (base : List UInt8) (indices : List (List UInt8)) (attr : List UInt8) :
    List UInt8 :=
  varName base ++ joined (attr :: indices.map (List.dropWhile isBlank)) none

theorem normalize_attributeName (h : FieldName param base indices) {attr : List UInt8}
    (hattr : attr ∈ attributes) :
    normalizeProtectedVariable (attributeName (arrayUpload param) param attr) =
        attributeForm base indices attr ∧
      normalizeProtectedVariable
        (attributeName (arrayUpload param) (normalizeProtectedVariable param) attr) =
        attributeForm base indices attr := by
  obtain ⟨hstrip, hclose, -, -⟩ := attribute_spec hattr
  have hclosed : ∀ i ∈ attr :: indices, ch ']' ∉ i := forall_mem_cons.mpr ⟨hclose, h.closed⟩
  have hform : ∀ base', ch '[' ∉ base' → varName base' = varName base →
      normalizeProtectedVariable (base' ++ joined (attr :: indices) none) =
        attributeForm base indices attr := by
    intro base' hbase' hvar
    rw [normalize_joined hbase' hclosed, map_cons, hstrip, hvar, attributeForm]
  have hplain := plainVar_varName h.base
  obtain ⟨hname, hname' | hname'⟩ := attributeName_eq h attr
  · rw [hname, hname']
    exact ⟨hform base h.base rfl, hform base h.base rfl⟩
  · rw [hname, hname']
    exact ⟨hform base h.base rfl, hform _ hplain.bracket hplain.varName_eq⟩

def indexPath (config : Config) (indices : List (List UInt8)) : List (Option HashKey) :=
  (indices.map (List.dropWhile isBlank)).map (indexKey config.isspace)

variable {config : Config} {val : Zval} {attr : List UInt8}

theorem register_attribute (h : FieldName param base indices) (hattr : attr ∈ attributes)
    (hvar : varName base ≠ []) (hlevels : indices.length + 1 ≤ config.maxInputNestingLevel)
    (t : Table) :
    phpRegisterVariableEx config (attributeForm base indices attr) val t =
      put (some (symtableKey (varName base)) :: some (.str attr) :: indexPath config indices) val
        t := by
  obtain ⟨-, hclose, hlength, hkey⟩ := attribute_spec hattr
  have hclosed : ∀ i ∈ attr :: indices.map (dropWhile isBlank), ch ']' ∉ i := by
    rw [forall_mem_cons]
    refine ⟨hclose, fun i hi => ?_⟩
    obtain ⟨x, hx, rfl⟩ := mem_map.mp hi
    exact notMem_dropWhile (h.closed x hx)
  have hindex : indexKey config.isspace attr = some (.str attr) := by
    rw [indexKey, if_neg (by omega), hkey]
  have hreads := @reads_joined _ config _ (plainVar_varName h.base) hvar hclosed
    (by rw [length_cons, length_map]; omega)
  rw [map_cons, hindex] at hreads
  exact phpRegisterVariableEx_eq_put hreads t

theorem register_attribute_givenUp (h : FieldName param base indices) (hattr : attr ∈ attributes)
    (hdropped : varName base = [] ∨ config.maxInputNestingLevel < indices.length + 1) (t : Table) :
    phpRegisterVariableEx config (attributeForm base indices attr) val t = t ∨
      (phpRegisterVariableEx config (attributeForm base indices attr) val t).elements =
        t.elements.filter fun e => e.1 ≠ symtableKey (varName base) := by
  have hplain := plainVar_varName h.base
  obtain ⟨hvar, hbrackets⟩ := varName_joined hplain.bracket
    (attr :: indices.map (dropWhile isBlank))
  rw [hplain.varName_eq] at hvar
  rcases hdropped with hnil | hlevels
  · left
    rw [phpRegisterVariableEx, attributeForm]
    dsimp only
    rw [hvar, if_pos hnil]
  · obtain ⟨-, hclose, -, -⟩ := attribute_spec hattr
    have htext : Indices (attr ++ ch ']' :: joined (indices.map (dropWhile isBlank)) none)
        (attr :: indices.map (dropWhile isBlank)) none := by
      apply indices_joined hclose
      intro i hi
      obtain ⟨x, hx, rfl⟩ := mem_map.mp hi
      exact notMem_dropWhile (h.closed x hx)
    have hgivenUp := @phpRegisterVariableEx_givenUp config val _ _ _ _
      (hbrackets.trans (joined_cons _ _)) htext (cons_ne_nil _ _)
      (by rw [levels, length_cons, length_map]; exact hlevels) t
    rw [hvar] at hgivenUp
    exact hgivenUp

end Attributes

end Php53.Main
