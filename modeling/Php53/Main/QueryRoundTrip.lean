import Php53.Main.QueryText
import Php53.Main.VariablePath

/-!
# QueryRoundTrip — arrays through `http_build_query` and `parse_str`

Every leaf is registered under its path, which makes the arrays on the way; in the order of the
leaves that builds the array again.  Between brackets an empty index, or a single blank, stands for
an append, so that a key of this kind does not come back.
-/

namespace Php53.Main

open Zend List

/-- An array as scripts see it, without the index that the next append gets. -/
inductive Tree where
  | string (val : List UInt8)
  | long (lval : BitVec 64)
  | array (elements : List (HashKey × Tree))

mutual

def shape : Zval → Tree
  | .string val => .string val
  | .long lval => .long lval
  | .array es _ => .array (shapeOf es)

def shapeOf : List (HashKey × Zval) → List (HashKey × Tree)
  | [] => []
  | (k, z) :: es => (k, shape z) :: shapeOf es

end

mutual

def EveryKey (P : HashKey → Prop) : Tree → Prop
  | .array es => EveryKeyOf P es
  | _ => True

def EveryKeyOf (P : HashKey → Prop) : List (HashKey × Tree) → Prop
  | [] => True
  | (k, z) :: es => (P k ∧ EveryKey P z) ∧ EveryKeyOf P es

end

theorem shapeOf_eq_map (es : List (HashKey × Zval)) :
    shapeOf es = es.map fun e => (e.1, shape e.2) := by
  induction es with
  | nil => rfl
  | cons e es ih => rw [shapeOf, ih, map_cons]

variable {P : HashKey → Prop}

theorem everyKeyOf_iff {es : List (HashKey × Tree)} :
    EveryKeyOf P es ↔ ∀ e ∈ es, P e.1 ∧ EveryKey P e.2 := by
  induction es with
  | nil => simp [EveryKeyOf]
  | cons e es ih => rw [EveryKeyOf, ih, forall_mem_cons]

def insertLeaf (t : Table) (l : List HashKey × List UInt8) : Table :=
  put (l.1.map some) (.string l.2) t

/-- A key that may stand in front of the brackets. -/
structure OuterKey (k : HashKey) : Prop where
  ne_nil : keyText k ≠ []
  space : ch ' ' ∉ keyText k
  point : ch '.' ∉ keyText k
  bracket : ch '[' ∉ keyText k
  nul : 0 ∉ keyText k

/-- A key that may stand between brackets. -/
structure InnerKey (k : HashKey) : Prop where
  bracket : ch ']' ∉ keyText k
  nul : 0 ∉ keyText k

section Register

variable {config : Config} {val : Zval}

theorem reads_path {k : HashKey} {ks : List HashKey} (hk : Canonical k) (houter : OuterKey k)
    (hks : ∀ x ∈ ks, Canonical x ∧ InnerKey x ∧ ¬ Appends config.isspace (keyText x))
    (hnest : ks.length ≤ config.maxInputNestingLevel) :
    Reads config (pathText (k :: ks)) ((k :: ks).map some) none := by
  have htext : pathText (k :: ks) = keyText k ++ joined (ks.map keyText) none := by
    rw [pathText, bracketed, joined, flatMap_map]
    exact congrArg _ (List.append_nil _).symm
  have hclosed : ∀ i ∈ ks.map keyText, ch ']' ∉ i := by
    intro i hi
    obtain ⟨x, hx, rfl⟩ := mem_map.mp hi
    exact (hks x hx).2.1.bracket
  have hkeys : (ks.map keyText).map (indexKey config.isspace) = ks.map some := by
    rw [map_map]
    apply map_congr_left
    intro x hx
    obtain ⟨hcanonical, -, happends⟩ := hks x hx
    rw [Function.comp_apply, indexKey_of_not_appends happends, hcanonical]
  have hreads := @reads_joined _ config _ ⟨houter.space, houter.point, houter.bracket⟩
    houter.ne_nil hclosed (by rw [length_map]; exact hnest)
  rw [hk, hkeys] at hreads
  rw [htext]
  exact hreads

end Register

section Rebuild

variable {k : HashKey} {t : Table}

theorem foldl_insertLeaf_under (ls : List (List HashKey × List UInt8)) (hls : ∀ l ∈ ls, l.1 ≠ [])
    (sub : Table) :
    (ls.map fun l => (k :: l.1, l.2)).foldl insertLeaf (t.update k sub.zval) =
      t.update k (ls.foldl insertLeaf sub).zval := by
  induction ls generalizing sub with
  | nil => rfl
  | cons l ls ih =>
    have hstep : insertLeaf (t.update k sub.zval) (k :: l.1, l.2) =
        t.update k (insertLeaf sub l).zval := by
      obtain ⟨k', ks, hl⟩ := exists_cons_of_ne_nil (hls l mem_cons_self)
      rw [insertLeaf, insertLeaf, hl, map_cons, map_cons, put, Table.find_update_self]
      exact Table.assign_update
    rw [map_cons, foldl_cons, hstep, foldl_cons,
      ih fun l hl => hls l (mem_cons_of_mem _ hl)]

theorem foldl_insertLeaf_new {ls : List (List HashKey × List UInt8)} (hne : ls ≠ [])
    (hls : ∀ l ∈ ls, l.1 ≠ []) (hk : t.find k = none) :
    (ls.map fun l => (k :: l.1, l.2)).foldl insertLeaf t =
      t.update k (ls.foldl insertLeaf {}).zval := by
  obtain ⟨l, ls, rfl⟩ := exists_cons_of_ne_nil hne
  obtain ⟨k', ks, hl⟩ := exists_cons_of_ne_nil (hls l mem_cons_self)
  have hstep : insertLeaf t (k :: l.1, l.2) = t.update k (insertLeaf {} l).zval := by
    rw [insertLeaf, insertLeaf, hl, map_cons, map_cons, put, hk]
    rfl
  rw [map_cons, foldl_cons, hstep, foldl_cons,
    foldl_insertLeaf_under ls fun l hl => hls l (mem_cons_of_mem _ hl)]

mutual

theorem leaves_ne_nil : ∀ {z : Zval}, Regular z → leaves z ≠ []
  | .string _, _ => cons_ne_nil _ _
  | .array _ _, h => leavesOf_ne_nil h.1 h.2

theorem leavesOf_ne_nil : ∀ {es : List (HashKey × Zval)}, es ≠ [] → RegularElements es →
    leavesOf es ≠ []
  | (k, z) :: es, _, h => by
    have hz := leaves_ne_nil h.2.2.1
    rw [leavesOf]
    simp [hz]

end

mutual

theorem rebuild (t : Table) (k : HashKey) : ∀ z : Zval, Regular z → (∀ e ∈ t.elements, e.1 ≠ k) →
    ∃ z', ((leaves z).map fun l => (k :: l.1, l.2)).foldl insertLeaf t = t.update k z' ∧
      shape z' = shape z
  | .string val, _, _ => ⟨.string val, rfl, rfl⟩
  | .array es next, h, hk => by
    have hinner := rebuildElements {} es h.2 (by simp)
    refine ⟨_, foldl_insertLeaf_new (leavesOf_ne_nil h.1 h.2) path_ne_nil
      (Table.find_of_notMem hk), ?_⟩
    rw [Table.zval, shape, leaves, hinner, shape]
    rfl

theorem rebuildElements (t : Table) : ∀ es : List (HashKey × Zval), RegularElements es →
    (∀ e ∈ es, ∀ e' ∈ t.elements, e'.1 ≠ e.1) →
    shapeOf ((leavesOf es).foldl insertLeaf t).elements = shapeOf t.elements ++ shapeOf es
  | [], _, _ => by rw [leavesOf, foldl_nil, shapeOf, List.append_nil]
  | (k, z) :: es, h, hnew => by
    have hk := hnew (k, z) mem_cons_self
    obtain ⟨z', hfold, hshape⟩ := rebuild t k z h.2.2.1 hk
    have helements : (t.update k z').elements = t.elements ++ [(k, z')] := Table.store_of_notMem hk
    have hrest := rebuildElements (t.update k z') es h.2.2.2 (by
      intro e he e' he'
      rw [helements, mem_append, mem_singleton] at he'
      rcases he' with he' | rfl
      · exact hnew e (mem_cons_of_mem _ he) e' he'
      · exact Ne.symm (h.2.1 e he))
    rw [leavesOf, foldl_append, hfold, hrest, helements]
    simp [shapeOf_eq_map, hshape]

end

end Rebuild

def parseStr (config : Config) (maxInputVars : Nat) (text : List UInt8) : Table :=
  registerAll config (phpDefaultTreatData [ch '&'] maxInputVars text) {}

theorem mem_leavesOf {es : List (HashKey × Zval)} {l : List HashKey × List UInt8}
    (h : l ∈ leavesOf es) : ∃ e ∈ es, ∃ l' ∈ leaves e.2, l = (e.1 :: l'.1, l'.2) := by
  induction es with
  | nil => exact absurd h (by simp [leavesOf])
  | cons e es ih =>
    rw [leavesOf, mem_append, mem_map] at h
    rcases h with ⟨l', hl', rfl⟩ | h
    · exact ⟨e, mem_cons_self, l', hl', rfl⟩
    · obtain ⟨e', he', hl'⟩ := ih h
      exact ⟨e', mem_cons_of_mem _ he', hl'⟩

mutual

theorem everyKey_path : ∀ {z : Zval}, EveryKey P (shape z) →
    ∀ l ∈ leaves z, ∀ k ∈ l.1, P k
  | .string _, _, l, hl, k, hk => by
    rw [leaves, mem_singleton] at hl
    exact absurd hk (by simp [hl])
  | .array es _, h, l, hl, k, hk => everyKeyOf_path h l hl k hk

theorem everyKeyOf_path : ∀ {es : List (HashKey × Zval)},
    EveryKeyOf P (shapeOf es) → ∀ l ∈ leavesOf es, ∀ k ∈ l.1, P k
  | (k, z) :: es, h, l, hl, k', hk' => by
    rw [leavesOf, mem_append, mem_map] at hl
    rcases hl with ⟨l', hl', rfl⟩ | hl
    · rcases mem_cons.mp hk' with rfl | hk'
      · exact h.1.1
      · exact everyKey_path h.1.2 l' hl' k' hk'
    · exact everyKeyOf_path h.2 l hl k' hk'

end

mutual

theorem Regular.canonical : ∀ {z : Zval}, Regular z → EveryKey Canonical (shape z)
  | .string _, _ => trivial
  | .array _ _, h => RegularElements.canonical h.2

theorem RegularElements.canonical : ∀ {es : List (HashKey × Zval)}, RegularElements es →
    EveryKeyOf Canonical (shapeOf es)
  | [], _ => trivial
  | (_, _) :: _, h => ⟨⟨h.1, Regular.canonical h.2.2.1⟩, RegularElements.canonical h.2.2.2⟩

end

theorem nul_notMem_pathText {p : List HashKey} (h : ∀ k ∈ p, 0 ∉ keyText k) : 0 ∉ pathText p := by
  cases p with
  | nil => simp [pathText]
  | cons k ks =>
    rw [pathText, mem_append, not_or]
    refine ⟨h k mem_cons_self, ?_⟩
    rw [bracketed, mem_flatMap]
    rintro ⟨k', hk', hmem⟩
    rw [mem_cons, mem_append, mem_singleton] at hmem
    rcases hmem with hmem | hmem | hmem
    · exact absurd hmem (by decide)
    · exact h k' (mem_cons_of_mem _ hk') hmem
    · exact absurd hmem (by decide)

section Parse

variable {config : Config} {maxInputVars : Nat} {ht : Table}

section

variable (hregular : RegularElements ht.elements) (houter : ∀ e ∈ ht.elements, OuterKey e.1)
  (hinner : ∀ e ∈ ht.elements, EveryKey InnerKey (shape e.2))

include hregular houter hinner

theorem registrations_query (hcount : (leavesOf ht.elements).length ≤ maxInputVars) :
    phpDefaultTreatData [ch '&'] maxInputVars (phpUrlEncodeHashEx [ch '&'] ht) =
      (leavesOf ht.elements).map fun l => (pathText l.1, l.2) := by
  have hfields : ∀ f ∈ (leavesOf ht.elements).map encodeLeaf, f ≠ [] ∧ ch '&' ∉ f := by
    intro f hf
    obtain ⟨l, -, rfl⟩ := mem_map.mp hf
    exact ⟨(encodeLeaf_field l).1, (encodeLeaf_field l).2.1⟩
  have hnul : 0 ∉ appendFields [ch '&'] [] ((leavesOf ht.elements).map encodeLeaf) := by
    rcases hls : leavesOf ht.elements with _ | ⟨l, ls⟩
    · simp [appendFields]
    · rw [map_cons, appendFields, foldl_cons, if_neg (by simp), nil_append]
      have heq := appendFields_of_ne_nil [ch '&'] (encodeLeaf_field l).1 (ls.map encodeLeaf)
      rw [appendFields] at heq
      rw [heq, mem_append, mem_flatMap]
      rintro (hmem | ⟨f, hf, hmem⟩)
      · exact (encodeLeaf_field l).2.2 hmem
      · obtain ⟨l', -, rfl⟩ := mem_map.mp hf
        rcases mem_cons.mp hmem with hmem | hmem
        · exact absurd hmem (by decide)
        · exact (encodeLeaf_field l').2.2 hmem
  rw [phpUrlEncodeHashEx_eq _ hregular, phpDefaultTreatData_eq maxInputVars hnul, registrations,
    fieldsOf_appendFields hfields, take_of_length_le (by rw [length_map]; omega),
    map_map]
  apply map_congr_left
  intro l hl
  apply decodeField_encodeLeaf
  apply nul_notMem_pathText
  obtain ⟨e, he, l', hl', rfl⟩ := mem_leavesOf hl
  intro k hk
  rcases mem_cons.mp hk with rfl | hk
  · exact (houter e he).nul
  · exact (everyKey_path (hinner e he) l' hl' k hk).nul

theorem parseStr_eq (hdepth : ∀ l ∈ leavesOf ht.elements, l.1.length ≤ config.maxInputNestingLevel + 1)
    (hcount : (leavesOf ht.elements).length ≤ maxInputVars)
    (happends : ∀ e ∈ ht.elements,
      EveryKey (fun k => ¬ Appends config.isspace (keyText k)) (shape e.2)) :
    parseStr config maxInputVars (phpUrlEncodeHashEx [ch '&'] ht) =
      (leavesOf ht.elements).foldl insertLeaf {} := by
  have hleaf : ∀ l ∈ leavesOf ht.elements, ∀ t,
      phpRegisterVariableSafe config (pathText l.1) l.2 t = insertLeaf t l := by
    intro l hl t
    have hlen := hdepth l hl
    obtain ⟨e, he, l', hl', rfl⟩ := mem_leavesOf hl
    have hcanonical := everyKeyOf_path hregular.canonical _ hl
    rw [length_cons] at hlen
    apply phpRegisterVariableEx_eq_put
      (reads_path (hcanonical e.1 mem_cons_self) (houter e he) _ (by omega)) t
    intro k hk
    exact ⟨hcanonical k (mem_cons_of_mem _ hk), everyKey_path (hinner e he) l' hl' k hk,
      everyKey_path (happends e he) l' hl' k hk⟩
  rw [parseStr, registrations_query hregular houter hinner hcount, registerAll, foldl_map]
  generalize ({} : Table) = t
  generalize leavesOf ht.elements = ls at hleaf ⊢
  induction ls generalizing t with
  | nil => rfl
  | cons l ls ih =>
    rw [foldl_cons, foldl_cons, hleaf l mem_cons_self]
    exact ih _ fun l hl => hleaf l (mem_cons_of_mem _ hl)

end

end Parse

def Held (isspace : UInt8 → Bool) (isVar : Bool) (t : Table) : Prop :=
  ∀ e ∈ t.elements, (isVar = false → ¬ Appends isspace (keyText e.1)) ∧
    EveryKey (fun k => ¬ Appends isspace (keyText k)) (shape e.2)

theorem held_iff {isspace : UInt8 → Bool} {t : Table} :
    Held isspace false t ↔ EveryKey (fun k => ¬ Appends isspace (keyText k)) (shape t.zval) := by
  rw [Table.zval, shape, EveryKey, everyKeyOf_iff, shapeOf_eq_map, forall_mem_map]
  exact forall₂_congr fun e _ => and_congr_left' (forall_prop_of_true rfl)

section Keys

variable {config : Config} {isVar : Bool} {t : Table} {k : HashKey} {z : Zval}

theorem not_appends_index (h : BitVec 64) : ¬ Appends config.isspace (keyText (.index h)) := by
  have hne : printLong h ≠ [] := by
    rw [printLong_eq]
    split
    · exact cons_ne_nil _ _
    · exact longDigits_ne_nil h
  rintro (hnil | ⟨c, hc, hspace⟩)
  · exact hne hnil
  · have hmem : c ∈ printLong h := by
      change printLong h = [c] at hc
      rw [hc]
      exact mem_singleton_self c
    have hprinting : 32 < c.toNat ∧ c.toNat < 127 := by
      rcases mem_printLong hmem with hdigit | rfl
      · rw [isDigit_iff] at hdigit
        omega
      · decide
    rw [config.isspace_printing c hprinting.1 hprinting.2] at hspace
    exact nomatch hspace

theorem not_appends_symtableKey {index : List UInt8} (h : ¬ Appends config.isspace index) :
    ¬ Appends config.isspace (keyText (symtableKey index)) := by
  rw [symtableKey]
  split
  · exact not_appends_index _
  · exact h

theorem not_appends_readIndex {isspace : UInt8 → Bool} {text index rest : List UInt8}
    (h : readIndex isspace text = some (some index, rest)) : ¬ Appends isspace index := by
  cases text with
  | nil => cases h
  | cons c s =>
    rw [readIndex] at h
    by_cases hc : isspace c = true
    · simp only [List.head?_cons, Option.any_some, hc, if_true, take_succ_cons, take_zero,
        length_cons, length_nil, drop_succ_cons, drop_zero] at h
      cases s with
      | nil => cases h
      | cons x s =>
        split at h
        · cases h
        · next hx =>
          rw [takeWhile_cons_of_pos (by simpa using hx)] at h
          split at h
          · cases h
            rintro (h | ⟨c', h, -⟩)
            · cases h
            · cases h
          · cases h
    · simp only [List.head?_cons, Option.any_some, hc, Bool.false_eq_true, if_false,
        take_zero, length_nil, drop_zero] at h
      split at h
      · cases h
      · next hx =>
        rw [takeWhile_cons_of_pos (by simpa using hx)] at h
        split at h
        · cases h
          rintro (h | ⟨c', h, hc'⟩)
          · cases h
          · rw [nil_append, List.cons.injEq] at h
            exact hc (h.1 ▸ hc')
        · cases h

theorem Held.update (h : Held config.isspace isVar t)
    (hk : isVar = false → ¬ Appends config.isspace (keyText k))
    (hz : EveryKey (fun k => ¬ Appends config.isspace (keyText k)) (shape z)) :
    Held config.isspace isVar (t.update k z) := by
  intro e he
  rcases Table.mem_store he with rfl | he
  · exact ⟨hk, hz⟩
  · exact h e he

theorem Held.nextIndexInsert {t' : Table} (h : Held config.isspace isVar t)
    (hz : EveryKey (fun k => ¬ Appends config.isspace (keyText k)) (shape z))
    (ht' : t.nextIndexInsert z = some t') : Held config.isspace isVar t' := by
  rw [Table.nextIndexInsert] at ht'
  split at ht'
  · exact nomatch ht'
  · cases ht'
    exact h.update (fun _ => not_appends_index _) hz

theorem Held.plainVar {index : Option (List UInt8)} (h : Held config.isspace isVar t)
    (hindex : ∀ i ∈ index, isVar = false → ¬ Appends config.isspace i)
    (hz : EveryKey (fun k => ¬ Appends config.isspace (keyText k)) (shape z)) :
    Held config.isspace isVar (plainVar index z t) := by
  cases index with
  | none =>
    rw [Main.plainVar]
    cases ht' : t.nextIndexInsert z with
    | none => exact h
    | some t' => exact h.nextIndexInsert hz ht'
  | some i =>
    exact h.update (fun hVar => not_appends_symtableKey (hindex i rfl hVar)) hz

theorem Held.find {sub : Table} (h : Held config.isspace isVar t)
    (hfind : (t.find k).bind Zval.table = some sub) : Held config.isspace false sub := by
  obtain ⟨z, hz, htable⟩ := Option.bind_eq_some_iff.mp hfind
  rw [Table.find, Option.map_eq_some_iff] at hz
  obtain ⟨e, he, rfl⟩ := hz
  have hkeys := (h e (List.mem_of_find?_eq_some he)).2
  rw [held_iff]
  cases hsnd : e.2 with
  | array es next =>
    rw [hsnd] at htable hkeys
    cases htable
    exact hkeys
  | string val => cases (hsnd ▸ htable)
  | long lval => cases (hsnd ▸ htable)

theorem held_empty : Held config.isspace isVar {} := fun _ he => nomatch he

theorem Held.enter {index : Option (List UInt8)} {inside : Table → Table × Bool}
    (h : Held config.isspace isVar t)
    (hindex : ∀ i ∈ index, isVar = false → ¬ Appends config.isspace i)
    (hinside : ∀ sub, Held config.isspace false sub → Held config.isspace false (inside sub).1) :
    Held config.isspace isVar (enter index inside t).1 := by
  unfold Main.enter
  split
  · split
    · exact h
    · next t' ht' =>
      have ht' := h.nextIndexInsert (held_iff.mp held_empty) ht'
      exact ht'.update (fun _ => not_appends_index _) (held_iff.mp (hinside {} held_empty))
  · next i =>
    have hi := fun hVar => not_appends_symtableKey (hindex i rfl hVar)
    split
    · next symtable1 hfind =>
      exact h.update hi (held_iff.mp (hinside symtable1 (h.find hfind)))
    · exact h.update hi (held_iff.mp (hinside {} held_empty))

theorem held_walk {val : Zval}
    (hval : EveryKey (fun k => ¬ Appends config.isspace (keyText k)) (shape val)) (fuel : Nat)
    (nestLevel : Nat) (index : Option (List UInt8)) (isVar : Bool) (text : List UInt8) (t : Table)
    (h : Held config.isspace isVar t)
    (hindex : ∀ i ∈ index, isVar = false → ¬ Appends config.isspace i) :
    Held config.isspace isVar (walk config val fuel nestLevel index isVar text t).1 := by
  induction fuel generalizing nestLevel index isVar text t with
  | zero => exact h
  | succ fuel ih =>
    rw [walk]
    split
    · exact h
    · split
      · refine h.plainVar ?_ hval
        intro i hi hVar
        rw [hVar] at hi
        simp only [Bool.false_eq_true, if_false, Option.map_id'] at hi
        exact hindex i hi hVar
      · next next rest hread =>
        have hnext : ∀ i ∈ next, false = false → ¬ Appends config.isspace i := by
          rintro i hi -
          rw [Option.mem_def] at hi
          rw [hi] at hread
          exact not_appends_readIndex hread
        refine h.enter hindex fun sub hsub => ?_
        split
        · split
          · exact ih _ next false _ _ hsub hnext
          · exact hsub.plainVar hnext hval
        · exact hsub.plainVar hnext hval

theorem held_register (name strval : List UInt8) (h : Held config.isspace true t) :
    Held config.isspace true (phpRegisterVariableSafe config name strval t) := by
  have hval : EveryKey (fun k => ¬ Appends config.isspace (keyText k)) (shape (.string strval)) :=
    trivial
  rw [phpRegisterVariableSafe, phpRegisterVariableEx]
  dsimp only
  split
  · exact h
  · split
    · exact h.plainVar (fun _ _ hVar => by cases hVar) hval
    · next text _ =>
      have hwalk := held_walk hval (text.length + 1) 0 (some (varName name)) true text t h
        (fun _ _ hVar => by cases hVar)
      split
      · exact fun e he => hwalk e (mem_filter.mp he).1
      · exact hwalk

theorem held_registerAll (registered : List Registration) (h : Held config.isspace true t) :
    Held config.isspace true (registerAll config registered t) := by
  induction registered generalizing t with
  | nil => exact h
  | cons r registered ih => exact ih (held_register r.1 r.2 h)

end Keys

theorem not_appends_of_parseStr {config : Config} {maxInputVars : Nat} {text : List UInt8}
    {es : List (HashKey × Zval)}
    (heq : shapeOf (parseStr config maxInputVars text).elements = shapeOf es) :
    ∀ e ∈ es, EveryKey (fun k => ¬ Appends config.isspace (keyText k)) (shape e.2) := by
  intro e he
  have hheld : Held config.isspace true (parseStr config maxInputVars text) :=
    held_registerAll _ held_empty
  have hmem : (e.1, shape e.2) ∈ shapeOf es := by
    rw [shapeOf_eq_map]
    exact mem_map_of_mem (f := fun e => (e.1, shape e.2)) he
  rw [← heq, shapeOf_eq_map, mem_map] at hmem
  obtain ⟨e', he', hsame⟩ := hmem
  have hshape : shape e'.2 = shape e.2 := congrArg Prod.snd hsame
  exact hshape ▸ (hheld e' he').2

/-- Where no encoded path or leaf is too long, a parsed query string is the array that it was built
from exactly when no inner key of this array stands for an append. -/
theorem parse_str_undoes_http_build_query (config : Config) (maxInputVars : Nat) {ht : Table}
    (hregular : RegularElements ht.elements) (houter : ∀ e ∈ ht.elements, OuterKey e.1)
    (hinner : ∀ e ∈ ht.elements, EveryKey InnerKey (shape e.2))
    (hdepth : ∀ l ∈ leavesOf ht.elements, l.1.length ≤ config.maxInputNestingLevel + 1)
    (hcount : (leavesOf ht.elements).length ≤ maxInputVars)
    (hfits : elementsFit [] [] ht.elements = true) :
    ((httpBuildQuery [ch '&'] ht).map fun text =>
        shapeOf (parseStr config maxInputVars text).elements) = some (shapeOf ht.elements) ↔
      ∀ e ∈ ht.elements, EveryKey (fun k => ¬ Appends config.isspace (keyText k)) (shape e.2) := by
  rw [httpBuildQuery, if_pos hfits, Option.map_some, Option.some.injEq]
  refine ⟨not_appends_of_parseStr, fun happends => ?_⟩
  rw [parseStr_eq hregular houter hinner hdepth hcount happends,
    rebuildElements {} ht.elements hregular (by simp)]
  rfl

/-- `array('a' => array('x y' => '1', 7 => '&'), 3 => '')` -/
theorem parse_str_undoes_http_build_query_nested :
    ((httpBuildQuery [ch '&'] ⟨[(.str [ch 'a'], .array [(.str [ch 'x', ch ' ', ch 'y'],
        .string [ch '1']), (.index 7, .string [ch '&'])] 8), (.index 3, .string [])], 4⟩).map
        fun text => shapeOf (parseStr blankOnly 1000 text).elements) =
      some (shapeOf [(.str [ch 'a'], .array [(.str [ch 'x', ch ' ', ch 'y'], .string [ch '1']),
        (.index 7, .string [ch '&'])] 8), (.index 3, .string [])]) := by
  -- what is asked of the keys
  have hkeys : ∀ k ∈ [HashKey.str [ch 'a'], .str [ch 'x', ch ' ', ch 'y'], .index 7, .index 3],
      symtableKey (keyText k) = k ∧ keyText k ≠ [] ∧ ch ']' ∉ keyText k ∧ ch '[' ∉ keyText k ∧
        ch '.' ∉ keyText k ∧ 0 ∉ keyText k ∧ keyText k ≠ [ch ' '] := by decide +kernel
  have hinner : ∀ k ∈ [HashKey.str [ch 'a'], .str [ch 'x', ch ' ', ch 'y'], .index 7, .index 3],
      InnerKey k ∧ ¬ Appends blankOnly.isspace (keyText k) := by
    intro k hk
    obtain ⟨-, hne, hbracket, -, -, hnul, hblank⟩ := hkeys k hk
    refine ⟨⟨hbracket, hnul⟩, ?_⟩
    rintro (hnil | ⟨c, hc, hspace⟩)
    · exact hne hnil
    · exact hblank (of_decide_eq_true hspace ▸ hc)
  have houter : ∀ k ∈ [HashKey.str [ch 'a'], .index 3], OuterKey k := by
    intro k hk
    have hspace : ∀ k ∈ [HashKey.str [ch 'a'], .index 3], ch ' ' ∉ keyText k := by decide +kernel
    obtain ⟨-, hne, -, hbracket, hpoint, hnul, -⟩ := hkeys k (by simp at hk ⊢; tauto)
    exact ⟨hne, hspace k hk, hpoint, hbracket, hnul⟩
  apply (parse_str_undoes_http_build_query blankOnly 1000 ?_ ?_ ?_ ?_ ?_ (by decide +kernel)).mpr
  · simp [shape, shapeOf, EveryKey, EveryKeyOf, hinner]
  · simp [RegularElements, Regular, Canonical, hkeys]
  · simp [houter]
  · simp [shape, shapeOf, EveryKey, EveryKeyOf, hinner]
  · simp [leavesOf, leaves, blankOnly]
  · simp [leavesOf, leaves]

/-- `array('a' => array('' => '1'))` comes back as `array('a' => array(0 => '1'))`. -/
theorem parse_str_takes_empty_key_for_append :
    phpUrlEncodeHashEx [ch '&'] ⟨[(.str [ch 'a'], .array [(.str [], .string [ch '1'])] 0)], 0⟩ =
      [97, 37, 53, 66, 37, 53, 68, 61, 49] ∧
    shapeOf (parseStr blankOnly 1000 [97, 37, 53, 66, 37, 53, 68, 61, 49]).elements =
      shapeOf [(.str [ch 'a'], .array [(.index 0, .string [ch '1'])] 1)] ∧
    shapeOf (parseStr blankOnly 1000 [97, 37, 53, 66, 37, 53, 68, 61, 49]).elements ≠
      shapeOf [(.str [ch 'a'], .array [(.str [], .string [ch '1'])] 0)] := by
  refine ⟨by decide +kernel, rfl, ?_⟩
  intro heq
  have h := not_appends_of_parseStr heq _ (List.mem_singleton_self _)
  exact h.1.1 (.inl rfl)

end Php53.Main
