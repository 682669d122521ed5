import Php53.Main.FormFields

/-!
# VariablePath — where the registrar writes

The registrar reads a name as a path of keys and appends, and puts the value at the end of it.  A
bracket that is never closed adds nothing to the path, except behind the variable itself.
-/

namespace Php53.Main

open Zend List

variable {isspace : UInt8 → Bool} {base index : List UInt8}

namespace Table

variable {t : Table} {k : HashKey} {x y z : Zval}

theorem store_store (es : List (HashKey × Zval)) : store k x (store k y es) = store k x es := by
  induction es with
  | nil => simp [store]
  | cons e es ih =>
    by_cases he : e.1 = k
    · rw [store, if_pos he, store, if_pos rfl, store, if_pos he]
    · rw [store, if_neg he, store, if_neg he, ih, store, if_neg he]

theorem assign_update : (t.update k y).assign k x = t.update k x := by
  rw [update, assign, store_store]
  rfl

theorem find_update_self : (t.update k x).find k = some x := by
  rw [find, update]
  dsimp only
  induction t.elements with
  | nil => rw [store, List.find?_cons_of_pos (by simp)]; rfl
  | cons e es ih =>
    by_cases he : e.1 = k
    · rw [store, if_pos he, List.find?_cons_of_pos (by simp)]
      rfl
    · rw [store, if_neg he, List.find?_cons_of_neg (by simpa using he), ih]

theorem store_of_notMem {es : List (HashKey × Zval)} (h : ∀ e ∈ es, e.1 ≠ k) :
    store k x es = es ++ [(k, x)] := by
  induction es with
  | nil => rfl
  | cons e es ih =>
    rw [store, if_neg (h e mem_cons_self), ih fun e he => h e (mem_cons_of_mem _ he)]
    rfl

theorem find_of_notMem (h : ∀ e ∈ t.elements, e.1 ≠ k) : t.find k = none := by
  rw [find, Option.map_eq_none_iff, List.find?_eq_none]
  intro e he
  simpa using h e he

theorem filter_store (es : List (HashKey × Zval)) :
    (store k x es).filter (fun e => e.1 ≠ k) = es.filter fun e => e.1 ≠ k := by
  induction es with
  | nil => rw [store, filter_cons_of_neg (by simp)]
  | cons e es ih =>
    by_cases he : e.1 = k
    · rw [store, if_pos he, filter_cons_of_neg (by simp), filter_cons_of_neg (by simpa using he)]
    · rw [store, if_neg he, filter_cons_of_pos (by simpa using he),
        filter_cons_of_pos (by simpa using he), ih]

theorem find_update_of_ne {k' : HashKey} (h : k' ≠ k) : (t.update k x).find k' = t.find k' := by
  rw [find, find, update]
  dsimp only
  induction t.elements with
  | nil => rw [store, List.find?_cons_of_neg (by simpa using Ne.symm h)]
  | cons e es ih =>
    by_cases he : e.1 = k
    · rw [store, if_pos he, List.find?_cons_of_neg (by simpa using Ne.symm h),
        List.find?_cons_of_neg (by simpa [he] using Ne.symm h)]
    · rw [store, if_neg he]
      by_cases he' : e.1 = k'
      · rw [List.find?_cons_of_pos (by simpa using he'), List.find?_cons_of_pos (by simpa using he')]
      · rw [List.find?_cons_of_neg (by simpa using he'), List.find?_cons_of_neg (by simpa using he'),
          ih]

theorem assign_self {sub : Table} (h : (t.find k).bind Zval.table = some sub) :
    t.assign k sub.zval = t := by
  obtain ⟨z, hz, htable⟩ := Option.bind_eq_some_iff.mp h
  have hsub : sub.zval = z := by
    cases z with
    | array elements next =>
      cases htable
      rfl
    | string val => exact nomatch htable
    | long lval => exact nomatch htable
  have hstore : ∀ es : List (HashKey × Zval),
      (es.find? fun e => e.1 = k).map (·.2) = some z → store k z es = es := by
    intro es hes
    induction es with
    | nil => exact absurd hes (by simp)
    | cons e es ih =>
      by_cases he : e.1 = k
      · rw [List.find?_cons_of_pos (by simpa using he)] at hes
        cases hes
        rw [store, if_pos he, ← he]
      · rw [List.find?_cons_of_neg (by simpa using he)] at hes
        rw [store, if_neg he, ih hes]
  rw [assign, hsub, hstore t.elements hz]

theorem mem_store {es : List (HashKey × Zval)} {e : HashKey × Zval} (h : e ∈ store k x es) :
    e = (k, x) ∨ e ∈ es := by
  induction es with
  | nil => exact .inl (mem_singleton.mp h)
  | cons e' es ih =>
    rw [store] at h
    split at h
    · rcases mem_cons.mp h with h | h
      · exact .inl h
      · exact .inr (mem_cons_of_mem _ h)
    · rcases mem_cons.mp h with rfl | h
      · exact .inr mem_cons_self
      · exact (ih h).imp_right (mem_cons_of_mem _)

end Table

/-- A value at the end of a path, where `none` stands for an append, with the arrays on the way. -/
def put : List (Option HashKey) → Zval → Table → Table
  | [], _, t => t
  | [some k], val, t => t.update k val
  | [none], val, t => (t.nextIndexInsert val).getD t
  | some k :: o :: p, val, t =>
    match (t.find k).bind Zval.table with
    | some sub => t.assign k (put (o :: p) val sub).zval
    | none => t.update k (put (o :: p) val {}).zval
  | none :: o :: p, val, t =>
    match t.nextIndexInsert (Table.zval {}) with
    | some t' => t'.assign (.index t.nNextFreeElement) (put (o :: p) val {}).zval
    | none => t

def Appends (isspace : UInt8 → Bool) (index : List UInt8) : Prop :=
  index = [] ∨ ∃ c, index = [c] ∧ isspace c = true

def indexKey (isspace : UInt8 → Bool) (index : List UInt8) : Option HashKey :=
  if index.all isspace ∧ index.length ≤ 1 then none else some (symtableKey index)

theorem appends_iff :
    Appends isspace index ↔ index.all isspace = true ∧ index.length ≤ 1 := by
  rcases index with _ | ⟨c, _ | ⟨c', s⟩⟩
  · simp [Appends]
  · simp [Appends]
  · simp [Appends]

theorem indexKey_of_appends (h : Appends isspace index)
    : indexKey isspace index = none := if_pos (appends_iff.mp h)

theorem indexKey_of_not_appends (h : ¬ Appends isspace index)
    : indexKey isspace index = some (symtableKey index) :=
  if_neg fun hall => h (appends_iff.mpr hall)

/-- The indices that follow the first bracket, and the text behind a bracket that is not closed. -/
inductive Indices : List UInt8 → List (List UInt8) → Option (List UInt8) → Prop
  | opened {tail : List UInt8} (htail : ch ']' ∉ tail) : Indices tail [] (some tail)
  | last {index rest : List UInt8} (hindex : ch ']' ∉ index) (hrest : rest.head? ≠ some (ch '[')) :
    Indices (index ++ ch ']' :: rest) [index] none
  | next {index text : List UInt8} {indices : List (List UInt8)} {tail : Option (List UInt8)}
    (hindex : ch ']' ∉ index) (htext : Indices text indices tail) :
    Indices (index ++ ch ']' :: ch '[' :: text) (index :: indices) tail

def levels (indices : List (List UInt8)) (tail : Option (List UInt8)) : Nat :=
  indices.length + if tail.isSome then 1 else 0

/-- The path that the registrar reads a name as, and the text behind a bracket that is not closed. -/
inductive Reads (config : Config) (name : List UInt8) :
    List (Option HashKey) → Option (List UInt8) → Prop
  | plain (hvar : varName name ≠ []) (hbrackets : brackets name = []) :
    Reads config name [some (symtableKey (varName name))] none
  | opened {text : List UInt8} (hvar : varName name ≠ []) (hbrackets : brackets name = ch '[' :: text)
    (htext : ch ']' ∉ text) (hlevels : 1 ≤ config.maxInputNestingLevel) :
    Reads config name [some (symtableKey (varName name ++ ch '_' :: text))] (some text)
  | indexed {text index : List UInt8} {indices : List (List UInt8)} {tail : Option (List UInt8)}
    (hvar : varName name ≠ []) (hbrackets : brackets name = ch '[' :: text)
    (htext : Indices text (index :: indices) tail)
    (hlevels : levels (index :: indices) tail ≤ config.maxInputNestingLevel) :
    Reads config name (some (symtableKey (varName name)) ::
      (index :: indices).map (indexKey config.isspace)) tail

def joined (indices : List (List UInt8)) (tail : Option (List UInt8)) : List UInt8 :=
  (indices.flatMap fun index => ch '[' :: (index ++ [ch ']'])) ++
    tail.elim [] fun tail => ch '[' :: tail

theorem joined_cons (index : List UInt8) (indices : List (List UInt8)) :
    joined (index :: indices) none = ch '[' :: (index ++ ch ']' :: joined indices none) := by
  simp [joined]

theorem dropWhile_append_cons {p : UInt8 → Bool} {c : UInt8} (hc : ¬ p c = true)
    (s rest : List UInt8) : (s ++ c :: rest).dropWhile p = s.dropWhile p ++ c :: rest := by
  induction s with
  | nil => exact dropWhile_cons_of_neg hc
  | cons x s ih =>
    by_cases hx : p x = true
    · rw [cons_append, dropWhile_cons_of_pos hx, dropWhile_cons_of_pos hx, ih]
    · rw [cons_append, dropWhile_cons_of_neg hx, dropWhile_cons_of_neg hx]
      rfl

theorem varName_joined (hbase : ch '[' ∉ base) (indices : List (List UInt8)) :
    varName (base ++ joined indices none) = varName base ∧
      brackets (base ++ joined indices none) = joined indices none := by
  have hall : ∀ c ∈ skipBlanks base, decide (c ≠ ch '[') = true := by
    intro c hc
    exact decide_eq_true fun h => hbase (h ▸ (dropWhile_sublist _).subset hc)
  have hself : (skipBlanks base).takeWhile (· ≠ ch '[') = skipBlanks base :=
    takeWhile_eq_self_iff.mpr hall
  cases indices with
  | nil =>
    have hnil : joined [] none = [] := rfl
    rw [hnil, append_nil, brackets]
    exact ⟨rfl, dropWhile_eq_nil_iff.mpr hall⟩
  | cons index indices =>
    have hskip : skipBlanks (base ++ joined (index :: indices) none) =
        skipBlanks base ++ joined (index :: indices) none := by
      rw [joined_cons]
      exact dropWhile_append_cons (by decide) base _
    rw [varName, brackets, hskip, varName, hself, joined_cons,
      takeWhile_append_cons hall (by simp), dropWhile_append_of_pos hall,
      dropWhile_cons_of_neg (by simp)]
    exact ⟨rfl, rfl⟩

/-- A variable that the registrar does not change. -/
structure PlainVar (base : List UInt8) : Prop where
  space : ch ' ' ∉ base
  point : ch '.' ∉ base
  bracket : ch '[' ∉ base

theorem PlainVar.varName_eq (h : PlainVar base) : varName base = base := by
  have hskip : skipBlanks base = base := by
    cases base with
    | nil => rfl
    | cons c base =>
      have hc : c ≠ ch ' ' := fun hc => h.space (hc ▸ mem_cons_self)
      exact dropWhile_cons_of_neg (by simpa using hc)
  have hall : ∀ c ∈ base, decide (c ≠ ch '[') = true := by
    intro c hc
    exact decide_eq_true fun heq => h.bracket (heq ▸ hc)
  have hmap : ∀ c ∈ base, (if c = ch ' ' ∨ c = ch '.' then ch '_' else c) = id c := by
    intro c hc
    rw [if_neg, id]
    rintro (rfl | rfl)
    · exact h.space hc
    · exact h.point hc
  rw [varName, hskip, takeWhile_eq_self_iff.mpr hall, map_congr_left hmap, map_id]

theorem plainVar_varName (hbase : ch '[' ∉ base) : PlainVar (varName base) := by
  have hmem : ∀ c ∈ varName base, c = ch '_' ∨ (c ∈ base ∧ c ≠ ch ' ' ∧ c ≠ ch '.') := by
    intro c hc
    obtain ⟨x, hx, rfl⟩ := mem_map.mp hc
    have hx : x ∈ base := (dropWhile_sublist _).subset ((takeWhile_sublist _).subset hx)
    split
    · exact .inl rfl
    · next hne => exact .inr ⟨hx, not_or.mp hne⟩
  constructor
  · intro h
    rcases hmem _ h with heq | hmem
    · exact absurd heq (by decide)
    · exact hmem.2.1 rfl
  · intro h
    rcases hmem _ h with heq | hmem
    · exact absurd heq (by decide)
    · exact hmem.2.2 rfl
  · intro h
    rcases hmem _ h with heq | hmem
    · exact absurd heq (by decide)
    · exact hbase hmem.1

theorem indices_joined {indices : List (List UInt8)} (hindex : ch ']' ∉ index)
    (h : ∀ i ∈ indices, ch ']' ∉ i) :
    Indices (index ++ ch ']' :: joined indices none) (index :: indices) none := by
  induction indices generalizing index with
  | nil => exact .last hindex (by simp [joined])
  | cons i indices ih =>
    rw [joined_cons]
    exact .next hindex (ih (h i mem_cons_self) fun j hj => h j (mem_cons_of_mem _ hj))

theorem reads_joined {config : Config} {indices : List (List UInt8)} (hbase : PlainVar base)
    (hne : base ≠ []) (h : ∀ i ∈ indices, ch ']' ∉ i)
    (hlevels : indices.length ≤ config.maxInputNestingLevel) :
    Reads config (base ++ joined indices none)
      (some (symtableKey base) :: indices.map (indexKey config.isspace)) none := by
  obtain ⟨hvar, hbrackets⟩ := varName_joined hbase.bracket indices
  rw [hbase.varName_eq] at hvar
  have hvarNe : varName (base ++ joined indices none) ≠ [] := by
    rw [hvar]
    exact hne
  cases indices with
  | nil =>
    have hreads : Reads config (base ++ joined [] none) _ none := .plain hvarNe hbrackets
    rw [hvar] at hreads
    exact hreads
  | cons index indices =>
    have hreads := @Reads.indexed config _ _ _ _ _ hvarNe (hbrackets.trans (joined_cons _ _))
      (indices_joined (h index mem_cons_self) fun i hi => h i (mem_cons_of_mem _ hi))
      hlevels
    rw [hvar] at hreads
    exact hreads

section Walk

variable {config : Config} {val : Zval}

variable {index text : List UInt8} {inside : Table → Table × Bool} {indices : List (List UInt8)}
  {tail : Option (List UInt8)} {fuel nestLevel : Nat}

theorem span_closed {s : List UInt8} (hs : ch ']' ∉ s) (rest : List UInt8) :
    (s ++ ch ']' :: rest).takeWhile (· ≠ ch ']') = s ∧
      (s ++ ch ']' :: rest).dropWhile (· ≠ ch ']') = ch ']' :: rest := by
  have hall : ∀ c ∈ s, decide (c ≠ ch ']') = true := by
    intro c hc
    exact decide_eq_true fun h => hs (h ▸ hc)
  rw [dropWhile_append_of_pos hall, dropWhile_cons_of_neg (by simp)]
  exact ⟨takeWhile_append_cons hall (by simp) rest, rfl⟩

theorem readIndex_eq {isspace : UInt8 → Bool} (hindex : ch ']' ∉ index)
    (happends : ¬ Appends isspace index) (rest : List UInt8) :
    readIndex isspace (index ++ ch ']' :: rest) = some (some index, rest) := by
  cases index with
  | nil => exact absurd (.inl rfl) happends
  | cons c s =>
    have hbehind := hindex
    rw [mem_cons, not_or] at hbehind
    rw [readIndex]
    by_cases hc : isspace c = true
    · obtain ⟨x, s, rfl⟩ : ∃ x xs, s = x :: xs := by
        apply exists_cons_of_ne_nil
        rintro rfl
        exact happends (.inr ⟨c, rfl, hc⟩)
      obtain ⟨htake, hdrop⟩ := span_closed hbehind.2 rest
      have hx : x ≠ ch ']' := fun h => hbehind.2 (h ▸ mem_cons_self)
      simp only [cons_append, List.head?_cons, Option.any_some, hc, if_true, take_succ_cons,
        take_zero, length_cons, length_nil, drop_succ_cons, drop_zero] at htake hdrop ⊢
      rw [if_neg fun h => hx (Option.some.inj h), hdrop, htake]
      rfl
    · obtain ⟨htake, hdrop⟩ := span_closed hindex rest
      simp only [cons_append, List.head?_cons, Option.any_some, hc, Bool.false_eq_true, if_false,
        take_zero, length_nil, drop_zero] at htake hdrop ⊢
      rw [if_neg fun h => hbehind.1 (Option.some.inj h).symm, hdrop, htake]
      rfl

theorem readIndex_append (happends : Appends config.isspace index) (rest : List UInt8) :
    readIndex config.isspace (index ++ ch ']' :: rest) = some (none, rest) := by
  rw [readIndex]
  rcases happends with rfl | ⟨c, rfl, hc⟩
  · have hclose : config.isspace (ch ']') = false := config.isspace_printing _ (by decide) (by decide)
    rw [nil_append, List.head?_cons, Option.any_some, hclose]
    rfl
  · rw [cons_append, List.head?_cons, Option.any_some, hc]
    rfl

theorem readIndex_opened {isspace : UInt8 → Bool} (htext : ch ']' ∉ text) :
    readIndex isspace text = none := by
  have hnone : ∀ n, ((text.drop n).head? ≠ some (ch ']')) ∧
      (text.drop n).dropWhile (· ≠ ch ']') = [] := by
    intro n
    constructor
    · intro h
      exact htext (mem_of_mem_drop (mem_of_head? h))
    · rw [dropWhile_eq_nil_iff]
      intro c hc
      exact decide_eq_true fun h => htext (h ▸ mem_of_mem_drop hc)
  rw [readIndex, if_neg (hnone _).1, (hnone _).2]

theorem readIndex_indexKey (hindex : ch ']' ∉ index) (rest : List UInt8) :
    ∃ next, readIndex config.isspace (index ++ ch ']' :: rest) = some (next, rest) ∧
      indexKey config.isspace index = next.map symtableKey := by
  by_cases happends : Appends config.isspace index
  · exact ⟨none, readIndex_append happends rest, indexKey_of_appends happends⟩
  · exact ⟨some index, readIndex_eq hindex happends rest, indexKey_of_not_appends happends⟩

theorem plainVar_eq_put (index : Option (List UInt8)) (t : Table) :
    plainVar index val t = put [index.map symtableKey] val t := by
  cases index with
  | none => rfl
  | some index => rfl

theorem enter_eq_put {o : Option HashKey} {p : List (Option HashKey)} {index : Option (List UInt8)}
    (hinside : ∀ t, inside t = (put (o :: p) val t, false)) (t : Table) :
    enter index inside t = (put (index.map symtableKey :: o :: p) val t, false) := by
  cases index with
  | none =>
    rw [enter, Option.map_none, put, hinside]
    dsimp only
    cases t.nextIndexInsert (Table.zval {}) with
    | none => rfl
    | some t' => rfl
  | some index =>
    rw [enter, Option.map_some, put]
    dsimp only
    cases (t.find (symtableKey index)).bind Zval.table with
    | none => dsimp only; rw [hinside]
    | some sub => dsimp only; rw [hinside]

theorem levels_cons (i : List UInt8) : levels (i :: indices) tail = levels indices tail + 1 := by
  rw [levels, levels, length_cons]
  omega

-- One round of the loop, for an index that another one follows.
theorem walk_next (val : Zval) {i : List UInt8} (hindex : ch ']' ∉ i) (text : List UInt8)
    (hlevel : ¬ nestLevel + 1 > config.maxInputNestingLevel) (fuel : Nat)
    (index : Option (List UInt8)) (isVar : Bool) (t : Table) :
    ∃ next, indexKey config.isspace i = next.map symtableKey ∧
      walk config val (fuel + 1) nestLevel index isVar (i ++ ch ']' :: ch '[' :: text) t =
        enter index (walk config val fuel (nestLevel + 1) next false text) t := by
  obtain ⟨next, hread, hkey⟩ := @readIndex_indexKey config i hindex (ch '[' :: text)
  refine ⟨next, hkey, ?_⟩
  rw [walk, if_neg hlevel, hread]
  exact congrArg (enter index · t) (funext fun _ => if_pos rfl)

theorem walk_eq_put (htext : Indices text indices tail) (index : Option (List UInt8)) {isVar : Bool}
    (t : Table) (hVar : isVar = true → indices ≠ []) (hfuel : text.length < fuel)
    (hlevels : nestLevel + levels indices tail ≤ config.maxInputNestingLevel) :
    walk config val fuel nestLevel index isVar text t =
      (put (index.map symtableKey :: indices.map (indexKey config.isspace)) val t, false) := by
  induction htext generalizing fuel nestLevel index isVar t with
  | opened htail =>
    obtain ⟨fuel, rfl⟩ : ∃ f, fuel = f + 1 := ⟨fuel - 1, by omega⟩
    have hfalse : isVar = false := by
      cases isVar with
      | false => rfl
      | true => exact absurd rfl (hVar rfl)
    rw [walk, if_neg (by simp [levels] at hlevels; omega), readIndex_opened htail, hfalse]
    dsimp only
    simp only [Bool.false_eq_true, if_false, Option.map_id']
    rw [plainVar_eq_put]
    rfl
  | @last i rest hindex hrest =>
    obtain ⟨fuel, rfl⟩ : ∃ f, fuel = f + 1 := ⟨fuel - 1, by omega⟩
    obtain ⟨next, hread, hkey⟩ := @readIndex_indexKey config i hindex rest
    rw [walk, if_neg (by simp [levels] at hlevels; omega), hread]
    refine enter_eq_put (fun symtable1 => ?_) t
    -- nothing follows that opens another index
    rw [hkey, map_nil, ← plainVar_eq_put]
    cases rest with
    | nil => rfl
    | cons c rest => exact if_neg fun h => hrest (congrArg some h)
  | @next i text indices tail hindex htext ih =>
    obtain ⟨fuel, rfl⟩ : ∃ f, fuel = f + 1 := ⟨fuel - 1, by omega⟩
    rw [levels_cons] at hlevels
    rw [length_append, length_cons, length_cons] at hfuel
    have hlevel : ¬ nestLevel + 1 > config.maxInputNestingLevel := by omega
    obtain ⟨next, hkey, hwalk⟩ := walk_next val hindex text hlevel fuel index isVar t
    rw [hwalk]
    refine enter_eq_put (fun symtable1 => ?_) t
    rw [hkey]
    exact ih next symtable1 (fun h => nomatch h) (by omega) (by omega)

theorem phpRegisterVariableEx_eq_put {name : List UInt8} {p : List (Option HashKey)}
    (h : Reads config name p tail) (t : Table) :
    phpRegisterVariableEx config name val t = put p val t := by
  rw [phpRegisterVariableEx]
  cases h with
  | plain hvar hbrackets =>
    rw [if_neg hvar, hbrackets]
    rfl
  | @opened text hvar hbrackets htext hlevels =>
    have hwalk : walk config val (text.length + 1) 0 (some (varName name)) true text t =
        (put [some (symtableKey (varName name ++ ch '_' :: text))] val t, false) := by
      rw [walk, if_neg (by omega), readIndex_opened htext]
      rfl
    rw [if_neg hvar, hbrackets]
    dsimp only
    rw [hwalk]
    rfl
  | @indexed text index indices tail hvar hbrackets htext hlevels =>
    rw [if_neg hvar, hbrackets]
    dsimp only
    rw [walk_eq_put htext (some (varName name)) t (fun _ => cons_ne_nil _ _)
      (Nat.lt_succ_self _) (by omega)]
    rfl

theorem enter_fresh (hfresh : (inside {}).2 = true) (index : Option (List UInt8))
    : (enter index inside {}).2 = true := by
  cases index with
  | none => exact hfresh
  | some index => exact hfresh

theorem enter_givenUp (hfresh : (inside {}).2 = true)
    (hinside : ∀ t, (inside t).2 = true ∨ inside t = (t, false)) (index : Option (List UInt8))
    (t : Table) : (enter index inside t).2 = true ∨ enter index inside t = (t, false) := by
  cases index with
  | none =>
    rw [enter]
    cases t.nextIndexInsert (Table.zval {}) with
    | none => exact .inr rfl
    | some t' => exact .inl hfresh
  | some index =>
    rw [enter]
    dsimp only
    cases hsub : (t.find (symtableKey index)).bind Zval.table with
    | none => exact .inl hfresh
    | some sub =>
      rcases hinside sub with htrue | hsame
      · exact .inl htrue
      · dsimp only
        rw [hsame]
        exact .inr (by rw [Table.assign_self hsub])

theorem walk_fresh (htext : Indices text indices tail) (index : Option (List UInt8)) (isVar : Bool)
    (hfuel : text.length < fuel)
    (hlevels : config.maxInputNestingLevel < nestLevel + levels indices tail) :
    (walk config val fuel nestLevel index isVar text {}).2 = true := by
  obtain ⟨fuel, rfl⟩ : ∃ f, fuel = f + 1 := ⟨fuel - 1, by omega⟩
  by_cases hlevel : nestLevel + 1 > config.maxInputNestingLevel
  · rw [walk, if_pos hlevel]
  · induction htext generalizing fuel nestLevel index isVar with
    | opened htail =>
      simp only [levels, length_nil, Option.isSome_some, if_true] at hlevels
      omega
    | last hindex hrest =>
      simp [levels] at hlevels
      omega
    | @next i text indices tail hindex htext ih =>
      rw [levels_cons] at hlevels
      rw [length_append, length_cons, length_cons] at hfuel
      obtain ⟨fuel, rfl⟩ : ∃ f, fuel = f + 1 := ⟨fuel - 1, by omega⟩
      obtain ⟨next, -, hwalk⟩ := walk_next val hindex text hlevel (fuel + 1) index isVar {}
      rw [hwalk]
      apply enter_fresh
      by_cases hnext : nestLevel + 1 + 1 > config.maxInputNestingLevel
      · rw [walk, if_pos hnext]
      · exact ih next false (by omega) fuel (by omega) hnext

theorem walk_givenUp (htext : Indices text indices tail) (index : Option (List UInt8))
    (isVar : Bool) (t : Table) (hfuel : text.length < fuel)
    (hlevels : config.maxInputNestingLevel < nestLevel + levels indices tail) :
    (walk config val fuel nestLevel index isVar text t).2 = true ∨
      walk config val fuel nestLevel index isVar text t = (t, false) := by
  obtain ⟨fuel, rfl⟩ : ∃ f, fuel = f + 1 := ⟨fuel - 1, by omega⟩
  by_cases hlevel : nestLevel + 1 > config.maxInputNestingLevel
  · rw [walk, if_pos hlevel]
    exact .inl rfl
  · induction htext generalizing fuel nestLevel index isVar t with
    | opened htail =>
      simp only [levels, length_nil, Option.isSome_some, if_true] at hlevels
      omega
    | last hindex hrest =>
      simp [levels] at hlevels
      omega
    | @next i text indices tail hindex htext ih =>
      rw [levels_cons] at hlevels
      rw [length_append, length_cons, length_cons] at hfuel
      obtain ⟨fuel, rfl⟩ : ∃ f, fuel = f + 1 := ⟨fuel - 1, by omega⟩
      obtain ⟨next, -, hwalk⟩ := walk_next val hindex text hlevel (fuel + 1) index isVar t
      rw [hwalk]
      apply enter_givenUp
      · exact walk_fresh htext next false (by omega) (by omega)
      · intro sub
        by_cases hnext : nestLevel + 1 + 1 > config.maxInputNestingLevel
        · rw [walk, if_pos hnext]
          exact .inl rfl
        · exact ih next false sub (by omega) fuel (by omega) hnext

theorem enter_filter (index : List UInt8) (t : Table) :
    (enter (some index) inside t).1.elements.filter (fun e => e.1 ≠ symtableKey index) =
      t.elements.filter fun e => e.1 ≠ symtableKey index := by
  rw [enter]
  dsimp only
  cases (t.find (symtableKey index)).bind Zval.table with
  | none => exact Table.filter_store _
  | some sub => exact Table.filter_store _

theorem phpRegisterVariableEx_givenUp {name : List UInt8}
    (hbrackets : brackets name = ch '[' :: text) (htext : Indices text indices tail)
    (hindices : indices ≠ []) (hlevels : config.maxInputNestingLevel < levels indices tail)
    (t : Table) :
    phpRegisterVariableEx config name val t = t ∨
      (phpRegisterVariableEx config name val t).elements =
        t.elements.filter fun e => e.1 ≠ symtableKey (varName name) := by
  rw [phpRegisterVariableEx]
  dsimp only
  split
  · exact .inl rfl
  · rw [hbrackets]
    dsimp only
    -- the variable itself is only written below its key
    have hfilter : (walk config val (text.length + 1) 0 (some (varName name)) true text
        t).1.elements.filter (fun e => e.1 ≠ symtableKey (varName name)) =
          t.elements.filter fun e => e.1 ≠ symtableKey (varName name) := by
      rw [walk]
      split
      · rfl
      · cases htext with
        | opened => exact absurd rfl hindices
        | last hindex hrest =>
          obtain ⟨next, hread, -⟩ := @readIndex_indexKey config _ hindex _
          rw [hread]
          exact enter_filter _ t
        | next hindex htext =>
          obtain ⟨next, hread, -⟩ := @readIndex_indexKey config _ hindex _
          rw [hread]
          exact enter_filter _ t
    have hgivenUp : (walk config val (text.length + 1) 0 (some (varName name)) true text t).2 = true ∨
        walk config val (text.length + 1) 0 (some (varName name)) true text t = (t, false) :=
      walk_givenUp htext _ true t (Nat.lt_succ_self _) (by omega)
    rcases hgivenUp with htrue | hsame
    · rw [if_pos htrue]
      exact .inr hfilter
    · rw [hsame]
      exact .inl rfl

end Walk

end Php53.Main
