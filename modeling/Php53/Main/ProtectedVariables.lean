import Php53.Main.VariablePath

/-!
# ProtectedVariables — variables that no field of the form may write

The names of upload variables are kept in a normal form, and a field whose name has the same normal
form is not registered.  Names that the registrar reads as the same path have the same normal form if
they end alike; the array around a protected variable, and what is inside of it, are not protected.
-/

namespace Php53.Main

open Zend List

variable {text : List UInt8} {indices : List (List UInt8)}

def isBlank (c : UInt8) : Bool := c = ch ' ' ∨ c = 13 ∨ c = 10 ∨ c = 9

/-- `while (index)`: the text from `index` on, without the blanks in front of the indices and without
what follows the last one. -/
def normalizeIndices : Nat → List UInt8 → List UInt8
  | 0, _ => []
  | fuel + 1, s =>
    let index := s.dropWhile isBlank
    match index.dropWhile (· ≠ ch ']') with
    | [] => index
    | indexend :: s =>
      index.takeWhile (· ≠ ch ']') ++ indexend ::
        match s with
        | c :: index => if c = ch '[' then c :: normalizeIndices fuel index else []
        | [] => []

def normalizeProtectedVariable (varname : List UInt8) : List UInt8 :=
  let varname := varname.dropWhile (· = ch ' ')
  let front := (varname.takeWhile (· ≠ ch '[')).map fun p =>
    if p = ch ' ' ∨ p = ch '.' then ch '_' else p
  match varname.dropWhile (· ≠ ch '[') with
  | [] => front
  | p :: index => front ++ p :: normalizeIndices (index.length + 1) index

/-- `add_protected_variable`, which changes the name too. -/
def addProtectedVariable (varname : List UInt8) (protectedVariables : List (List UInt8)) :
    List UInt8 × List (List UInt8) :=
  let varname := normalizeProtectedVariable varname
  (varname, if varname ∈ protectedVariables then protectedVariables
    else varname :: protectedVariables)

/-- `is_protected_variable`, which changes the name too. -/
def isProtectedVariable (varname : List UInt8) (protectedVariables : List (List UInt8)) :
    List UInt8 × Bool :=
  let varname := normalizeProtectedVariable varname
  (varname, varname ∈ protectedVariables)

/-- `safe_php_register_variable_ex`.  It is the changed name that is registered. -/
def safePhpRegisterVariableEx (config : Config) (protectedVariables : List (List UInt8))
    (var : List UInt8) (val : Zval) (overrideProtection : Bool) (t : Table) : Table :=
  if overrideProtection then phpRegisterVariableEx config var val t
  else
    let (var, isProtected) := isProtectedVariable var protectedVariables
    if isProtected then t else phpRegisterVariableEx config var val t

def safePhpRegisterVariable (config : Config) (protectedVariables : List (List UInt8))
    (var strval : List UInt8) (overrideProtection : Bool) (t : Table) : Table :=
  if overrideProtection then phpRegisterVariableSafe config var strval t
  else
    let (var, isProtected) := isProtectedVariable var protectedVariables
    if isProtected then t else phpRegisterVariableSafe config var strval t

theorem mem_addProtectedVariable {varname w : List UInt8} {vars : List (List UInt8)} :
    w ∈ (addProtectedVariable varname vars).2 ↔
      w = normalizeProtectedVariable varname ∨ w ∈ vars := by
  rw [addProtectedVariable]
  dsimp only
  split
  · next h => exact ⟨.inr, fun hw => hw.elim (fun hw => hw ▸ h) id⟩
  · exact mem_cons

theorem isBlank_close : ¬ isBlank (ch ']') = true := by decide

theorem notMem_dropWhile {p : UInt8 → Bool} {c : UInt8} {s : List UInt8} (h : c ∉ s) :
    c ∉ s.dropWhile p := fun hc => h ((dropWhile_sublist p).subset hc)

theorem normalizeIndices_eq {tail : Option (List UInt8)} (h : Indices text indices tail)
    {fuel : Nat} (hfuel : text.length < fuel) :
    ch '[' :: normalizeIndices fuel text =
      joined (indices.map (dropWhile isBlank)) (tail.map (dropWhile isBlank)) := by
  induction h generalizing fuel with
  | @opened tail htail =>
    obtain ⟨fuel, rfl⟩ : ∃ f, fuel = f + 1 := ⟨fuel - 1, by omega⟩
    have hnone : (tail.dropWhile isBlank).dropWhile (· ≠ ch ']') = [] := by
      rw [dropWhile_eq_nil_iff]
      intro c hc
      exact decide_eq_true fun h => notMem_dropWhile htail (h ▸ hc)
    rw [normalizeIndices]
    rw [hnone]
    rfl
  | @last index rest hindex hrest =>
    obtain ⟨fuel, rfl⟩ : ∃ f, fuel = f + 1 := ⟨fuel - 1, by omega⟩
    obtain ⟨htake, hdrop⟩ := span_closed (notMem_dropWhile (p := isBlank) hindex) rest
    rw [normalizeIndices]
    rw [dropWhile_append_cons isBlank_close, hdrop, htake]
    -- what follows is no index
    cases rest with
    | nil => simp [joined]
    | cons c rest =>
      dsimp only
      rw [if_neg fun h => hrest (congrArg some h)]
      simp [joined]
  | @next index text indices tail hindex htext ih =>
    obtain ⟨fuel, rfl⟩ : ∃ f, fuel = f + 1 := ⟨fuel - 1, by omega⟩
    obtain ⟨htake, hdrop⟩ := span_closed (notMem_dropWhile (p := isBlank) hindex) (ch '[' :: text)
    rw [length_append, length_cons, length_cons] at hfuel
    rw [normalizeIndices]
    rw [dropWhile_append_cons isBlank_close, hdrop, htake]
    dsimp only
    rw [if_pos rfl, ih (by omega)]
    simp [joined]

theorem normalize_indexed {name : List UInt8} {tail : Option (List UInt8)}
    (hbrackets : brackets name = ch '[' :: text) (htext : Indices text indices tail) :
    normalizeProtectedVariable name = varName name ++
      joined (indices.map (dropWhile isBlank)) (tail.map (dropWhile isBlank)) := by
  rw [← normalizeIndices_eq htext (Nat.lt_succ_self _)]
  rw [brackets, skipBlanks] at hbrackets
  rw [normalizeProtectedVariable]
  rw [hbrackets]
  rfl

theorem normalize_plain {name : List UInt8} (hbrackets : brackets name = []) :
    normalizeProtectedVariable name = varName name := by
  rw [brackets, skipBlanks] at hbrackets
  rw [normalizeProtectedVariable]
  rw [hbrackets]
  rfl

theorem symtableKey_inj {s s' : List UInt8} (h : symtableKey s = symtableKey s') : s = s' := by
  rw [symtableKey, symtableKey] at h
  cases hs : handleNumeric s with
  | none =>
    cases hs' : handleNumeric s' with
    | none =>
      rw [hs, hs'] at h
      exact HashKey.str.inj h
    | some k' =>
      rw [hs, hs'] at h
      exact nomatch h
  | some k =>
    cases hs' : handleNumeric s' with
    | none =>
      rw [hs, hs'] at h
      exact nomatch h
    | some k' =>
      rw [hs, hs'] at h
      obtain rfl := HashKey.index.inj h
      exact (eq_printLong_of_handleNumeric hs).trans (eq_printLong_of_handleNumeric hs').symm

theorem indexKey_inj {isspace : UInt8 → Bool} {is js : List (List UInt8)}
    (h : is.map (indexKey isspace) = js.map (indexKey isspace))
    (hnone : none ∉ is.map (indexKey isspace)) : is = js := by
  induction is generalizing js with
  | nil => exact (map_eq_nil_iff.mp h.symm).symm
  | cons i is ih =>
    cases js with
    | nil => exact nomatch h
    | cons j js =>
      rw [map_cons, map_cons, List.cons.injEq] at h
      rw [map_cons, mem_cons, not_or] at hnone
      have hi : i = j := by
        have heq := h.1
        rw [indexKey] at heq hnone
        split at heq
        · next happends => exact absurd (if_pos happends).symm hnone.1
        · rw [indexKey] at heq
          split at heq
          · exact nomatch heq
          · exact symtableKey_inj (Option.some.inj heq)
      rw [hi, ih h.2 hnone.2]

variable {config : Config} {v w : List UInt8} {p q : List (Option HashKey)}
  {tail tail' : Option (List UInt8)}

theorem normalize_eq_of_reads (hv : Reads config v p tail) (hw : Reads config w p tail)
    (hnone : none ∉ p) : normalizeProtectedVariable v = normalizeProtectedVariable w := by
  cases hv with
  | plain hvar hbrackets =>
    generalize hp : [some (symtableKey (varName v))] = p at hw
    cases hw with
    | plain hvar' hbrackets' =>
      rw [normalize_plain hbrackets, normalize_plain hbrackets']
      exact symtableKey_inj (Option.some.inj (List.cons.inj hp).1)
    | indexed => exact nomatch (List.cons.inj hp).2
  | @opened text hvar hbrackets htext hlevels =>
    generalize hp : [some (symtableKey (varName v ++ ch '_' :: text))] = p at hw
    generalize ho : some text = o at hw
    cases hw with
    | plain => exact nomatch ho
    | @opened text' hvar' hbrackets' htext' hlevels' =>
      obtain rfl := Option.some.inj ho
      have hvar := symtableKey_inj (Option.some.inj (List.cons.inj hp).1)
      rw [normalize_indexed hbrackets (.opened htext), normalize_indexed hbrackets' (.opened htext),
        append_cancel_right hvar]
    | indexed => exact nomatch (List.cons.inj hp).2
  | @indexed text index indices o hvar hbrackets htext hlevels =>
    generalize hp : some (symtableKey (varName v)) :: (index :: indices).map (indexKey config.isspace)
      = p at hw hnone
    cases hw with
    | plain => exact nomatch (List.cons.inj hp).2
    | opened => exact nomatch (List.cons.inj hp).2
    | @indexed text' index' indices' _ hvar' hbrackets' htext' hlevels' =>
      have hvar := symtableKey_inj (Option.some.inj (List.cons.inj hp).1)
      have hindices := indexKey_inj (List.cons.inj hp).2
        (by
          rw [(List.cons.inj hp).2]
          exact fun h => hnone (mem_cons_of_mem _ h))
      rw [normalize_indexed hbrackets htext, normalize_indexed hbrackets' htext', hvar, hindices]

theorem count_joined (h : ∀ index ∈ indices, ch ']' ∉ index) (htail : ∀ t ∈ tail, ch ']' ∉ t)
    : (joined indices tail).count (ch ']') = indices.length := by
  have hindices : (indices.flatMap fun index => ch '[' :: (index ++ [ch ']'])).count (ch ']') =
      indices.length := by
    induction indices with
    | nil => rfl
    | cons index indices ih =>
      have hindex := count_eq_zero_of_not_mem (h index mem_cons_self)
      rw [flatMap_cons, count_append, ih fun i hi => h i (mem_cons_of_mem _ hi),
        count_cons_of_ne (by decide), count_append, hindex, length_cons]
      simp [Nat.add_comm]
  rw [joined, count_append, hindices]
  cases tail with
  | none => rfl
  | some t =>
    rw [Option.elim_some, count_cons_of_ne (by decide),
      count_eq_zero_of_not_mem (htail t rfl), Nat.add_zero]

theorem Indices.notMem (h : Indices text indices tail) :
    (∀ index ∈ indices, ch ']' ∉ index) ∧ ∀ t ∈ tail, ch ']' ∉ t := by
  induction h with
  | opened htail =>
    constructor
    · intro i hi
      exact absurd hi not_mem_nil
    · rintro t ⟨⟩
      exact htail
  | last hindex hrest =>
    exact ⟨fun i hi => mem_singleton.mp hi ▸ hindex, fun _ h => nomatch h⟩
  | next hindex htext ih => exact ⟨forall_mem_cons.mpr ⟨hindex, ih.1⟩, ih.2⟩

theorem length_eq_of_reads (h : Reads config v p tail) :
    p.length =
      ((normalizeProtectedVariable v).dropWhile (· ≠ ch '[')).count (ch ']') + 1 := by
  have hvar : ∀ c ∈ varName v, decide (c ≠ ch '[') = true := by
    intro c hc
    obtain ⟨x, hx, rfl⟩ := mem_map.mp hc
    have hne := mem_takeWhile_imp hx
    split
    · decide
    · exact hne
  -- the variable itself has no bracket
  have hdrop : ∀ is (o : Option (List UInt8)),
      (varName v ++ joined is o).dropWhile (· ≠ ch '[') = joined is o := by
    intro is o
    rw [dropWhile_append_of_pos hvar]
    cases is with
    | nil =>
      cases o with
      | none => rfl
      | some t => exact dropWhile_cons_of_neg (by simp)
    | cons i is => exact dropWhile_cons_of_neg (by simp)
  have hcount : ∀ {text : List UInt8} {is : List (List UInt8)} {o : Option (List UInt8)},
      brackets v = ch '[' :: text → Indices text is o →
      ((normalizeProtectedVariable v).dropWhile (· ≠ ch '[')).count (ch ']') = is.length := by
    intro text is o hbrackets htext
    rw [normalize_indexed hbrackets htext, hdrop, count_joined, length_map]
    · intro i hi
      obtain ⟨x, hx, rfl⟩ := mem_map.mp hi
      exact notMem_dropWhile (htext.notMem.1 x hx)
    · intro t ht
      obtain ⟨x, hx, rfl⟩ := Option.mem_map.mp ht
      exact notMem_dropWhile (htext.notMem.2 x hx)
  cases h with
  | plain hvar hbrackets =>
    have hnil := hdrop [] none
    rw [show varName v ++ joined [] none = varName v from List.append_nil _] at hnil
    rw [normalize_plain hbrackets, hnil]
    rfl
  | opened hvar hbrackets htext hlevels => rw [hcount hbrackets (.opened htext)]; rfl
  | indexed hvar hbrackets htext hlevels =>
    rw [hcount hbrackets htext, length_cons, length_map]

/-- A name is refused when a protected one is read as the same path and ends alike; a name for a longer
or a shorter path is not. -/
theorem protected_variable_is_refused (hv : Reads config v p tail) (hw : Reads config w q tail')
    (strval : List UInt8) (t : Table) :
    (p = q → none ∉ p → tail = tail' → ∀ protectedVariables,
      safePhpRegisterVariable config (addProtectedVariable v protectedVariables).2 w strval false t =
        t) ∧
      (p.length ≠ q.length →
        safePhpRegisterVariable config (addProtectedVariable v []).2 w strval false t =
          phpRegisterVariableSafe config (normalizeProtectedVariable w) strval t) := by
  constructor
  · rintro rfl hnone rfl protectedVariables
    have hmem : normalizeProtectedVariable w ∈ (addProtectedVariable v protectedVariables).2 :=
      mem_addProtectedVariable.mpr (.inl (normalize_eq_of_reads hv hw hnone).symm)
    rw [safePhpRegisterVariable, isProtectedVariable]
    simp [hmem]
  · intro hlength
    have hmem : normalizeProtectedVariable w ∉ (addProtectedVariable v []).2 := by
      rw [mem_addProtectedVariable]
      rintro (hsame | hmem)
      · apply hlength
        rw [length_eq_of_reads hv, length_eq_of_reads hw, hsame]
      · exact List.not_mem_nil hmem
    rw [safePhpRegisterVariable, isProtectedVariable]
    simp [hmem]

/-- `a.b[1]`, with a blank in front, is protected, and `a_b[1]x` refused. -/
theorem protected_variable_is_refused_here :
    safePhpRegisterVariable blankOnly (addProtectedVariable [32, 97, 46, 98, 91, 49, 93] []).2
      [97, 95, 98, 91, 49, 93, 120] [50] false {} = {} := by
  have hv : Reads blankOnly [32, 97, 46, 98, 91, 49, 93] [some (.str [97, 95, 98]), some (.index 1)]
      none :=
    @Reads.indexed blankOnly _ [49, 93] [49] [] none (by decide +kernel) rfl
      (@Indices.last [49] [] (by decide) (by decide)) (by decide)
  have hw : Reads blankOnly [97, 95, 98, 91, 49, 93, 120]
      [some (.str [97, 95, 98]), some (.index 1)] none :=
    @Reads.indexed blankOnly _ [49, 93, 120] [49] [] none (by decide +kernel) rfl
      (@Indices.last [49] [120] (by decide) (by decide)) (by decide)
  exact (protected_variable_is_refused hv hw [50] {}).1 rfl (by decide) rfl []

/-- With `a[b]` protected, `a=1` is registered, in the place of the array of `a[b]`. -/
theorem protected_variable_is_lost :
    Reads blankOnly [97, 91, 98, 93] [some (.str [97]), some (.str [98])] none ∧
      Reads blankOnly [97] [some (.str [97])] none ∧
      safePhpRegisterVariable blankOnly (addProtectedVariable [97, 91, 98, 93] []).2 [97] [49] false
        ⟨[(.str [97], .array [(.str [98], .string [50])] 0)], 0⟩ =
        ⟨[(.str [97], .string [49])], 0⟩ := by
  refine ⟨?_, .plain (by decide +kernel) rfl, rfl⟩
  exact @Reads.indexed blankOnly _ [98, 93] [98] [] none (by decide +kernel) rfl
    (@Indices.last [98] [] (by decide) (by decide)) (by decide)

end Php53.Main
