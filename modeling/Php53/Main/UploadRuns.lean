import Php53.Main.Uploads

/-!
# UploadRuns — the files of every request

Whatever the parts are, a `tmp_name` holds temporary files of the request.  The attributes of a file
are put under one path as long as none of them is refused: their arrays have the same keys and the
same next index then, whatever the names of the files are.
-/

open Reasoning

namespace Php53.Main

open Zend List

/-- What a `tmp_name` may be. -/
def TmpName (uploadedFiles : List (List UInt8)) (z : Zval) : Prop :=
  z = .string [] ∨ ∃ path ∈ uploadedFiles, z = .string path

/-- All that can be reached through the `tmp_name` of an entry. -/
def TmpNamesOk (uploadedFiles : List (List UInt8)) (files : Table) : Prop :=
  ∀ e ∈ files.elements, ∀ sub, e.2.table = some sub →
    ∀ z, sub.find (.str tmpNameAttribute) = some z → EveryLeaf (TmpName uploadedFiles) z

section TmpNames

variable {uploadedFiles : List (List UInt8)} {t : Table} {config : Config}
  {param base attr : List UInt8} {indices : List (List UInt8)} {val : Zval}

theorem TmpNamesOk.mono {uploadedFiles' : List (List UInt8)} (h : TmpNamesOk uploadedFiles t)
    (hsub : uploadedFiles ⊆ uploadedFiles') : TmpNamesOk uploadedFiles' t := by
  intro e he sub hsub' z hz
  apply EveryLeaf.mono _ (h e he sub hsub' z hz)
  rintro z (hnil | ⟨path, hpath, hz⟩)
  · exact .inl hnil
  · exact .inr ⟨path, hsub hpath, hz⟩

theorem TmpNamesOk.put (h : TmpNamesOk uploadedFiles t) (k : HashKey) (p : List (Option HashKey))
    (hval : attr = tmpNameAttribute → EveryLeaf (TmpName uploadedFiles) val) :
    TmpNamesOk uploadedFiles (put (some k :: some (.str attr) :: p) val t) := by
  intro e he sub hsub z hz
  rw [put_elements] at he
  rcases Table.mem_store he with rfl | he
  · dsimp only [below] at hsub
    generalize hold : ((t.find k).bind Zval.table).getD {} = old at hsub
    cases hsub
    have hfind : (Main.put (some (.str attr) :: p) val old).find (.str tmpNameAttribute) = some z := hz
    -- what was there before, if there was anything
    have holdLeaf : ∀ z, old.find (.str tmpNameAttribute) = some z →
        EveryLeaf (TmpName uploadedFiles) z := by
      intro z hz
      cases hentry : t.find k with
      | none =>
        rw [hentry] at hold
        rw [← hold] at hz
        exact nomatch hz
      | some x =>
        rw [hentry] at hold
        cases htable : x.table with
        | none =>
          rw [Option.bind_some, htable] at hold
          rw [← hold] at hz
          exact nomatch hz
        | some sub =>
          rw [Option.bind_some, htable] at hold
          obtain rfl : sub = old := hold
          rw [Table.find, Option.map_eq_some_iff] at hentry
          obtain ⟨e, he, rfl⟩ := hentry
          exact h e (List.mem_of_find?_eq_some he) sub htable z hz
    by_cases hattr : attr = tmpNameAttribute
    · subst hattr
      rw [find_put_self] at hfind
      rw [← Option.some.inj hfind]
      exact everyLeaf_below p (hval rfl) holdLeaf
    · rw [find_put_of_ne fun heq => hattr (HashKey.str.inj heq).symm] at hfind
      exact holdLeaf z hfind
  · exact h e he sub hsub z hz

theorem TmpNamesOk.register (hname : FieldName param base indices)
    (h : TmpNamesOk uploadedFiles t) (hattr : attr ∈ attributes)
    (hval : attr = tmpNameAttribute → EveryLeaf (TmpName uploadedFiles) val) :
    TmpNamesOk uploadedFiles
      (phpRegisterVariableEx config (attributeForm base indices attr) val t) := by
  by_cases hplace : varName base = [] ∨ config.maxInputNestingLevel < indices.length + 1
  · rcases @register_attribute_givenUp _ _ _ config val _ hname hattr hplace t with hsame | hfilter
    · rw [hsame]
      exact h
    · intro e he
      rw [hfilter] at he
      exact h e (mem_filter.mp he).1
  · rw [not_or] at hplace
    rw [register_attribute hname hattr hplace.1 (by omega)]
    exact h.put _ _ hval

theorem TmpNamesOk.registerAttribute (hname : FieldName param base indices)
    (h : TmpNamesOk uploadedFiles t) (hattr : attr ∈ attributes) (hne : attr ≠ tmpNameAttribute)
    (protectedVariables : List (List UInt8)) :
    TmpNamesOk uploadedFiles
      (registerAttribute config protectedVariables base indices attr val t) := by
  rw [Main.registerAttribute]
  split
  · exact h
  · exact h.register hname hattr fun heq => absurd heq hne

theorem TmpNamesOk.registerFile {file : FileEntry} {s : Handler}
    (hparam : bracketsClosed 0 param = true) (h : TmpNamesOk uploadedFiles s.httpPostFiles)
    (hfile : TmpName uploadedFiles (.string file.tmpName)) :
    TmpNamesOk uploadedFiles (registerFile config param file s).httpPostFiles := by
  obtain ⟨base, indices, hname⟩ := exists_fieldName hparam
  rw [registerFile_eq hname]
  apply TmpNamesOk.registerAttribute hname _ (by decide) (by decide)
  apply TmpNamesOk.registerAttribute hname _ (by decide) (by decide)
  apply TmpNamesOk.register hname _ (by decide) fun _ => (show EveryLeaf _ (.string _) from hfile)
  apply TmpNamesOk.registerAttribute hname _ (by decide) (by decide)
  exact h.registerAttribute hname (by decide) (by decide) _

end TmpNames

def accepted (settings : Settings) (s : Handler) (part : Part) : Option (List UInt8 × List UInt8) :=
  part.filename.bind fun filename =>
    if (acceptFile settings part.param s).2.skipUpload then none
    else some ((acceptFile settings part.param s).1, filename)

def received (settings : Settings) (s : Handler) (part : Part) (filename : List UInt8) :
    Upload × Handler :=
  receiveFile filename part.upload (acceptFile settings part.param s).2

section Step

variable {settings : Settings} {s s' : Handler} {part : Part}

theorem step_cases (h : step settings s part = some s') :
    (accepted settings s part = none ∧ s'.httpPostFiles = s.httpPostFiles ∧
      s'.protectedVariables = s.protectedVariables ∧ s'.uploadedFiles = s.uploadedFiles) ∨
      ∃ param filename, accepted settings s part = some (param, filename) ∧
        s' = registerFile settings.config param
          (fileEntry filename part.contentType (received settings s part filename).1)
          (received settings s part filename).2 := by
  rw [step] at h
  rw [accepted]
  cases hfilename : part.filename with
  | none =>
    rw [hfilename] at h
    obtain ⟨param, -, rfl⟩ := Option.map_eq_some_iff.mp h
    exact .inl ⟨rfl, rfl, rfl, rfl⟩
  | some filename =>
    rw [hfilename] at h
    dsimp only at h
    rw [Option.bind_some]
    by_cases hskip : (acceptFile settings part.param s).2.skipUpload = true
    · rw [if_pos hskip] at h ⊢
      cases h
      exact .inl ⟨rfl, rfl, rfl, rfl⟩
    · rw [if_neg hskip] at h ⊢
      cases h
      exact .inr ⟨_, filename, rfl, rfl⟩

theorem bracketsClosed_of_accepted {param filename : List UInt8}
    (h : accepted settings s part = some (param, filename)) : bracketsClosed 0 param = true := by
  rw [accepted] at h
  obtain ⟨filename', -, h⟩ := Option.bind_eq_some_iff.mp h
  split at h
  · exact nomatch h
  · next hskip =>
    cases h
    unfold acceptFile at hskip ⊢
    simp only [Bool.or_eq_true, not_or] at hskip
    simpa using hskip.2

theorem received_spec (settings : Settings) (s : Handler) (part : Part) (filename : List UInt8) :
    (received settings s part filename).2.httpPostFiles = s.httpPostFiles ∧
      (received settings s part filename).2.protectedVariables = s.protectedVariables ∧
      s.uploadedFiles ⊆ (received settings s part filename).2.uploadedFiles ∧
      TmpName (received settings s part filename).2.uploadedFiles
        (.string (fileEntry filename part.contentType
          (received settings s part filename).1).tmpName) := by
  unfold received receiveFile
  by_cases hname : filename = []
  · rw [if_pos hname]
    exact ⟨rfl, rfl, List.Subset.refl _, .inl rfl⟩
  · rw [if_neg hname]
    refine ⟨rfl, rfl, ?_⟩
    dsimp only
    cases part.upload with
    | cancelled error => exact ⟨List.Subset.refl _, .inl rfl⟩
    | written tempFilename totalBytes =>
      dsimp only
      split
      · next hmem => exact ⟨List.Subset.refl _, .inr ⟨_, hmem, rfl⟩⟩
      · exact ⟨subset_cons_self _ _, .inr ⟨_, mem_cons_self, rfl⟩⟩

theorem TmpNamesOk.step (h : TmpNamesOk s.uploadedFiles s.httpPostFiles)
    (hstep : step settings s part = some s') : TmpNamesOk s'.uploadedFiles s'.httpPostFiles := by
  rcases step_cases hstep with ⟨-, hfiles, -, huploaded⟩ | ⟨param, filename, haccepted, rfl⟩
  · rw [hfiles, huploaded]
    exact h
  · obtain ⟨hfiles, -, hsub, htmp⟩ := received_spec settings s part filename
    apply TmpNamesOk.registerFile (bracketsClosed_of_accepted haccepted) _ htmp
    rw [hfiles]
    exact h.mono hsub

end Step

/-- A value without its leaves. -/
inductive Skeleton where
  | leaf
  | array (elements : List (HashKey × Skeleton)) (nNextFreeElement : BitVec 64)

mutual

def skeleton : Zval → Skeleton
  | .string _ => .leaf
  | .long _ => .leaf
  | .array es next => .array (skeletonOf es) next

def skeletonOf : List (HashKey × Zval) → List (HashKey × Skeleton)
  | [] => []
  | (k, z) :: es => (k, skeleton z) :: skeletonOf es

end

section Skeletons

variable {k : HashKey} {t t' : Table} {z z' : Zval}

theorem skeleton_zval_iff : skeleton t.zval = skeleton t'.zval ↔
    skeletonOf t.elements = skeletonOf t'.elements ∧ t.nNextFreeElement = t'.nNextFreeElement := by
  rw [Table.zval, Table.zval, skeleton, skeleton, Skeleton.array.injEq]

theorem skeletonOf_store {es es' : List (HashKey × Zval)} (h : skeletonOf es = skeletonOf es')
    (hz : skeleton z = skeleton z') :
    skeletonOf (Table.store k z es) = skeletonOf (Table.store k z' es') := by
  induction es generalizing es' with
  | nil =>
    cases es' with
    | nil => simp [Table.store, skeletonOf, hz]
    | cons e' es' => cases h
  | cons e es ih =>
    cases es' with
    | nil => cases h
    | cons e' es' =>
      obtain ⟨k₁, x⟩ := e
      obtain ⟨k₂, x'⟩ := e'
      rw [skeletonOf, skeletonOf, List.cons.injEq, Prod.mk.injEq] at h
      obtain ⟨⟨rfl, hx⟩, hes⟩ := h
      by_cases hk : k₁ = k
      · rw [Table.store, Table.store, if_pos hk, if_pos hk, skeletonOf, skeletonOf, hz, hes]
      · rw [Table.store, Table.store, if_neg hk, if_neg hk, skeletonOf, skeletonOf, hx, ih hes]

theorem find_skeleton (h : skeletonOf t.elements = skeletonOf t'.elements) :
    (t.find k).map skeleton = (t'.find k).map skeleton := by
  rw [Table.find, Table.find]
  generalize t.elements = es at h ⊢
  generalize t'.elements = es' at h ⊢
  induction es generalizing es' with
  | nil =>
    cases es' with
    | nil => rfl
    | cons e' es' => cases h
  | cons e es ih =>
    cases es' with
    | nil => cases h
    | cons e' es' =>
      obtain ⟨k₁, x⟩ := e
      obtain ⟨k₂, x'⟩ := e'
      rw [skeletonOf, skeletonOf, List.cons.injEq, Prod.mk.injEq] at h
      obtain ⟨⟨rfl, hx⟩, hes⟩ := h
      by_cases hk : k₁ = k
      · rw [List.find?_cons_of_pos (by simpa using hk), List.find?_cons_of_pos (by simpa using hk)]
        exact congrArg some hx
      · rw [List.find?_cons_of_neg (by simpa using hk), List.find?_cons_of_neg (by simpa using hk)]
        exact ih es' hes

theorem table_skeleton {x x' : Option Zval} (h : x.map skeleton = x'.map skeleton) :
    (x.bind Zval.table = none ∧ x'.bind Zval.table = none) ∨
      ∃ sub sub', x.bind Zval.table = some sub ∧ x'.bind Zval.table = some sub' ∧
        skeleton sub.zval = skeleton sub'.zval := by
  cases x with
  | none =>
    cases x' with
    | none => exact .inl ⟨rfl, rfl⟩
    | some z' => exact nomatch h
  | some z =>
    cases x' with
    | none => exact nomatch h
    | some z' =>
      have hz : skeleton z = skeleton z' := Option.some.inj h
      cases z with
      | array es next =>
        cases z' with
        | array es' next' => exact .inr ⟨⟨es, next⟩, ⟨es', next'⟩, rfl, rfl, hz⟩
        | string val => exact nomatch hz
        | long lval => exact nomatch hz
      | string val =>
        cases z' with
        | array es' next' => exact nomatch hz
        | string val => exact .inl ⟨rfl, rfl⟩
        | long lval => exact .inl ⟨rfl, rfl⟩
      | long lval =>
        cases z' with
        | array es' next' => exact nomatch hz
        | string val => exact .inl ⟨rfl, rfl⟩
        | long lval => exact .inl ⟨rfl, rfl⟩

section

variable (h : skeleton t.zval = skeleton t'.zval) (hz : skeleton z = skeleton z')

include h hz

theorem update_skeleton :
    skeleton (t.update k z).zval = skeleton (t'.update k z').zval := by
  rw [skeleton_zval_iff] at h ⊢
  exact ⟨skeletonOf_store h.1 hz, by rw [Table.update, Table.update, h.2]⟩

theorem assign_skeleton :
    skeleton (t.assign k z).zval = skeleton (t'.assign k z').zval := by
  rw [skeleton_zval_iff] at h ⊢
  exact ⟨skeletonOf_store h.1 hz, h.2⟩

theorem nextIndexInsert_skeleton :
    (t.nextIndexInsert z = none ∧ t'.nextIndexInsert z' = none) ∨
      ∃ u u', t.nextIndexInsert z = some u ∧ t'.nextIndexInsert z' = some u' ∧
        skeleton u.zval = skeleton u'.zval := by
  have hnext := (skeleton_zval_iff.mp h).2
  have hfind := congrArg Option.isSome
    (find_skeleton (k := .index t.nNextFreeElement) (skeleton_zval_iff.mp h).1)
  rw [Option.isSome_map, Option.isSome_map] at hfind
  rw [Table.nextIndexInsert, Table.nextIndexInsert, ← hnext, ← hfind]
  by_cases hfree : (t.find (.index t.nNextFreeElement)).isSome = true
  · rw [if_pos hfree, if_pos hfree]
    exact .inl ⟨rfl, rfl⟩
  · rw [if_neg hfree, if_neg hfree]
    exact .inr ⟨_, _, rfl, rfl, update_skeleton h hz⟩

end

theorem put_skeleton (p : List (Option HashKey)) (h : skeleton t.zval = skeleton t'.zval)
    (hz : skeleton z = skeleton z') : skeleton (put p z t).zval = skeleton (put p z' t').zval := by
  induction p generalizing t t' with
  | nil => exact h
  | cons o p ih =>
    have hempty : skeleton (put p z {}).zval = skeleton (put p z' {}).zval := ih rfl
    cases o with
    | some k =>
      cases p with
      | nil => exact update_skeleton h hz
      | cons o p =>
        have hfind := find_skeleton (k := k) (skeleton_zval_iff.mp h).1
        rw [put, put]
        rcases table_skeleton hfind with ⟨hnone, hnone'⟩ | ⟨sub, sub', hsub, hsub', hsame⟩
        · rw [hnone, hnone']
          exact update_skeleton h hempty
        · rw [hsub, hsub']
          exact assign_skeleton h (ih hsame)
    | none =>
      cases p with
      | nil =>
        rw [put, put]
        rcases nextIndexInsert_skeleton h hz with ⟨hnone, hnone'⟩ | ⟨u, u', hu, hu', hsame⟩
        · rw [hnone, hnone']
          exact h
        · rw [hu, hu']
          exact hsame
      | cons o p =>
        have hnew := @nextIndexInsert_skeleton t t' (Table.zval {}) (Table.zval {}) h rfl
        rw [put, put]
        rcases hnew with ⟨hnone, hnone'⟩ | ⟨u, u', hu, hu', hsame⟩
        · rw [hnone, hnone']
          exact h
        · rw [hu, hu', ← (skeleton_zval_iff.mp h).2]
          exact assign_skeleton hsame hempty

theorem below_skeleton (p : List (Option HashKey)) {x x' : Option Zval}
    (h : x.map skeleton = x'.map skeleton) (hz : skeleton z = skeleton z') :
    skeleton (below p z x) = skeleton (below p z' x') := by
  cases p with
  | nil => exact hz
  | cons o p =>
    rw [below, below]
    apply put_skeleton (o :: p) _ hz
    rcases table_skeleton h with ⟨hnone, hnone'⟩ | ⟨sub, sub', hsub, hsub', hsame⟩
    · rw [hnone, hnone']
    · rw [hsub, hsub']
      exact hsame

def resolve : List (Option HashKey) → Table → Option (List HashKey)
  | [], _ => some []
  | some k :: p, t => (resolve p (((t.find k).bind Zval.table).getD {})).map (k :: ·)
  | none :: p, t =>
    if (t.find (.index t.nNextFreeElement)).isSome then none
    else (resolve p {}).map (.index t.nNextFreeElement :: ·)

theorem resolve_skeleton (p : List (Option HashKey)) (h : skeleton t.zval = skeleton t'.zval) :
    resolve p t = resolve p t' := by
  induction p generalizing t t' with
  | nil => rfl
  | cons o p ih =>
    cases o with
    | some k =>
      rw [resolve, resolve]
      rcases table_skeleton (find_skeleton (k := k) (skeleton_zval_iff.mp h).1) with
        ⟨hnone, hnone'⟩ | ⟨sub, sub', hsub, hsub', hsame⟩
      · rw [hnone, hnone']
      · rw [hsub, hsub']
        exact congrArg _ (ih hsame)
    | none =>
      have hnext := (skeleton_zval_iff.mp h).2
      have hfind := congrArg Option.isSome
        (find_skeleton (k := .index t.nNextFreeElement) (skeleton_zval_iff.mp h).1)
      rw [Option.isSome_map, Option.isSome_map] at hfind
      rw [resolve, resolve, hfind, hnext]

theorem lookup_put (p : List (Option HashKey)) (hp : p ≠ []) {ks : List HashKey}
    (h : resolve p t = some ks) : lookup ks (put p z t).zval = some z := by
  have hfind : ∀ (u : Table) (k : HashKey) (ks : List HashKey),
      lookup (k :: ks) u.zval = (u.find k).bind (lookup ks) := fun _ _ _ => rfl
  induction p generalizing t ks with
  | nil => exact absurd rfl hp
  | cons o p ih =>
    cases o with
    | some k =>
      rw [resolve, Option.map_eq_some_iff] at h
      obtain ⟨ks, hks, rfl⟩ := h
      rw [hfind, find_put_self, Option.bind_some]
      cases p with
      | nil =>
        cases hks
        rfl
      | cons o p => exact ih (cons_ne_nil _ _) hks
    | none =>
      rw [resolve] at h
      split at h
      · exact nomatch h
      · next hfree =>
        rw [Option.map_eq_some_iff] at h
        obtain ⟨ks, hks, rfl⟩ := h
        cases p with
        | nil =>
          cases hks
          rw [put, Table.nextIndexInsert, if_neg hfree, Option.getD_some, hfind,
            Table.find_update_self]
          rfl
        | cons o p =>
          rw [put, Table.nextIndexInsert, if_neg hfree]
          dsimp only
          rw [Table.assign_update, hfind, Table.find_update_self]
          exact ih (cons_ne_nil _ _) hks

theorem lookup_below (p : List (Option HashKey)) {x : Option Zval} {ks : List HashKey}
    (h : resolve p ((x.bind Zval.table).getD {}) = some ks) :
    lookup ks (below p z x) = some z := by
  cases p with
  | nil =>
    cases h
    rfl
  | cons o p => exact lookup_put (o :: p) (cons_ne_nil _ _) h

end Skeletons

def Aligned (files : Table) : Prop :=
  ∀ e ∈ files.elements, ∃ name type tmpName error size next,
    e.2 = .array [(.str nameAttribute, name), (.str typeAttribute, type),
      (.str tmpNameAttribute, tmpName), (.str errorAttribute, error), (.str sizeAttribute, size)]
      next ∧
    skeleton name = skeleton tmpName ∧ skeleton type = skeleton tmpName ∧
      skeleton error = skeleton tmpName ∧ skeleton size = skeleton tmpName

def FileEntry.values (file : FileEntry) : List (List UInt8 × Zval) :=
  [(nameAttribute, .string file.name), (typeAttribute, .string file.type),
    (tmpNameAttribute, .string file.tmpName), (errorAttribute, .long file.error),
    (sizeAttribute, .long file.size)]

def putFile (k : HashKey) (p : List (Option HashKey)) (file : FileEntry) (t : Table) : Table :=
  file.values.foldl (fun t value => put (some k :: some (.str value.1) :: p) value.2 t) t

section Aligned

variable {k : HashKey} {p : List (Option HashKey)} {file : FileEntry} {t : Table}

theorem foldl_put_elements (values : List (List UInt8 × Zval)) {es : List (HashKey × Zval)}
    {sub : Table} (ht : t.elements = Table.store k sub.zval es) :
    (values.foldl (fun t value => put (some k :: some (.str value.1) :: p) value.2 t) t).elements =
      Table.store k
        (values.foldl (fun sub value => put (some (.str value.1) :: p) value.2 sub) sub).zval es := by
  induction values generalizing sub t with
  | nil => exact ht
  | cons value values ih =>
    have hfind : t.find k = some sub.zval := by
      have helements : t.elements = ((Table.mk es 0).update k sub.zval).elements := ht
      rw [Table.find_congr helements, Table.find_update_self]
    apply ih
    rw [put_elements, hfind, ht, Table.store_store]
    rfl

def entryArray (k : HashKey) (t : Table) : Table := ((t.find k).bind Zval.table).getD {}

theorem putFile_elements : (putFile k p file t).elements =
    Table.store k (file.values.foldl (fun sub value => put (some (.str value.1) :: p) value.2 sub)
      (entryArray k t)).zval t.elements := by
  rw [putFile, FileEntry.values, foldl_cons, foldl_put_elements _ (put_elements _ _ _ _),
    foldl_cons]
  rfl

theorem foldl_put_attributes (values : List (List UInt8 × Zval))
    (hnodup : (values.map (·.1)).Nodup) {sub old : Table}
    (h : ∀ value ∈ values, sub.find (.str value.1) = old.find (.str value.1)) :
    (∀ value ∈ values,
      (values.foldl (fun sub value => put (some (.str value.1) :: p) value.2 sub) sub).find
        (.str value.1) = some (below p value.2 (old.find (.str value.1)))) ∧
      (values.foldl (fun sub value => put (some (.str value.1) :: p) value.2 sub) sub).elements =
        values.foldl (fun es value =>
          Table.store (.str value.1) (below p value.2 (old.find (.str value.1))) es) sub.elements := by
  suffices hall : ∀ sub : Table, (∀ value ∈ values, sub.find (.str value.1) = old.find (.str value.1)) →
      (∀ value ∈ values,
        (values.foldl (fun sub value => put (some (.str value.1) :: p) value.2 sub) sub).find
          (.str value.1) = some (below p value.2 (old.find (.str value.1)))) ∧
      (∀ k, (∀ value ∈ values, k ≠ .str value.1) →
        (values.foldl (fun sub value => put (some (.str value.1) :: p) value.2 sub) sub).find k =
          sub.find k) ∧
      (values.foldl (fun sub value => put (some (.str value.1) :: p) value.2 sub) sub).elements =
        values.foldl (fun es value =>
          Table.store (.str value.1) (below p value.2 (old.find (.str value.1))) es) sub.elements from
    ⟨(hall sub h).1, (hall sub h).2.2⟩
  clear h
  induction values with
  | nil => exact fun sub _ => ⟨fun _ hv => absurd hv not_mem_nil, fun _ _ => rfl, rfl⟩
  | cons value values ih =>
    intro sub h
    rw [map_cons, nodup_cons] at hnodup
    have hother : ∀ v ∈ values, HashKey.str v.1 ≠ .str value.1 := by
      intro v hv heq
      exact hnodup.1 (HashKey.str.inj heq ▸ mem_map_of_mem hv)
    obtain ⟨hfound, hkept, helements⟩ := ih hnodup.2 (put (some (.str value.1) :: p) value.2 sub)
      (by
        intro v hv
        rw [find_put_of_ne (hother v hv), h v (mem_cons_of_mem _ hv)])
    have hvalue := h value mem_cons_self
    refine ⟨?_, ?_, ?_⟩
    · intro v hv
      rcases mem_cons.mp hv with rfl | hv
      · rw [foldl_cons, hkept _ fun v' hv' => Ne.symm (hother v' hv'), find_put_self, hvalue]
      · exact hfound v hv
    · intro k hk
      rw [foldl_cons, hkept k fun v hv => hk v (mem_cons_of_mem _ hv),
        find_put_of_ne (hk value mem_cons_self)]
    · rw [foldl_cons, helements, put_elements, hvalue, foldl_cons]

theorem values_nodup : (file.values.map (·.1)).Nodup := by
  have hattributes : file.values.map (·.1) = attributes := rfl
  rw [hattributes]
  decide

theorem Aligned.entryArray_cases (h : Aligned t) (k : HashKey) :
    (entryArray k t).elements = [] ∨ ∃ name type tmpName error size,
      (entryArray k t).elements = [(.str nameAttribute, name), (.str typeAttribute, type),
        (.str tmpNameAttribute, tmpName), (.str errorAttribute, error),
        (.str sizeAttribute, size)] ∧
      skeleton name = skeleton tmpName ∧ skeleton type = skeleton tmpName ∧
        skeleton error = skeleton tmpName ∧ skeleton size = skeleton tmpName := by
  cases hentry : t.find k with
  | none => exact .inl (by rw [entryArray, hentry]; rfl)
  | some z =>
    have hz := hentry
    rw [Table.find, Option.map_eq_some_iff] at hz
    obtain ⟨e, he, rfl⟩ := hz
    obtain ⟨name, type, tmpName, error, size, next, heq, hshape⟩ :=
      h e (List.mem_of_find?_eq_some he)
    rw [heq] at hentry
    exact .inr ⟨name, type, tmpName, error, size, by rw [entryArray, hentry]; rfl, hshape⟩

theorem Aligned.find_skeleton (h : Aligned t) (k : HashKey) :
    ∀ attr ∈ attributes, ((entryArray k t).find (.str attr)).map skeleton =
      ((entryArray k t).find (.str tmpNameAttribute)).map skeleton := by
  rcases h.entryArray_cases k with hnil | ⟨name, type, tmpName, error, size, heq, hshape⟩
  · intro attr _
    rw [Table.find, Table.find, hnil]
    rfl
  · have hfind : ∀ attr, (entryArray k t).find (.str attr) =
        (([(.str nameAttribute, name), (.str typeAttribute, type), (.str tmpNameAttribute, tmpName),
          (.str errorAttribute, error), (.str sizeAttribute, size)] :
            List (HashKey × Zval)).find? fun e => e.1 = .str attr).map (·.2) := by
      intro attr
      rw [Table.find, heq]
    intro attr hattr
    rw [hfind, hfind]
    simp only [attributes, mem_cons, not_mem_nil, or_false] at hattr
    rcases hattr with rfl | rfl | rfl | rfl | rfl
    · exact congrArg some hshape.1
    · exact congrArg some hshape.2.1
    · rfl
    · exact congrArg some hshape.2.2.1
    · exact congrArg some hshape.2.2.2

theorem Aligned.putFile (h : Aligned t) (k : HashKey) (p : List (Option HashKey))
    (file : FileEntry) : Aligned (putFile k p file t) := by
  have hshape := h.find_skeleton k
  intro e he
  rw [putFile_elements] at he
  rcases Table.mem_store he with rfl | he
  · generalize hold : entryArray k t = old at hshape
    have helements := (foldl_put_attributes (p := p) file.values values_nodup
      (fun value _ => (rfl : old.find (.str value.1) = old.find (.str value.1)))).2
    generalize file.values.foldl (fun sub value => put (some (.str value.1) :: p) value.2 sub) old =
      sub at helements ⊢
    refine ⟨below p (.string file.name) (old.find (.str nameAttribute)),
      below p (.string file.type) (old.find (.str typeAttribute)),
      below p (.string file.tmpName) (old.find (.str tmpNameAttribute)),
      below p (.long file.error) (old.find (.str errorAttribute)),
      below p (.long file.size) (old.find (.str sizeAttribute)), sub.nNextFreeElement, ?_, ?_⟩
    · rw [Table.zval, helements]
      rcases h.entryArray_cases k with hnil | ⟨name, type, tmpName, error, size, heq, -⟩
      · rw [← hold, hnil]
        rfl
      · rw [← hold, heq]
        rfl
    · refine ⟨?_, ?_, ?_, ?_⟩
      · exact below_skeleton p (hshape _ (by decide)) rfl
      · exact below_skeleton p (hshape _ (by decide)) rfl
      · exact below_skeleton p (hshape _ (by decide)) rfl
      · exact below_skeleton p (hshape _ (by decide)) rfl
  · exact h e he

theorem Aligned.lookup_putFile (h : Aligned t) {ks : List HashKey}
    (hks : resolve (some (.str nameAttribute) :: p) (entryArray k t) =
      some (.str nameAttribute :: ks)) :
    ∀ value ∈ file.values,
      lookup (k :: .str value.1 :: ks) (Main.putFile k p file t).zval = some value.2 := by
  have hshape := h.find_skeleton k
  rw [resolve, Option.map_eq_some_iff] at hks
  obtain ⟨ks', hks, hcons⟩ := hks
  rw [List.cons.injEq] at hcons
  rw [hcons.2] at hks
  intro value hvalue
  have helements : (Main.putFile k p file t).elements = (t.update k (file.values.foldl
      (fun sub value => put (some (.str value.1) :: p) value.2 sub) (entryArray k t)).zval).elements :=
    putFile_elements
  have hfind := Table.find_congr helements k
  rw [Table.find_update_self] at hfind
  have hvalueFind := (foldl_put_attributes (p := p) file.values values_nodup
    (fun value _ => (rfl : (entryArray k t).find (.str value.1) =
      (entryArray k t).find (.str value.1)))).1 value hvalue
  -- below the attribute is the same path for all of them
  have hsame : resolve p ((((entryArray k t).find (.str value.1)).bind Zval.table).getD {}) =
      some ks := by
    have hattr : value.1 ∈ attributes := mem_map_of_mem (f := (·.1)) hvalue
    have heq := (hshape value.1 hattr).trans (hshape nameAttribute (by decide)).symm
    rw [← hks]
    rcases table_skeleton heq with ⟨hnone, hnone'⟩ | ⟨sub, sub', hsub, hsub', hskeleton⟩
    · rw [hnone, hnone']
    · rw [hsub, hsub']
      exact resolve_skeleton p hskeleton
  have hlookup : lookup (k :: .str value.1 :: ks) (Main.putFile k p file t).zval =
      ((Main.putFile k p file t).find k).bind (lookup (.str value.1 :: ks)) := rfl
  rw [hlookup, hfind, Option.bind_some]
  generalize file.values.foldl (fun sub value => put (some (.str value.1) :: p) value.2 sub)
    (entryArray k t) = sub at hvalueFind ⊢
  have hsub : lookup (.str value.1 :: ks) sub.zval = (sub.find (.str value.1)).bind (lookup ks) := rfl
  rw [hsub, hvalueFind, Option.bind_some]
  exact lookup_below p hsame

end Aligned

section Registered

variable {config : Config} {param base : List UInt8} {indices : List (List UInt8)}

theorem attributeForm_inj {attr attr' : List UInt8}
    (h : attributeForm base indices attr = attributeForm base indices attr') : attr = attr' := by
  rw [attributeForm, attributeForm, joined_cons, joined_cons] at h
  exact append_cancel_right (List.cons.inj (append_cancel_left h)).2

theorem attributeForm_ne (h : FieldName param base indices) (attr : List UInt8) :
    attributeForm base indices attr ≠ normalizeProtectedVariable param := by
  intro heq
  rw [h.text, normalize_joined h.base h.closed, attributeForm, joined_cons] at heq
  have hlength := congrArg List.length (append_cancel_left heq)
  rw [length_cons, length_append, length_cons] at hlength
  omega

def AttributesFree (param : List UInt8) (protectedVariables : List (List UInt8)) : Prop :=
  ∀ attr ∈ attributes, attr ≠ tmpNameAttribute →
    normalizeProtectedVariable (attributeName (arrayUpload param) param attr) ∉ protectedVariables

/-- The registrar has a place for the attributes: there is a variable, there are not too many levels,
and every append finds an index. -/
def HasPlace (config : Config) (base : List UInt8) (indices : List (List UInt8)) (files : Table) :
    Prop :=
  varName base ≠ [] ∧ indices.length + 1 ≤ config.maxInputNestingLevel ∧
    (resolve (some (symtableKey (varName base)) :: some (.str nameAttribute) ::
      indexPath config indices) files).isSome = true

theorem registerAttribute_free (h : FieldName param base indices) {attr : List UInt8}
    {protectedVariables : List (List UInt8)} (hfree : AttributesFree param protectedVariables)
    (hattr : attr ∈ attributes) (hne : attr ≠ tmpNameAttribute) (val : Zval) (t : Table) :
    registerAttribute config protectedVariables base indices attr val t =
        phpRegisterVariableEx config (attributeForm base indices attr) val t ∧
      registerAttribute config (protectFile param protectedVariables) base indices attr val t =
        phpRegisterVariableEx config (attributeForm base indices attr) val t := by
  have hmem : attributeForm base indices attr ∉ protectedVariables := by
    rw [← (normalize_attributeName h hattr).1]
    exact hfree attr hattr hne
  refine ⟨if_neg hmem, if_neg ?_⟩
  rw [mem_protectFile h, not_or, not_or]
  exact ⟨fun heq => hne (attributeForm_inj heq), attributeForm_ne h attr, hmem⟩

section

variable {s : Handler} (h : FieldName param base indices) (file : FileEntry)
  (hfree : AttributesFree param s.protectedVariables)

include h file hfree

theorem registerFile_free :
    (registerFile config param file s).httpPostFiles = file.values.foldl (fun t value =>
      phpRegisterVariableEx config (attributeForm base indices value.1) value.2 t)
      s.httpPostFiles := by
  rw [registerFile_eq h]
  dsimp only
  rw [(registerAttribute_free h hfree (by decide) (by decide) _ _).1,
    (registerAttribute_free h hfree (by decide) (by decide) _ _).1,
    (registerAttribute_free h hfree (by decide) (by decide) _ _).2,
    (registerAttribute_free h hfree (by decide) (by decide) _ _).2]
  rfl

theorem registerFile_put (hvar : varName base ≠ [])
    (hlevels : indices.length + 1 ≤ config.maxInputNestingLevel) :
    (registerFile config param file s).httpPostFiles =
      putFile (symtableKey (varName base)) (indexPath config indices) file s.httpPostFiles := by
  rw [registerFile_free h file hfree, putFile]
  have hvalues : ∀ value ∈ file.values, value.1 ∈ attributes := fun value hvalue =>
    mem_map_of_mem (f := (·.1)) hvalue
  generalize file.values = values at hvalues ⊢
  generalize s.httpPostFiles = t
  induction values generalizing t with
  | nil => rfl
  | cons value values ih =>
    rw [foldl_cons, foldl_cons,
      register_attribute h (hvalues value mem_cons_self) hvar hlevels]
    exact ih (fun v hv => hvalues v (mem_cons_of_mem _ hv)) _

theorem Aligned.registerFile (haligned : Aligned s.httpPostFiles) :
    Aligned (registerFile config param file s).httpPostFiles := by
  by_cases hplace : varName base = [] ∨ config.maxInputNestingLevel < indices.length + 1
  · rw [registerFile_free h file hfree]
    have hvalues : ∀ value ∈ file.values, value.1 ∈ attributes := fun value hvalue =>
      mem_map_of_mem (f := (·.1)) hvalue
    generalize file.values = values at hvalues ⊢
    generalize s.httpPostFiles = t at haligned ⊢
    -- the entry is removed or stays as it is, with every attribute
    induction values generalizing t with
    | nil => exact haligned
    | cons value values ih =>
      apply ih (fun v hv => hvalues v (mem_cons_of_mem _ hv))
      dsimp only
      rcases @register_attribute_givenUp _ _ _ config value.2 _ h (hvalues value mem_cons_self)
        hplace t with hsame | hfilter
      · rw [hsame]
        exact haligned
      · intro e he
        rw [hfilter] at he
        exact haligned e (mem_filter.mp he).1
  · rw [not_or] at hplace
    rw [registerFile_put h file hfree hplace.1 (by omega)]
    exact haligned.putFile _ _ file

theorem Aligned.registerFile_stored (haligned : Aligned s.httpPostFiles)
    (hplace : HasPlace config base indices s.httpPostFiles) :
    ∃ ks, ∀ value ∈ file.values,
      lookup (symtableKey (varName base) :: .str value.1 :: ks)
        (Main.registerFile config param file s).httpPostFiles.zval = some value.2 := by
  obtain ⟨hvar, hlevels, hresolve⟩ := hplace
  rw [registerFile_put h file hfree hvar hlevels]
  rw [resolve, resolve, Option.isSome_map, Option.isSome_map] at hresolve
  obtain ⟨ks, hks⟩ := Option.isSome_iff_exists.mp hresolve
  refine ⟨ks, haligned.lookup_putFile ?_⟩
  rw [resolve, entryArray, hks]
  rfl

end

end Registered

def PartFree (settings : Settings) (s : Handler) (part : Part) : Prop :=
  ∀ param filename, accepted settings s part = some (param, filename) →
    AttributesFree param s.protectedVariables

theorem Aligned.step {settings : Settings} {s s' : Handler} {part : Part}
    (h : Aligned s.httpPostFiles) (hfree : PartFree settings s part)
    (hstep : step settings s part = some s') : Aligned s'.httpPostFiles := by
  rcases step_cases hstep with ⟨-, hfiles, -, -⟩ | ⟨param, filename, haccepted, rfl⟩
  · rw [hfiles]
    exact h
  · obtain ⟨hfiles, hprotected, -, -⟩ := received_spec settings s part filename
    obtain ⟨base, indices, hname⟩ := exists_fieldName (bracketsClosed_of_accepted haccepted)
    apply Aligned.registerFile hname
    · rw [hprotected]
      exact hfree param filename haccepted
    · rw [hfiles]
      exact h

/-- In every request a `tmp_name` holds temporary files of the request only.  While no attribute is
refused, the attributes of every entry have one shape, and a file is stored with all of them under
one path if there is a place for it. -/
theorem files_are_not_forged (settings : Settings) {parts : List Part} {s : Handler} :
    (Run (step settings) (fun _ _ => True) (start settings) parts s →
      TmpNamesOk s.uploadedFiles s.httpPostFiles) ∧
    (Run (step settings) (PartFree settings) (start settings) parts s →
      Aligned s.httpPostFiles ∧
      ∀ part s' param filename base indices, PartFree settings s part →
        step settings s part = some s' → accepted settings s part = some (param, filename) →
        FieldName param base indices →
        HasPlace settings.config base indices s.httpPostFiles →
        ∃ ks, ∀ value ∈ (fileEntry filename part.contentType
            (received settings s part filename).1).values,
          lookup (symtableKey (varName base) :: .str value.1 :: ks) s'.httpPostFiles.zval =
            some value.2) := by
  constructor
  · intro hrun
    exact hrun.invariant (I := fun s => TmpNamesOk s.uploadedFiles s.httpPostFiles)
      (fun _ he => absurd he not_mem_nil) fun _ _ _ h _ hstep => h.step hstep
  · intro hrun
    have haligned : Aligned s.httpPostFiles :=
      hrun.invariant (I := fun s => Aligned s.httpPostFiles)
        (fun _ he => absurd he not_mem_nil) fun _ _ _ h hfree hstep => h.step hfree hstep
    refine ⟨haligned, ?_⟩
    intro part s' param filename base indices hfree hstep haccepted hname hplace
    obtain ⟨hfiles, hprotected, -, -⟩ := received_spec settings s part filename
    rcases step_cases hstep with ⟨hnone, -⟩ | ⟨param', filename', haccepted', rfl⟩
    · rw [hnone] at haccepted
      exact nomatch haccepted
    · rw [haccepted] at haccepted'
      cases haccepted'
      apply Aligned.registerFile_stored hname
      · rw [hprotected]
        exact hfree param filename haccepted
      · rw [hfiles]
        exact haligned
      · rw [hfiles]
        exact hplace

def twentyFiles : Settings := ⟨blankOnly, true, 20, 1000⟩

/-- A file `f` of the field `a[]`. -/
def partOfA : Part := { param := some [97, 91, 93], filename := some [102], upload := .written [47, 116] 3 }

/-- A file `g` of the field `a[]`. -/
def partBehind : Part := { param := some [97, 91, 93], filename := some [103], upload := .written [47, 116] 5 }

def afterBehind : Handler := (step twentyFiles (start twentyFiles) partBehind).getD (start twentyFiles)

/-- Behind the file `g` of `a[]` the file `f` of `a[]` is stored. -/
theorem files_are_not_forged_behind :
    Run (step twentyFiles) (PartFree twentyFiles) (start twentyFiles) [partBehind] afterBehind ∧
      ∃ s' ks, step twentyFiles afterBehind partOfA = some s' ∧
        ∀ value ∈ (fileEntry [102] none (.written [47, 116] 3)).values,
          lookup (symtableKey [97] :: .str value.1 :: ks) s'.httpPostFiles.zval = some value.2 := by
  have hname : FieldName [97, 91, 93] [97] [[]] :=
    ⟨rfl, by decide, by decide, by decide⟩
  have hrun : Run (step twentyFiles) (PartFree twentyFiles) (start twentyFiles) [partBehind]
      afterBehind := .snoc (.nil _) (fun _ _ _ _ _ _ => not_mem_nil) rfl
  have hfree : PartFree twentyFiles afterBehind partOfA := by
    intro param filename haccepted
    obtain rfl : [97, 91, 93] = param := congrArg Prod.fst (Option.some.inj haccepted)
    unfold AttributesFree
    decide
  obtain ⟨ks, hks⟩ := ((files_are_not_forged twentyFiles).2 hrun).2 partOfA _ [97, 91, 93] [102] [97]
    [[]] hfree rfl rfl hname ⟨by decide, by decide, rfl⟩
  exact ⟨hrun, _, ks, rfl, hks⟩

/-- A file `f` of the field `a[name][]`. -/
def partOfName : Part :=
  { param := some [97, 91, 110, 97, 109, 101, 93, 91, 93], filename := some [102],
    upload := .written [47, 115] 3 }

theorem everyLeaf_lookup {P : Zval → Prop} (ks : List HashKey) {z x : Zval} (h : EveryLeaf P z)
    (hx : lookup ks z = some x) : EveryLeaf P x := by
  induction ks generalizing z with
  | nil => exact Option.some.inj hx ▸ h
  | cons k ks ih =>
    rw [lookup] at hx
    obtain ⟨t, ht, hfound⟩ := Option.bind_eq_some_iff.mp hx
    obtain ⟨y, hy, hrest⟩ := Option.bind_eq_some_iff.mp hfound
    rw [Table.find, Option.map_eq_some_iff] at hy
    obtain ⟨e, he, rfl⟩ := hy
    cases z with
    | array es next =>
      cases ht
      exact ih (everyLeafOf_iff.mp h e (List.mem_of_find?_eq_some he)) hrest
    | string val => cases ht
    | long lval => cases ht

/-- Behind a file of the field `a[name][]` a file of `a[]` gets its temporary file, and no name. -/
theorem file_loses_its_name :
    ∃ s s', Run (step twentyFiles) (fun _ _ => True) (start twentyFiles) [partOfName] s ∧
      step twentyFiles s partBehind = some s' ∧
      accepted twentyFiles s partBehind = some ([97, 91, 93], [103]) ∧
      lookup [.str [97], .str tmpNameAttribute, .index 0] s'.httpPostFiles.zval =
        some (.string [47, 116]) ∧
      ∀ ks, lookup (.str [97] :: .str nameAttribute :: ks) s'.httpPostFiles.zval ≠
        some (.string [103]) := by
  refine ⟨_, _, .snoc (.nil _) trivial rfl, rfl, rfl, rfl, ?_⟩
  intro ks hks
  have hleaves : EveryLeaf (fun z => z = .string [102]) (.array [(.str nameAttribute,
      .array [(.index 0, .string [102])] 1)] 0) := ⟨⟨rfl, trivial⟩, trivial⟩
  have hleaf := everyLeaf_lookup ks hleaves hks
  exact absurd (Zval.string.inj hleaf) (by decide)

end Php53.Main
