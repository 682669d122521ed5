import Php53.Spl.ArrayInvariant

/-!
# ArrayRuns — which calls keep the positions on their lists

Only an object with `SPL_ARRAY_IS_REF`, an iterator made by `getIterator`, checks its position
before it follows it.  Any other object relies on nobody else deleting the bucket it stands on and
on nobody exchanging the table under it; `Displaces` names the steps that break this.
-/

open Reasoning Php53.Zend

namespace Php53.Spl

/-- The deletion behind `offsetUnset`. -/
def unsetOp (isSymbolTable : Bool) : Offset → Option (HashOp ZvalPtr)
  | .string key =>
      if isSymbolTable then
        some (.delKeyOrIndex (key ++ [0]) (zendInlineHashFunc (key ++ [0])) .delKeyQuick)
      else
        match zendHandleNumeric (key ++ [0]) (key ++ [0]).length with
        | some idx => some (.delKeyOrIndex [] idx .delIndex)
        | none => some (.delKeyOrIndex (key ++ [0]) 0 .delKey)
  | .long index => some (.delKeyOrIndex [] index .delIndex)
  | _ => none

namespace Store

variable {s : Store}

def empty : Store := { zvals := [], tables := [], objects := [], symbolTable := 0 }

/-- The new zval names something that exists, a direct operation edits the table with the arguments
it may have, and memory for a new bucket is not in use. -/
def OpOk (s : Store) : ArrayOp → Prop
  | .newZval (.array t) => t < s.tables.length
  | .newZval (.object handle) => handle < s.objects.length
  | .table t op => ∀ ht, s.tables[t]? = some ht → ht.OpOk op ∧ HashTable.Edits op
  | .call object (.offsetSet _ _ mem) =>
      ∀ handle intern t ht, s.receiver object = some (handle, intern) →
        s.hashTable intern = .ok (some t) → s.tables[t]? = some ht → ht.Fresh mem
  | _ => True

/-- The operation takes the bucket `b` off the list that the object `handle` iterates over, or gives
this object another table.  What an object does with its own table does not count. -/
def Displaces (s : Store) (handle : Nat) (intern : SplArrayObject) (b : BucketPtr) :
    ArrayOp → Prop
  | .table t op =>
      s.hashTable intern = .ok (some t) ∧ ∃ ht, s.tables[t]? = some ht ∧ b ∈ ht.deletes op
  | .call object (.offsetUnset offset) =>
      ∃ handle' intern' t ht op, s.receiver object = some (handle', intern') ∧ handle' ≠ handle ∧
        s.hashTable intern' = .ok (some t) ∧ s.hashTable intern = .ok (some t) ∧
          s.tables[t]? = some ht ∧ unsetOp (t = s.symbolTable) offset = some op ∧
            b ∈ ht.deletes op
  | .call object (.exchangeArray array) =>
      ∃ handle' intern' stored, s.receiver object = some (handle', intern') ∧ handle' ≠ handle ∧
        s.withArray object intern' array 0 true = .ok (some stored) ∧
          (s.setObject handle' stored).hashTable intern ≠ s.hashTable intern
  | .call object (.construct array arFlags justArray) =>
      ∃ handle' intern' stored, s.receiver object = some (handle', intern') ∧ handle' ≠ handle ∧
        s.withArray object intern' array (arFlags &&& ~~~splArrayIntMask) justArray =
          .ok (some stored) ∧
          (s.setObject handle' stored).hashTable intern ≠ s.hashTable intern
  | _ => False

/-- `spl_array_it_get_current_data` of an object that other functions check is called where the
check would succeed, as it does after `spl_array_it_valid`. -/
def CurrentDataOk (s : Store) : ArrayOp → Prop
  | .call object .itGetCurrentData =>
      ∀ handle intern t ht, s.receiver object = some (handle, intern) →
        anyFlag intern.arFlags splArrayIsRef → s.hashTable intern = .ok (some t) →
          s.tables[t]? = some ht → intern.pos ≠ none → intern.inChain ht = some true
  | _ => True

/-- No object that stands on a bucket without `SPL_ARRAY_IS_REF` is displaced. -/
def Careful (s : Store) (op : ArrayOp) : Prop :=
  s.OpOk op ∧ s.CurrentDataOk op ∧
    ∀ (handle : Nat) (intern : SplArrayObject) (b : BucketPtr),
      s.objects[handle]? = some (.spl intern) → anyFlag intern.arFlags splArrayIsRef = false →
        intern.pos = some b → ¬ s.Displaces handle intern b op

theorem wf_empty : empty.Wf :=
  ⟨fun _ _ h => (nomatch h), fun _ _ h => (nomatch h), fun _ _ h => (nomatch h)⟩

/-- `r` has no result, or one whose object stands where it may. -/
def Calm {β : Type} (s : Store) (intern : SplArrayObject)
    (r : Except Fault (SplArrayObject × β)) : Prop :=
  r = .error .undefined ∨
    ∃ intern' answer, r = .ok (intern', answer) ∧ intern.Moved intern' ∧ s.Placed intern'

section

variable {s : Store} {handle : Nat} {intern : SplArrayObject} {β : Type}

variable {exempt : Option Nat} {ht : HashTable ZvalPtr} {r : Except Fault (SplArrayObject × β)}

theorem Calm.safe (hw : s.Wf) (ho : s.objects[handle]? = some (.spl intern)) (h : s.Calm intern r) :
    Safe (do return s.setObject handle (← r).1) := by
  rcases h with rfl | ⟨intern', answer, rfl, hm, hp⟩
  · exact rfl
  · exact hw.setObject nofun ho hm hp

theorem calm_self (hp : s.Placed intern) (answer : β) : s.Calm intern (.ok (intern, answer)) :=
  Or.inr ⟨intern, answer, rfl, SplArrayObject.Moved.refl _, hp⟩

theorem withTable_undefined (h : s.NoTable intern) (answer : β)
    (body : HashTable ZvalPtr → Except Fault (SplArrayObject × β)) :
    intern.withTable s answer body = .error .undefined := by
  unfold SplArrayObject.withTable
  rcases h with h | ⟨t, h, ht⟩
  · rw [h]
    rfl
  · rw [h, ok_bind]
    dsimp only
    rw [ht]
    rfl

section

variable (hw : s.Wf) (ho : s.objects[handle]? = some (.spl intern))

include hw ho

theorem calm_of_settles (hno : s.NoTable intern → r = .error .undefined)
    (h : ∀ t ht l, SplArrayObject.Iterates s intern t ht → ht.Valid l →
      SplArrayObject.Guarded ht intern → intern.Settles ht r) : s.Calm intern r := by
  rcases hw.table_cases (hw.storage _ _ ho) with hnone | ⟨t, ht, l, hi, hv⟩
  · exact Or.inl (hno hnone)
  · obtain ⟨intern', answer, hr, hm, hl⟩ := h t ht l hi hv
      ((hw.placed _ _ ho nofun).guarded hi)
    exact Or.inr ⟨intern', answer, hr, hm, placed_of_listed hi hm hl⟩

theorem calm_valid :
    s.Calm intern (intern.valid s) :=
  calm_of_settles hw ho (fun h => withTable_undefined h _ _) fun _ _ _ hi hv hg =>
    SplArrayObject.valid_settles hi hv hg

theorem calm_current :
    s.Calm intern (intern.current s) :=
  calm_of_settles hw ho (fun h => withTable_undefined h _ _) fun _ _ _ hi hv hg =>
    SplArrayObject.current_settles hi hv hg

theorem calm_key :
    s.Calm intern (intern.key s) :=
  calm_of_settles hw ho (fun h => withTable_undefined h _ _) fun _ _ _ hi hv hg =>
    SplArrayObject.key_settles hi hv hg

theorem calm_next :
    s.Calm intern (intern.next s) :=
  calm_of_settles hw ho (fun h => withTable_undefined h _ _) fun _ _ _ hi hv hg =>
    SplArrayObject.next_settles hi hv hg

theorem calm_itGetCurrentData (hchain : ∀ t ht, SplArrayObject.Iterates s intern t ht →
      anyFlag intern.arFlags splArrayIsRef → intern.pos ≠ none →
        intern.inChain ht = some true) :
    s.Calm intern (intern.splArrayItGetCurrentData s) := by
  have hp := hw.placed _ _ ho nofun
  unfold SplArrayObject.splArrayItGetCurrentData
  rcases hw.table_cases (hw.storage _ _ ho) with (herr | ⟨t, hget, htab⟩) | ⟨t, ht, l, hi, hv⟩
  · rw [herr]
    exact Or.inl rfl
  · rw [hget, ok_bind]
    split
    · exact calm_self hp _
    · dsimp only
      rw [htab]
      exact Or.inl rfl
  · have hl : Listed ht intern.pos := by
      rcases hp.guarded hi with href | hl
      · cases hpos : intern.pos with
        | none => exact listed_none ht
        | some b =>
          have hin := hchain t ht hi href (by simp [hpos])
          exact hpos ▸ SplArrayObject.listed_of_inChain hv hin
      · exact hl
    obtain ⟨intern', answer, hr, hm, hl'⟩ := SplArrayObject.itGetCurrentData_settles hi hl
    exact Or.inr ⟨intern', answer, hr, hm, placed_of_listed hi hm hl'⟩

theorem calm_overloaded (c : Bool) (answer : β) (h : s.Calm intern r) :
    s.Calm intern (if c then .ok (intern, answer) else r) := by
  cases c with
  | true => exact calm_self (hw.placed _ _ ho nofun) answer
  | false => exact h

end

theorem rewind_cases (hw : s.WfBut exempt) (hi : s.HasStorage intern) :
    intern.splArrayRewind s = .error .undefined ∨
      ∃ intern', intern.splArrayRewind s = .ok intern' ∧ intern.Moved intern' ∧
        s.Placed intern' := by
  rcases hw.table_cases hi with (herr | ⟨t, hget, htab⟩) | ⟨t, ht, l, hi, hv⟩
  · refine Or.inl ?_
    rw [SplArrayObject.splArrayRewind, herr]
    rfl
  · refine Or.inl ?_
    rw [SplArrayObject.splArrayRewind, hget, ok_bind]
    dsimp only
    rw [htab]
    rfl
  · obtain ⟨intern', hr, hm, hl⟩ := SplArrayObject.rewind_spec hi hv
    exact Or.inr ⟨intern', hr, hm, placed_of_listed hi hm hl⟩

theorem safe_rewind (hw : s.WfBut exempt) (hex : ∀ j, exempt = some j → j = handle)
    (ho : s.objects[handle]? = some (.spl intern)) :
    Safe (do return s.setObject handle (← intern.splArrayRewind s)) := by
  rcases rewind_cases hw (hw.storage _ _ ho) with hr | ⟨intern', hr, hm, hp⟩
  · rw [hr]
    exact rfl
  · rw [hr]
    exact hw.setObject hex ho hm hp

theorem safe_itRewind (hw : s.Wf) (ho : s.objects[handle]? = some (.spl intern)) :
    Safe (do return s.setObject handle (← intern.splArrayItRewind s)) := by
  unfold SplArrayObject.splArrayItRewind
  split
  · exact hw.setObject nofun ho (SplArrayObject.Moved.refl _) (hw.placed _ _ ho nofun)
  · exact safe_rewind hw nofun ho

theorem safe_verify (hw : s.WfBut exempt) (hex : ∀ j, exempt = some j → j = handle)
    (ho : s.objects[handle]? = some (.spl intern)) {t : Nat}
    (hi : SplArrayObject.Iterates s intern t ht) :
    Safe (do return s.setObject handle (← intern.splHashVerifyPosEx s ht).1) := by
  obtain ⟨l, hv⟩ := hw.tables t ht hi.table
  obtain ⟨intern', answer, hr, hm, hl⟩ := SplArrayObject.verifyPosEx_settles hi hv
  rw [hr]
  exact hw.setObject hex ho hm (placed_of_listed hi hm hl)

theorem writeDimension_step {value : ZvalPtr} {mem : Pemalloc} {offset : Offset}
    {r : Option (Outcome ZvalPtr)} (h : writeDimension ht value mem offset = some r) :
    ∃ op, r.map (·.table) = ht.step op ∧ HashTable.Edits op ∧ ht.deletes op = [] ∧
      (ht.Fresh mem → ht.OpOk op) := by
  cases offset with
  | null =>
    obtain rfl := Option.some.inj h
    exact ⟨.indexUpdateOrNextInsert 0 value sizeofVoidPtr hashNextInsert mem, rfl, trivial, rfl,
      id⟩
  | long index =>
    obtain rfl := Option.some.inj h
    exact ⟨.indexUpdateOrNextInsert index value sizeofVoidPtr hashUpdate mem, rfl, trivial, rfl,
      id⟩
  | illegal => exact nomatch h
  | string key =>
    obtain rfl := Option.some.inj h
    unfold HashTable.zendSymtableUpdate
    cases zendHandleNumeric (key ++ [0]) (key ++ [0]).length with
    | some idx =>
      exact ⟨.indexUpdateOrNextInsert idx value sizeofVoidPtr hashUpdate mem, rfl, trivial, rfl,
        id⟩
    | none =>
      exact ⟨.addOrUpdate (key ++ [0]) value sizeofVoidPtr hashUpdate mem, rfl, trivial, rfl, id⟩

theorem unsetDimension_step {isSymbolTable : Bool} {offset : Offset} {o : Outcome ZvalPtr}
    (h : unsetDimension ht isSymbolTable offset = some (some o)) :
    o.table = ht ∨
      ∃ op, unsetOp isSymbolTable offset = some op ∧ ht.step op = some o.table ∧
        HashTable.Edits op ∧ ht.OpOk op := by
  cases offset with
  | null => exact nomatch h
  | illegal => exact nomatch h
  | long index =>
    have h : ht.zendHashDelKeyOrIndex [] index .delIndex = some o := Option.some.inj h
    exact Or.inr ⟨_, rfl, by rw [HashTable.step, h]; rfl, trivial, trivial⟩
  | string key =>
    cases isSymbolTable with
    | true =>
      have h : zendDeleteGlobalVariable ht (key ++ [0]) = some o := Option.some.inj h
      unfold zendDeleteGlobalVariable at h
      dsimp only at h
      split at h
      · exact nomatch h
      · obtain rfl := Option.some.inj h
        exact Or.inl rfl
      · exact Or.inr ⟨_, rfl, by rw [HashTable.step, h]; rfl, trivial, trivial⟩
    | false =>
      have h : ht.zendSymtableDel (key ++ [0]) = some o := Option.some.inj h
      unfold HashTable.zendSymtableDel at h
      cases hn : zendHandleNumeric (key ++ [0]) (key ++ [0]).length with
      | some idx =>
        have h : ht.zendHashDelKeyOrIndex [] idx .delIndex = some o := by rw [hn] at h; exact h
        exact Or.inr ⟨.delKeyOrIndex [] idx .delIndex, by simp only [unsetOp, hn]; rfl,
          by rw [HashTable.step, h]; rfl, trivial, trivial⟩
      | none =>
        have h : ht.zendHashDelKeyOrIndex (key ++ [0]) 0 .delKey = some o := by
          rw [hn] at h; exact h
        exact Or.inr ⟨.delKeyOrIndex (key ++ [0]) 0 .delKey, by simp only [unsetOp, hn]; rfl,
          by rw [HashTable.step, h]; rfl, trivial, trivial⟩

section

variable (hw : s.Wf) (ho : s.objects[handle]? = some (.spl intern))

include hw ho

theorem tableOf_cases :
    s.tableOf intern = .error .undefined ∨
      ∃ t ht l, s.tableOf intern = .ok (t, ht) ∧ SplArrayObject.Iterates s intern t ht ∧
        ht.Valid l := by
  unfold tableOf
  rcases hw.table_cases (hw.storage _ _ ho) with (herr | ⟨t, hget, htab⟩) | ⟨t, ht, l, hi, hv⟩
  · rw [herr]
    exact Or.inl rfl
  · rw [hget, ok_bind]
    dsimp only
    rw [htab]
    exact Or.inl rfl
  · refine Or.inr ⟨t, ht, l, ?_, hi, hv⟩
    rw [hi.hashTable, ok_bind]
    dsimp only
    rw [hi.table_eq]
    rfl

theorem safe_offsetSet (offset : Offset) (value : ZvalPtr) {mem : Pemalloc}
    (hmem : ∀ t ht, SplArrayObject.Iterates s intern t ht → ht.Fresh mem) :
    Safe (s.splArrayWriteDimensionEx intern offset value mem) := by
  unfold splArrayWriteDimensionEx
  split
  · exact hw
  rcases tableOf_cases hw ho with herr | ⟨t, ht, l, hget, hi, hv⟩
  · rw [herr]
    exact rfl
  rw [hget, ok_bind]
  dsimp only
  split
  · exact hw
  cases hwrite : writeDimension ht value mem offset with
  | none => exact hw
  | some r =>
    cases r with
    | none => exact rfl
    | some o =>
      obtain ⟨op, hstep, hedit, hgone, hop⟩ := writeDimension_step hwrite
      have hk := hv.step_keeps (hop (hmem t ht hi)) hedit hstep.symm
      rw [hgone] at hk
      exact hw.setTable hi.table hk none fun _ _ _ _ _ _ _ _ => List.not_mem_nil

theorem safe_offsetUnset (offset : Offset)
    (hspare : ∀ t ht op, SplArrayObject.Iterates s intern t ht →
      unsetOp (t = s.symbolTable) offset = some op →
        ∀ (j : Nat) (i : SplArrayObject) (b : BucketPtr), s.objects[j]? = some (.spl i) →
          j ≠ handle → anyFlag i.arFlags splArrayIsRef = false → i.pos = some b →
            s.hashTable i = .ok (some t) → b ∉ ht.deletes op) :
    Safe (s.splArrayUnsetDimensionEx handle intern offset) := by
  unfold splArrayUnsetDimensionEx
  split
  · exact hw
  rcases tableOf_cases hw ho with herr | ⟨t, ht, l, hget, hi, hv⟩
  · rw [herr]
    exact rfl
  rw [hget, ok_bind]
  dsimp only
  split
  · exact hw
  cases hunset : unsetDimension ht (t = s.symbolTable) offset with
  | none => exact hw
  | some r =>
    cases r with
    | none => exact rfl
    | some o =>
      have hbut : (s.setTable t o.table).WfBut (some handle) := by
        rcases unsetDimension_step hunset with hself | ⟨op, hop, hstep, hedit, hok⟩
        · rw [hself]
          exact hw.setTable hi.table (hv.keeps_self []) _ fun _ _ _ _ _ _ _ _ =>
            List.not_mem_nil
        · refine hw.setTable hi.table (hv.step_keeps hok hedit hstep) _ ?_
          intro j i b hj hne
          exact hspare t ht op hi hop j i b hj fun he => hne (he ▸ rfl)
      have hlt := (List.getElem?_eq_some_iff.mp hi.table).1
      have hi' : SplArrayObject.Iterates (s.setTable t o.table) intern t o.table :=
        ⟨(s.extends_setTable t o.table).hashTable (SplArrayObject.Moved.refl _) hi.hashTable,
          List.getElem?_set_self hlt⟩
      exact safe_verify hbut (fun j hj => (Option.some.inj hj).symm) ho hi'

end

theorem withArray_storage {object array : ZvalPtr} {arFlags : BitVec 32} {justArray : Bool}
    {stored : SplArrayObject}
    (h : s.withArray object intern array arFlags justArray = .ok (some stored)) :
    s.HasStorage stored := by
  unfold withArray at h
  dsimp only at h
  split at h
  · rename_i hz
    injection h with h
    obtain rfl := Option.some.inj h
    exact ⟨_, hz, nofun⟩
  · rename_i hz
    split at h
    · injection h with h
      obtain rfl := Option.some.inj h
      exact ⟨_, hz, nofun⟩
    · injection h with h
      obtain rfl := Option.some.inj h
      exact ⟨_, hz, nofun⟩
    · exact nomatch h
  · injection h with h
    exact nomatch h
  · exact nomatch h

theorem withArray_ne_stale (object array : ZvalPtr) (arFlags : BitVec 32) (justArray : Bool) :
    s.withArray object intern array arFlags justArray ≠ .error .stale := by
  unfold withArray
  dsimp only
  split
  · exact nofun
  · split <;> exact nofun
  · exact nofun
  · exact nofun

theorem wfBut_stored (hw : s.Wf) (ho : s.objects[handle]? = some (.spl intern))
    {stored : SplArrayObject} (hs : s.HasStorage stored)
    (hspare : ∀ (j : Nat) (i : SplArrayObject) (b : BucketPtr), s.objects[j]? = some (.spl i) →
      j ≠ handle → anyFlag i.arFlags splArrayIsRef = false → i.pos = some b →
        (s.setObject handle stored).hashTable i = s.hashTable i) :
    (s.setObject handle stored).WfBut (some handle) := by
  have hlt := (List.getElem?_eq_some_iff.mp ho).1
  refine ⟨hw.tables, fun j i hj => ?_, fun j i hj hne => ?_⟩
  · by_cases hjh : j = handle
    · subst hjh
      rw [setObject, List.getElem?_set_self hlt] at hj
      injection hj with hj
      injection hj with hj
      exact hj ▸ hs
    · rw [setObject, List.getElem?_set_ne (Ne.symm hjh)] at hj
      exact hw.storage _ _ hj
  · have hjh : j ≠ handle := fun he => hne (he ▸ rfl)
    rw [setObject, List.getElem?_set_ne (Ne.symm hjh)] at hj
    cases href : anyFlag i.arFlags splArrayIsRef with
    | true => exact Or.inl href
    | false =>
      rcases hw.placed _ _ hj (fun he => by cases he) with href' | hnone | ⟨t, ht, hi, hl⟩
      · rw [href] at href'
        cases href'
      · exact Or.inr (Or.inl hnone)
      · cases hpos : i.pos with
        | none => exact Or.inr (Or.inl hpos)
        | some b =>
          have hsame := hspare j i b hj hjh href hpos
          exact Or.inr (Or.inr ⟨t, ht, ⟨hsame.trans hi.hashTable, hi.table⟩, hl⟩)

theorem safe_setArray (hw : s.Wf) (ho : s.objects[handle]? = some (.spl intern))
    (object array : ZvalPtr) (arFlags : BitVec 32) (justArray : Bool)
    (hspare : ∀ stored, s.withArray object intern array arFlags justArray = .ok (some stored) →
      ∀ (j : Nat) (i : SplArrayObject) (b : BucketPtr), s.objects[j]? = some (.spl i) →
        j ≠ handle → anyFlag i.arFlags splArrayIsRef = false → i.pos = some b →
          (s.setObject handle stored).hashTable i = s.hashTable i) :
    Safe (s.splArraySetArray object handle intern array arFlags justArray) := by
  unfold splArraySetArray
  cases hwith : s.withArray object intern array arFlags justArray with
  | error e =>
    cases e with
    | stale => exact absurd hwith (withArray_ne_stale _ _ _ _)
    | undefined => exact rfl
  | ok o =>
    cases o with
    | none => exact hw
    | some stored =>
      have hbut := wfBut_stored hw ho (withArray_storage hwith) (hspare stored hwith)
      have hlt := (List.getElem?_eq_some_iff.mp ho).1
      exact safe_rewind hbut (fun j hj => (Option.some.inj hj).symm) (List.getElem?_set_self hlt)

theorem safe_newObject (hw : s.Wf) (hi : s.HasStorage intern) :
    Safe (do
      let intern ← intern.splArrayRewind s
      return { s with
        objects := s.objects ++ [.spl intern]
        zvals := s.zvals ++ [.object s.objects.length] }) := by
  rcases rewind_cases hw hi with hr | ⟨intern', hr, hm, hp⟩
  · rw [hr]
    exact rfl
  · rw [hr]
    have hgrow := hw.grow [.object s.objects.length] [] (fun _ he => by cases he)
      [.spl intern'] fun i hmem => by
        obtain rfl : i = intern' := by simpa using hmem
        exact ⟨(Extends.refl s).hasStorage hm hi, hp⟩
    have hgrow' : ({ s with
        objects := s.objects ++ [.spl intern']
        zvals := s.zvals ++ [.object s.objects.length] } : Store).Wf := by
      simpa [Store.grow] using hgrow
    exact hgrow'

theorem safe_splArrayObjectNew (hw : s.Wf) (properties : Nat) (overloaded : BitVec 32) :
    Safe (s.splArrayObjectNew properties overloaded) := by
  have hgrow := hw.grow [.array s.tables.length]
    [zendHashInit ZvalPtr 0 true false]
    (fun ht hmem => by
      rw [List.mem_singleton] at hmem
      exact ⟨[], hmem ▸ HashTable.valid_zendHashInit _ _ _⟩)
    [] (fun _ he => by cases he)
  have hgrow' : ({ s with
      zvals := s.zvals ++ [.array s.tables.length]
      tables := s.tables ++ [zendHashInit ZvalPtr 0 true false] } : Store).Wf := by
    simpa [Store.grow] using hgrow
  refine safe_newObject hgrow' ⟨.array s.tables.length, ?_, fun he => by cases he⟩
  simp

theorem safe_getIterator (hw : s.Wf) (ho : s.objects[handle]? = some (.spl intern))
    {object : ZvalPtr} {j : Nat} (hz : s.zvals[object]? = some (.object j)) (properties : Nat)
    (overloaded : BitVec 32) : Safe (s.getIterator object intern properties overloaded) := by
  unfold Store.getIterator
  have hnew : ∀ intern' : SplArrayObject, s.HasStorage intern' → _ := fun _ => safe_newObject hw
  rcases hw.table_cases (hw.storage _ _ ho) with (herr | ⟨t, hget, -⟩) | ⟨t, ht, l, hi, -⟩
  · rw [herr]
    exact rfl
  · rw [hget, ok_bind]
    exact hnew _ ⟨_, hz, nofun⟩
  · rw [hi.hashTable, ok_bind]
    exact hnew _ ⟨_, hz, nofun⟩

end

theorem receiver_some {object : ZvalPtr} {handle : Nat} {intern : SplArrayObject}
    (h : s.receiver object = some (handle, intern)) :
    s.zvals[object]? = some (.object handle) ∧ s.objects[handle]? = some (.spl intern) := by
  unfold receiver at h
  split at h
  · rename_i hz
    split at h
    · rename_i ho
      obtain ⟨rfl, rfl⟩ := Prod.mk.inj (Option.some.inj h)
      exact ⟨hz, ho⟩
    · exact nomatch h
  · exact nomatch h

theorem safe_call (hw : s.Wf) {object : ZvalPtr} {handle : Nat} {intern : SplArrayObject}
    (hrec : s.receiver object = some (handle, intern)) {c : ArrayCall}
    (hc : s.Careful (.call object c)) : Safe (s.apply object handle intern c) := by
  obtain ⟨hz, ho⟩ := receiver_some hrec
  obtain ⟨hok, hcur, hspare⟩ := hc
  cases c with
  | rewind => exact safe_rewind hw nofun ho
  | valid => exact (calm_valid hw ho).safe hw ho
  | current => exact (calm_current hw ho).safe hw ho
  | key => exact (calm_key hw ho).safe hw ho
  | next => exact (calm_next hw ho).safe hw ho
  | itRewind => exact safe_itRewind hw ho
  | itValid => exact (calm_overloaded hw ho _ _ (calm_valid hw ho)).safe hw ho
  | itGetCurrentData =>
    refine (calm_itGetCurrentData hw ho fun t ht hi href hpos => ?_).safe hw ho
    exact hcur handle intern t ht hrec href hi.hashTable hi.table hpos
  | itGetCurrentKey => exact (calm_overloaded hw ho _ _ (calm_key hw ho)).safe hw ho
  | itMoveForward => exact (calm_overloaded hw ho _ _ (calm_next hw ho)).safe hw ho
  | offsetSet offset value mem =>
    exact safe_offsetSet hw ho offset value fun t ht hi =>
      hok handle intern t ht hrec hi.hashTable hi.table
  | offsetUnset offset =>
    refine safe_offsetUnset hw ho offset fun t ht op hi hop j i b hj hne href hpos htab hb => ?_
    exact hspare j i b hj href hpos
      ⟨handle, intern, t, ht, op, hrec, hne.symm, hi.hashTable, htab, hi.table, hop, hb⟩
  | exchangeArray array =>
    unfold Store.apply
    have hset := safe_setArray hw ho object array 0 true
      fun stored hwith j i b hj hne href hpos => by
        by_contra hdiff
        exact hspare j i b hj href hpos ⟨handle, intern, stored, hrec, hne.symm, hwith, hdiff⟩
    rcases tableOf_cases hw ho with herr | ⟨t, ht, l, hget, -, -⟩
    · dsimp only
      rw [herr]
      exact rfl
    · dsimp only
      rw [hget, ok_bind]
      exact hset
  | construct array arFlags justArray =>
    refine safe_setArray hw ho object array _ justArray fun stored hwith j i b hj hne href hpos => ?_
    by_contra hdiff
    exact hspare j i b hj href hpos ⟨handle, intern, stored, hrec, hne.symm, hwith, hdiff⟩
  | getIterator properties overloaded => exact safe_getIterator hw ho hz properties overloaded

theorem safe_step (hw : s.Wf) {op : ArrayOp} (hc : s.Careful op) :
    Safe (s.step op) := by
  cases op with
  | newTable nSize =>
    have hgrow := hw.grow [] [zendHashInit ZvalPtr nSize true false]
      (fun ht hmem => by
        rw [List.mem_singleton] at hmem
        exact ⟨[], hmem ▸ HashTable.valid_zendHashInit _ _ _⟩)
      [] (fun _ he => by cases he)
    exact show Store.Wf _ by simpa [Store.grow] using hgrow
  | newZval zval =>
    have hgrow := hw.grow [zval] [] (fun _ he => by cases he) [] (fun _ he => by cases he)
    exact show Store.Wf _ by simpa [Store.grow] using hgrow
  | newObject properties =>
    have hgrow := hw.grow [.object s.objects.length] [] (fun _ he => by cases he)
      [.std properties] (by simp)
    exact show Store.Wf _ by simpa [Store.grow] using hgrow
  | newArrayObject properties overloaded => exact safe_splArrayObjectNew hw properties overloaded
  | table t op =>
    obtain ⟨hok, -, hspare⟩ := hc
    dsimp only [Store.step]
    cases htab : s.tables[t]? with
    | none =>
      have hget : s.table t = .error .undefined := by simp [Store.table, htab]
      rw [hget]
      exact rfl
    | some ht =>
      have hget : s.table t = .ok ht := by simp [Store.table, htab]
      rw [hget, ok_bind]
      obtain ⟨hop, hedit⟩ := hok ht htab
      obtain ⟨l, hv⟩ := hw.tables t ht htab
      cases hstep : ht.step op with
      | none => exact rfl
      | some ht' =>
        refine hw.setTable htab (hv.step_keeps hop hedit hstep) none ?_
        intro j i b hj _ href hpos hi hb
        exact hspare j i b hj href hpos ⟨hi, ht, htab, hb⟩
  | call object c =>
    dsimp only [Store.step]
    cases hrec : s.receiver object with
    | none => exact rfl
    | some r => exact safe_call hw hrec hc

/-- The stores that a run goes through, the operations `ok` permitting. -/
abbrev Reaches (ok : Store → ArrayOp → Prop) (ops : List ArrayOp) (s : Store) : Prop :=
  Run (fun s op => (s.step op).toOption) ok empty ops s

theorem wf_of_reaches {ops : List ArrayOp} (h : Reaches Careful ops s) : s.Wf := by
  refine h.invariant (I := Wf) wf_empty fun s op t hw hc hs => ?_
  have hsafe := safe_step hw hc
  cases hr : s.step op with
  | error e =>
    rw [hr] at hs
    exact nomatch hs
  | ok t' =>
    rw [hr] at hs hsafe
    obtain rfl : t' = t := Option.some.inj hs
    exact hsafe

/-- No call follows a stale position as long as every step is careful. -/
theorem positions_are_listed {ops : List ArrayOp} {s : Store} (h : Reaches Careful ops s)
    {op : ArrayOp} (hop : s.Careful op) : s.step op ≠ .error .stale :=
  (safe_step (wf_of_reaches h) hop).ne_stale

/-- A plain object with one property, and an `ArrayIterator` over its properties. -/
def overProperties : List ArrayOp :=
  [] ++ [ArrayOp.newTable 0] ++
    [ArrayOp.table 0 (.addOrUpdate [97, 0] 0 sizeofVoidPtr hashUpdate ⟨some 0, true, true⟩)] ++
      [ArrayOp.newObject 0] ++ [ArrayOp.newTable 0] ++ [ArrayOp.newArrayObject 1 0] ++
        [ArrayOp.call 2 (.construct 0 0 true)]

/-- The iterator moves on while the property is there. -/
theorem positions_are_listed_sample :
    ∃ s, Reaches Careful overProperties s ∧ s.step (.call 2 .next) ≠ .error .stale := by
  have hrun : ∃ s, Reaches Careful overProperties s ∧ s.Careful (.call 2 .next) := by
    refine ⟨_, Run.snoc (Run.snoc (Run.snoc (Run.snoc (Run.snoc (Run.snoc (Run.nil _) ?_ rfl) ?_ rfl)
      ?_ rfl) ?_ rfl) ?_ rfl) ?_ rfl, ?_⟩
    · exact ⟨trivial, trivial, fun _ _ _ _ _ _ h => h⟩
    · refine ⟨fun ht h => ?_, trivial, fun _ _ _ _ _ _ ⟨_, _, _, hb⟩ => List.not_mem_nil hb⟩
      obtain rfl := Option.some.inj h
      exact ⟨fun _ _ => List.not_mem_nil, trivial⟩
    · exact ⟨trivial, trivial, fun _ _ _ _ _ _ h => h⟩
    · exact ⟨trivial, trivial, fun _ _ _ _ _ _ h => h⟩
    · exact ⟨trivial, trivial, fun _ _ _ _ _ _ h => h⟩
    · refine ⟨trivial, trivial, fun handle intern b ho _ hpos => ?_⟩
      match handle, ho with
      | 1, ho =>
        obtain rfl := ZendObject.spl.inj (Option.some.inj ho)
        exact nomatch hpos
    · exact ⟨trivial, trivial, fun _ _ _ _ _ _ h => h⟩
  obtain ⟨s, hs, hop⟩ := hrun
  exact ⟨s, hs, positions_are_listed hs hop⟩

/-- Unsetting the property the iterator stands on: `current` follows the freed bucket. -/
theorem current_follows_stale :
    ¬ ∀ (ops : List ArrayOp) (s : Store) (op : ArrayOp), Reaches OpOk ops s → s.OpOk op →
      s.step op ≠ .error .stale := by
  intro h
  have hrun : ∃ s, Reaches OpOk (overProperties ++
      [ArrayOp.table 0 (.delKeyOrIndex [97, 0] 0 .delKey)]) s ∧
      s.step (.call 2 .current) = .error .stale := by
    refine ⟨_, Run.snoc (Run.snoc (Run.snoc (Run.snoc (Run.snoc (Run.snoc (Run.snoc (Run.nil _)
      ?_ rfl) ?_ rfl) ?_ rfl) ?_ rfl) ?_ rfl) ?_ rfl) ?_ rfl, rfl⟩
    · trivial
    · intro ht hget
      obtain rfl := Option.some.inj hget
      exact ⟨fun _ _ => List.not_mem_nil, trivial⟩
    · trivial
    · trivial
    · trivial
    · trivial
    · intro ht hget
      obtain rfl := Option.some.inj hget
      exact ⟨trivial, trivial⟩
  obtain ⟨s, hs, hstale⟩ := hrun
  exact h _ s (.call 2 .current) hs trivial hstale

end Store

end Php53.Spl
