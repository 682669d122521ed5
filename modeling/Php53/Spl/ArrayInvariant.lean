import Php53.Spl.ArrayPositions
import Php53.Zend.Hash.Listing

/-!
# ArrayInvariant — the positions of the objects of a store

An object with `SPL_ARRAY_IS_REF` checks its position before it follows it; any other object has to
stand on the list of its table.  The lemmas below say what keeps it there: a store that only has
other positions and additions, a table that loses no bucket anyone stands on.
-/

open Reasoning Php53.Zend

namespace Php53.Spl

namespace Store

variable {s s' : Store} {intern intern' : SplArrayObject} {t : Nat} {ht : HashTable ZvalPtr}

def SameStorage : ZendObject → ZendObject → Prop
  | .std properties, .std properties' => properties = properties'
  | .spl intern, .spl intern' => intern.Moved intern'
  | _, _ => False

theorem sameStorage_refl (o : ZendObject) : SameStorage o o := by
  cases o with
  | std => rfl
  | spl intern => exact SplArrayObject.Moved.refl intern

/-- Everything `s` has is in `s'`, the positions of objects apart. -/
structure Extends (s s' : Store) : Prop where
  zvals : ∀ (z : Nat) (v : Zval), s.zvals[z]? = some v → s'.zvals[z]? = some v
  objects : ∀ (h : Nat) (o : ZendObject), s.objects[h]? = some o →
    ∃ o', s'.objects[h]? = some o' ∧ SameStorage o o'
  length : s.objects.length ≤ s'.objects.length

theorem Extends.refl (s : Store) : s.Extends s :=
  ⟨fun _ _ h => h, fun _ o h => ⟨o, h, sameStorage_refl o⟩, Nat.le_refl _⟩

theorem extends_setTable (s : Store) (t : Nat) (ht : HashTable ZvalPtr) :
    s.Extends (s.setTable t ht) :=
  ⟨fun _ _ h => h, fun _ o h => ⟨o, h, sameStorage_refl o⟩, Nat.le_refl _⟩

theorem extends_setObject {handle : Nat} (h : s.objects[handle]? = some (.spl intern))
    (hm : intern.Moved intern') :
    s.Extends (s.setObject handle intern') := by
  refine ⟨fun _ _ hz => hz, fun j o ho => ?_, by simp [setObject]⟩
  obtain ⟨hlt, -⟩ := List.getElem?_eq_some_iff.mp h
  by_cases hj : j = handle
  · subst hj
    obtain rfl := Option.some.inj (h.symm.trans ho)
    exact ⟨.spl intern', List.getElem?_set_self hlt, hm⟩
  · refine ⟨o, ?_, sameStorage_refl o⟩
    rw [setObject, List.getElem?_set_ne (Ne.symm hj)]
    exact ho

theorem Extends.getHashTable (he : s.Extends s') {n m : Nat} (hnm : n ≤ m)
    (hm : intern.Moved intern') {checkStdProps : Bool} {r : Option Nat}
    (h : s.splArrayGetHashTable n intern checkStdProps = .ok r) :
    s'.splArrayGetHashTable m intern' checkStdProps = .ok r := by
  obtain ⟨pos, posH, rfl⟩ := hm
  induction n generalizing m intern checkStdProps pos posH with
  | zero => exact nomatch h
  | succ n ih =>
    obtain ⟨m, rfl⟩ : ∃ k, m = k + 1 := ⟨m - 1, by omega⟩
    have hnm : n ≤ m := by omega
    unfold splArrayGetHashTable at h ⊢
    dsimp only at h ⊢
    by_cases hself : anyFlag intern.arFlags splArrayIsSelf = true
    · rw [if_pos hself] at h ⊢
      exact h
    rw [if_neg hself] at h ⊢
    by_cases hstd : (checkStdProps && anyFlag intern.arFlags splArrayStdPropList) = true
    · simpa [hstd] using h
    cases hz : s.zvals[intern.array]? with
    | none => simp [hstd, arrayIsObject, hz] at h
    | some v =>
      have hz' := he.zvals _ _ hz
      cases v with
      | array t => simpa [hstd, arrayIsObject, hz, hz'] using h
      | other => simpa [hstd, arrayIsObject, hz, hz'] using h
      | object handle =>
        cases ho : s.objects[handle]? with
        | none => simp [hstd, arrayIsObject, hz, ho] at h
        | some o =>
          obtain ⟨o', ho', hsame⟩ := he.objects _ _ ho
          cases o with
          | std properties =>
            cases o' with
            | std properties' =>
              obtain rfl : properties = properties' := hsame
              simpa [hstd, arrayIsObject, hz, hz', ho, ho'] using h
            | spl other => exact hsame.elim
          | spl other =>
            cases o' with
            | std properties' => exact hsame.elim
            | spl other' =>
              obtain ⟨pos', posH', rfl⟩ := hsame
              simp only [hstd, arrayIsObject, hz, hz', ho, ho'] at h ⊢
              split at h
              · rename_i huse
                rw [if_pos huse]
                exact ih hnm h pos' posH'
              · rename_i huse
                rw [if_neg huse]
                simpa using ih hnm (by simpa using h) pos' posH'

theorem Extends.hashTable (he : s.Extends s') (hm : intern.Moved intern') {r : Option Nat}
    (h : s.hashTable intern = .ok r) :
    s'.hashTable intern' = .ok r := by
  have hlen := he.length
  exact he.getHashTable (by omega) hm h

theorem getHashTable_ne_stale (s : Store) (n : Nat) (intern : SplArrayObject)
    (checkStdProps : Bool) : s.splArrayGetHashTable n intern checkStdProps ≠ .error .stale := by
  induction n generalizing intern checkStdProps with
  | zero => exact nofun
  | succ n ih =>
    unfold splArrayGetHashTable
    dsimp only
    split
    · exact nofun
    split
    · split
      · split
        · exact ih _ _
        · exact nofun
      · exact nofun
    split
    · exact nofun
    split
    · exact nofun
    · split
      · exact nofun
      · exact ih _ _
      · exact nofun
    · exact nofun
    · exact nofun

/-- The `array` zval of an object is an array or an object. -/
def HasStorage (s : Store) (intern : SplArrayObject) : Prop :=
  ∃ zval, s.zvals[intern.array]? = some zval ∧ zval ≠ .other

theorem getHashTable_ne_null
    (hs : ∀ (h : Nat) (intern : SplArrayObject), s.objects[h]? = some (.spl intern) →
      s.HasStorage intern) (n : Nat) (hi : s.HasStorage intern) (checkStdProps : Bool) :
    s.splArrayGetHashTable n intern checkStdProps ≠ .ok none := by
  induction n generalizing intern checkStdProps with
  | zero => exact nofun
  | succ n ih =>
    unfold splArrayGetHashTable
    dsimp only
    split
    · exact nofun
    split
    · split
      · split
        · rename_i ho
          exact ih (hs _ _ ho) _
        · exact nofun
      · exact nofun
    split
    · exact nofun
    split
    · exact nofun
    · split
      · exact nofun
      · rename_i ho
        exact ih (hs _ _ ho) _
      · exact nofun
    · rename_i hz
      obtain ⟨zval, hz', hne⟩ := hi
      exact absurd (Option.some.inj (hz'.symm.trans hz)) hne
    · exact nofun

/-- An object without `SPL_ARRAY_IS_REF` stands nowhere or on the list of its table. -/
def Placed (s : Store) (intern : SplArrayObject) : Prop :=
  anyFlag intern.arFlags splArrayIsRef = true ∨ intern.pos = none ∨
    ∃ t ht, SplArrayObject.Iterates s intern t ht ∧ Listed ht intern.pos

/-- The invariant, with one object whose position does not count. -/
structure WfBut (s : Store) (exempt : Option Nat) : Prop where
  tables : ∀ (t : Nat) (ht : HashTable ZvalPtr), s.tables[t]? = some ht → ∃ l, ht.Valid l
  storage : ∀ (handle : Nat) (intern : SplArrayObject),
    s.objects[handle]? = some (.spl intern) → s.HasStorage intern
  placed : ∀ (handle : Nat) (intern : SplArrayObject),
    s.objects[handle]? = some (.spl intern) → exempt ≠ some handle → s.Placed intern

abbrev Wf (s : Store) : Prop := s.WfBut none

def Safe : Except Fault Store → Prop
  | .ok s => s.Wf
  | .error e => e = .undefined

theorem Safe.ne_stale {r : Except Fault Store} (h : Safe r) : r ≠ .error .stale := by
  rintro rfl
  exact nomatch h

def NoTable (s : Store) (intern : SplArrayObject) : Prop :=
  s.hashTable intern = .error .undefined ∨
    ∃ t, s.hashTable intern = .ok (some t) ∧ s.table t = .error .undefined

theorem WfBut.table_cases {exempt : Option Nat} (hw : s.WfBut exempt) (hi : s.HasStorage intern) :
    s.NoTable intern ∨ ∃ t ht l, SplArrayObject.Iterates s intern t ht ∧ ht.Valid l := by
  have hstale := s.getHashTable_ne_stale (2 * s.objects.length + 2) intern false
  have hnull := getHashTable_ne_null hw.storage (2 * s.objects.length + 2) hi false
  cases hr : s.hashTable intern with
  | error e =>
    cases e with
    | stale => exact absurd hr hstale
    | undefined => exact Or.inl (Or.inl hr)
  | ok o =>
    cases o with
    | none => exact absurd hr hnull
    | some t =>
      cases ht : s.tables[t]? with
      | none => exact Or.inl (Or.inr ⟨t, hr, by simp [table, ht]⟩)
      | some ht' =>
        obtain ⟨l, hv⟩ := hw.tables t ht' ht
        exact Or.inr ⟨t, ht', l, ⟨hr, ht⟩, hv⟩

theorem Placed.guarded (h : s.Placed intern) (hi : SplArrayObject.Iterates s intern t ht) :
    SplArrayObject.Guarded ht intern := by
  rcases h with href | hnone | ⟨t', ht', hi', hl⟩
  · exact Or.inl href
  · exact Or.inr (hnone ▸ listed_none ht)
  · have ht' : some t = some t' := Except.ok.inj (hi.hashTable.symm.trans hi'.hashTable)
    obtain rfl := Option.some.inj ht'
    obtain rfl := Option.some.inj (hi.table.symm.trans hi'.table)
    exact Or.inr hl

theorem Placed.mono (he : s.Extends s') (h : s.Placed intern)
    (hkeep : ∀ t ht b, SplArrayObject.Iterates s intern t ht → intern.pos = some b →
      anyFlag intern.arFlags splArrayIsRef = false → b ∈ ht.buckets →
        ∃ ht', s'.tables[t]? = some ht' ∧ b ∈ ht'.buckets) : s'.Placed intern := by
  cases href : anyFlag intern.arFlags splArrayIsRef with
  | true => exact Or.inl href
  | false =>
    rcases h with href' | hnone | ⟨t, ht, hi, hl⟩
    · rw [href] at href'
      exact nomatch href'
    · exact Or.inr (Or.inl hnone)
    · cases hpos : intern.pos with
      | none => exact Or.inr (Or.inl hpos)
      | some b =>
        obtain ⟨ht', htab, hb⟩ := hkeep t ht b hi hpos href (hl b hpos)
        refine Or.inr (Or.inr ⟨t, ht', ⟨?_, htab⟩, ?_⟩)
        · exact he.hashTable (SplArrayObject.Moved.refl intern) hi.hashTable
        · rw [hpos]
          exact fun p hp => Option.some.inj hp ▸ hb

theorem Extends.hasStorage (he : s.Extends s') (hm : intern.Moved intern') (h : s.HasStorage intern)
    : s'.HasStorage intern' := by
  obtain ⟨pos, posH, rfl⟩ := hm
  obtain ⟨zval, hz, hne⟩ := h
  exact ⟨zval, he.zvals _ _ hz, hne⟩

theorem placed_of_listed (hi : SplArrayObject.Iterates s intern t ht) (hm : intern.Moved intern')
    (hl : Listed ht intern'.pos) : s.Placed intern' :=
  Or.inr (Or.inr ⟨t, ht, hi.moved hm, hl⟩)

theorem WfBut.setObject {exempt : Option Nat} (hw : s.WfBut exempt) {handle : Nat}
    (hex : ∀ j, exempt = some j → j = handle) (ho : s.objects[handle]? = some (.spl intern))
    (hm : intern.Moved intern') (hp : s.Placed intern') : (s.setObject handle intern').Wf := by
  have he := extends_setObject ho hm
  have hlt := (List.getElem?_eq_some_iff.mp ho).1
  have hkeep : ∀ i : SplArrayObject, s.Placed i → (s.setObject handle intern').Placed i :=
    fun i hi => hi.mono he fun t ht b hit _ _ hb => ⟨ht, hit.table, hb⟩
  have hsplit : ∀ (j : Nat) (i : SplArrayObject),
      (s.setObject handle intern').objects[j]? = some (.spl i) →
        (j = handle ∧ i = intern') ∨ (j ≠ handle ∧ s.objects[j]? = some (.spl i)) := by
    intro j i hj
    by_cases hjh : j = handle
    · subst hjh
      rw [Store.setObject, List.getElem?_set_self hlt] at hj
      injection hj with hj
      injection hj with hj
      exact Or.inl ⟨rfl, hj.symm⟩
    · rw [Store.setObject, List.getElem?_set_ne (Ne.symm hjh)] at hj
      exact Or.inr ⟨hjh, hj⟩
  refine ⟨hw.tables, fun j i hj => ?_, fun j i hj _ => ?_⟩
  · rcases hsplit j i hj with ⟨-, rfl⟩ | ⟨-, hj⟩
    · exact he.hasStorage hm (hw.storage _ _ ho)
    · exact he.hasStorage (SplArrayObject.Moved.refl i) (hw.storage _ _ hj)
  · rcases hsplit j i hj with ⟨-, rfl⟩ | ⟨hjh, hj⟩
    · exact hkeep _ hp
    · exact hkeep _ (hw.placed _ _ hj fun hx => hjh (hex j hx))

theorem Wf.setTable (hw : s.Wf) {ht' : HashTable ZvalPtr} {gone : List BucketPtr}
    (htab : s.tables[t]? = some ht) (hk : ht.Keeps gone ht') (exempt : Option Nat)
    (hspare : ∀ (handle : Nat) (intern : SplArrayObject) (b : BucketPtr),
      s.objects[handle]? = some (.spl intern) → exempt ≠ some handle →
        anyFlag intern.arFlags splArrayIsRef = false → intern.pos = some b →
          s.hashTable intern = .ok (some t) → b ∉ gone) :
    (s.setTable t ht').WfBut exempt := by
  have he := s.extends_setTable t ht'
  have hlt := (List.getElem?_eq_some_iff.mp htab).1
  refine ⟨fun j hj hget => ?_, fun j i hj => ?_, fun j i hj hne => ?_⟩
  · by_cases hjt : j = t
    · subst hjt
      rw [Store.setTable, List.getElem?_set_self hlt] at hget
      exact Option.some.inj hget ▸ hk.1
    · rw [Store.setTable, List.getElem?_set_ne (Ne.symm hjt)] at hget
      exact hw.tables j hj hget
  · exact he.hasStorage (SplArrayObject.Moved.refl i) (hw.storage _ _ hj)
  · refine (hw.placed _ _ hj nofun).mono he fun t' ht'' b hi hpos href hb => ?_
    by_cases htt : t' = t
    · subst htt
      obtain rfl := Option.some.inj (hi.table.symm.trans htab)
      have hgone := hspare j i b hj hne href hpos hi.hashTable
      exact ⟨ht', List.getElem?_set_self hlt, hk.2 b hb hgone⟩
    · exact ⟨ht'', by rw [Store.setTable, List.getElem?_set_ne (Ne.symm htt)]; exact hi.table, hb⟩

def grow (s : Store) (zvals : List Zval) (tables : List (HashTable ZvalPtr))
    (objects : List ZendObject) : Store :=
  { s with
    zvals := s.zvals ++ zvals
    tables := s.tables ++ tables
    objects := s.objects ++ objects }

theorem getElem?_append_of_some {β : Type} {l : List β} {i : Nat} {x : β} (h : l[i]? = some x)
    (l' : List β) : (l ++ l')[i]? = some x := by
  rw [List.getElem?_append_left (List.getElem?_eq_some_iff.mp h).1]
  exact h

theorem extends_grow (s : Store) (zvals : List Zval) (tables : List (HashTable ZvalPtr))
    (objects : List ZendObject) : s.Extends (s.grow zvals tables objects) :=
  ⟨fun _ _ h => getElem?_append_of_some h _,
    fun _ o h => ⟨o, getElem?_append_of_some h _, sameStorage_refl o⟩, by simp [grow]⟩

theorem Wf.grow (hw : s.Wf) (zvals : List Zval) (tables : List (HashTable ZvalPtr))
    (htables : ∀ ht ∈ tables, ∃ l, ht.Valid l) (objects : List ZendObject)
    (hobjects : ∀ intern, .spl intern ∈ objects → s.HasStorage intern ∧ s.Placed intern) :
    (s.grow zvals tables objects).Wf := by
  have he := s.extends_grow zvals tables objects
  have hkeep : ∀ i : SplArrayObject, s.Placed i → (s.grow zvals tables objects).Placed i :=
    fun i hi => hi.mono he fun t ht b hit _ _ hb =>
      ⟨ht, getElem?_append_of_some hit.table _, hb⟩
  have hsplit : ∀ (j : Nat) (i : SplArrayObject),
      (s.grow zvals tables objects).objects[j]? = some (.spl i) →
        s.objects[j]? = some (.spl i) ∨ .spl i ∈ objects := by
    intro j i hj
    by_cases hlt : j < s.objects.length
    · exact Or.inl (by simpa [Store.grow, List.getElem?_append_left hlt] using hj)
    · rw [Store.grow, List.getElem?_append_right (by omega)] at hj
      exact Or.inr (List.mem_of_getElem? hj)
  refine ⟨fun t ht hget => ?_, fun j i hj => ?_, fun j i hj _ => ?_⟩
  · by_cases hlt : t < s.tables.length
    · exact hw.tables t ht (by simpa [Store.grow, List.getElem?_append_left hlt] using hget)
    · rw [Store.grow, List.getElem?_append_right (by omega)] at hget
      exact htables ht (List.mem_of_getElem? hget)
  · refine he.hasStorage (SplArrayObject.Moved.refl i) ?_
    rcases hsplit j i hj with hj | hj
    · exact hw.storage _ _ hj
    · exact (hobjects i hj).1
  · rcases hsplit j i hj with hj | hj
    · exact hkeep i (hw.placed _ _ hj nofun)
    · exact hkeep i (hobjects i hj).2

end Store

end Php53.Spl
