import Php53.Zend.Identical

/-!
# CompareArrays — `==` on arrays

The unordered `zend_hash_compare` looks the keys of one table up in the other one.  That the other
one has no further keys follows from the number of the elements.
-/

open Reasoning

namespace Php53.Zend

open List

variable {α : Type}

/-- `zend_compare_arrays`; a `compar` stands for `hash_zval_compare_function`. -/
def zendCompareArrays (compar : CompareFunc α) (tables : Tables α) (ht1 ht2 : TablePtr) :
    Except Abort (Int × Tables α) :=
  if ht1 = ht2 then .ok (0, tables) else zendHashCompare compar tables ht1 ht2 false

def Equates (compar : CompareFunc α) (tables : Tables α) (a b : α) : Prop :=
  compar tables a b = .ok (0, tables)

def Restores (compar : CompareFunc α) (tables : Tables α) : Prop :=
  ∀ a b r t, compar tables a b = .ok (r, t) → t = tables

/-- The same set of keys, and `E` holds of the two values of every key. -/
def SameEntries (E : α → α → Prop) (ht1 ht2 : HashTable α) : Prop :=
  (∀ k, k ∈ ht1.listKeys ↔ k ∈ ht2.listKeys) ∧
    ∀ p1 ∈ ht1.buckets, ∀ p2 ∈ ht2.buckets, ht1.key p1 = ht2.key p2 →
      E (ht1.pData p1) (ht2.pData p2)

def ArraysEqual (compar : CompareFunc α) (tables : Tables α) (ht1 ht2 : TablePtr) : Prop :=
  ∃ t, zendCompareArrays compar tables ht1 ht2 = .ok (0, t)

def HashTable.entries (ht : HashTable α) : List (HashKey × α) :=
  ht.buckets.map fun p => (ht.key p, ht.pData p)

/-- The same table with its elements inserted in another order. -/
structure Reordered (ht ht' : HashTable α) : Prop where
  exact : ∃ l, ht'.Exact l
  entries : ht.entries.Perm ht'.entries
  protection : ht.bApplyProtection = ht'.bApplyProtection
  applyCount : ht.nApplyCount = ht'.nApplyCount

section

variable {compar : CompareFunc α} {tables : Tables α} {ht1 ht2 : TablePtr} {l1 l2 : List BucketPtr}
  {E : α → α → Prop}

theorem comparePartner_lookup {t1 t2 : HashTable α} (h1 : t1.Valid l1) (h2 : t2.Valid l2)
    {p : BucketPtr} (hp : p ∈ l1) :
    comparePartner false t1 p t2 none =
      match t2.lookup l2 (t1.key p) with
      | none => .ok (.inl 1)
      | some q => .ok (.inr (t2.pData q)) := by
  have hfind : (if t1.nKeyLength p = 0 then t2.zendHashIndexFind (t1.h p)
      else t2.zendHashQuickFind (t1.arKey p) (t1.h p)) = some (t2.lookup l2 (t1.key p)) := by
    unfold HashTable.key
    by_cases hk : t1.nKeyLength p = 0
    · rw [if_pos hk, if_pos hk]
      exact h2.find_matchesIndex (t1.h p)
    · have ⟨hhash, hlen⟩ := h1.hash p hp hk
      have hne : ¬ (t1.arKey p).length = 0 := by omega
      rw [if_neg hk, if_neg hk, HashTable.zendHashQuickFind, if_neg hne,
        h2.find_matchesKey fun _ => hhash, HashKey.ofArKey, if_neg hne]
  unfold comparePartner
  rw [if_neg (by decide), hfind]
  cases t2.lookup l2 (t1.key p) <;> rfl

theorem compareLoop_unordered (h1 : (tables ht1).Valid l1) (h2 : (tables ht2).Valid l2)
    (hc : Restores compar tables) {b : List BucketPtr} (hb : ∀ p ∈ b, p ∈ l1) {n : Nat}
    (hn : b.length ≤ n) {p1 : Option BucketPtr} (hw : Walk (tables ht1).pListNext p1 b) :
    (∃ t, compareLoop compar false ht1 ht2 n p1 none tables = .ok (0, t)) ↔
      ∀ p ∈ b, ∃ q, (tables ht2).lookup l2 ((tables ht1).key p) = some q ∧
        Equates compar tables ((tables ht1).pData p) ((tables ht2).pData q) := by
  induction b generalizing n p1 with
  | nil =>
    rw [show p1 = none from hw]
    constructor
    · intro _ p hp
      exact absurd hp not_mem_nil
    · intro _
      exact ⟨tables, by cases n <;> rfl⟩
  | cons x b ih =>
    have hx : p1 = some x := hw.1
    have hw' : Walk (tables ht1).pListNext ((tables ht1).pListNext x) b := hw.2
    cases n with
    | zero => exact absurd hn (by rw [length_cons]; omega)
    | succ n =>
      have ih := ih (fun p hp => hb p (mem_cons_of_mem _ hp)) (Nat.le_of_succ_le_succ hn) hw'
      rw [forall_mem_cons, ← ih, hx, compareLoop,
        comparePartner_lookup h1 h2 (hb x mem_cons_self)]
      cases hq : (tables ht2).lookup l2 ((tables ht1).key x) with
      | none =>
        constructor
        · intro h
          obtain ⟨t, ht⟩ := h
          exact absurd (Prod.mk.inj (Except.ok.inj ht)).1 (by decide)
        · intro h
          obtain ⟨q, hq', _⟩ := h.1
          cases hq'
      | some q =>
        dsimp only
        cases hcmp : compar tables ((tables ht1).pData x) ((tables ht2).pData q) with
        | error e =>
          constructor
          · intro h
            obtain ⟨t, ht⟩ := h
            cases ht
          · intro h
            obtain ⟨q', hq', he⟩ := h.1
            rw [← Option.some.inj hq', Equates, hcmp] at he
            cases he
        | ok rt =>
          have ht : rt.2 = tables := hc _ _ rt.1 rt.2 hcmp
          have hequates : Equates compar tables ((tables ht1).pData x) ((tables ht2).pData q) ↔
              rt.1 = 0 := by
            rw [Equates, hcmp, Except.ok.injEq]
            exact ⟨fun h => congrArg Prod.fst h, fun h => Prod.ext h ht⟩
          have hhead : (∃ q', some q = some q' ∧
              Equates compar tables ((tables ht1).pData x) ((tables ht2).pData q')) ↔ rt.1 = 0 := by
            rw [← hequates]
            constructor
            · rintro ⟨q', hq', he⟩
              exact Option.some.inj hq' ▸ he
            · exact fun he => ⟨q, rfl, he⟩
          rw [hhead]
          show (∃ t, (if rt.1 ≠ 0 then .ok (rt.1, rt.2)
            else compareLoop compar false ht1 ht2 n ((rt.2 ht1).pListNext x) none rt.2) =
              Except.ok (0, t)) ↔ _
          rw [ht]
          by_cases hr : rt.1 = 0
          · rw [if_neg (not_not.mpr hr), and_iff_right hr]
          · rw [if_pos hr]
            constructor
            · intro h
              obtain ⟨t, ht⟩ := h
              exact absurd (Prod.mk.inj (Except.ok.inj ht)).1 hr
            · intro h
              exact absurd h.1 hr

theorem sameEntries_iff {t1 t2 : HashTable α} (h1 : t1.Valid l1) (h2 : t2.Valid l2) :
    SameEntries E t1 t2 ↔ l1.length = l2.length ∧
      ∀ p ∈ l1, ∃ q, t2.lookup l2 (t1.key p) = some q ∧ E (t1.pData p) (t2.pData q) := by
  unfold SameEntries
  rw [h1.listKeys_eq, h2.listKeys_eq, h1.buckets_eq, h2.buckets_eq]
  constructor
  · intro h
    have hperm : (l1.map t1.key).Perm (l2.map t2.key) :=
      (perm_ext_iff_of_nodup h1.keys h2.keys).mpr h.1
    have hlen := hperm.length_eq
    rw [length_map, length_map] at hlen
    refine ⟨hlen, fun p hp => ?_⟩
    cases hq : t2.lookup l2 (t1.key p) with
    | none =>
      have hmem := (h.1 (t1.key p)).mp (mem_map_of_mem hp)
      exact absurd hmem (HashTable.lookup_none.mp hq)
    | some q =>
      have ⟨hql, hkey⟩ := HashTable.lookup_some hq
      exact ⟨q, rfl, h.2 p hp q hql hkey.symm⟩
  · intro h
    have hsub : l1.map t1.key ⊆ l2.map t2.key := by
      intro k hk
      have ⟨p, hp, hkey⟩ := mem_map.mp hk
      have ⟨q, hq, _⟩ := h.2 p hp
      have ⟨hql, hqkey⟩ := HashTable.lookup_some hq
      rw [← hkey, ← hqkey]
      exact mem_map_of_mem hql
    have hperm : (l1.map t1.key).Perm (l2.map t2.key) := by
      apply (h1.keys.subperm hsub).perm_of_length_le
      rw [length_map, length_map, h.1]
    refine ⟨fun k => hperm.mem_iff, fun p hp q hq hkey => ?_⟩
    have ⟨q', hq', he⟩ := h.2 p hp
    rw [hkey, h2.lookup_eq hq] at hq'
    rw [Option.some.inj hq']
    exact he

theorem zendHashCompare_unordered (h1 : (tables ht1).Exact l1) (h2 : (tables ht2).Exact l2)
    (hc : Restores compar (visit (visit tables ht1) ht2)) :
    (∃ t, zendHashCompare compar tables ht1 ht2 false = .ok (0, t)) ↔
      ¬ GuardTrips tables ht1 ht2 ∧
        SameEntries (Equates compar (visit (visit tables ht1) ht2)) (tables ht1) (tables ht2) := by
  have hprot := protect_both tables ht1 ht2
  have ⟨n1, hn1⟩ := visit_visit_eq_setApplyCount tables ht1 ht2 ht1
  have ⟨n2, hn2⟩ := visit_visit_eq_setApplyCount tables ht1 ht2 ht2
  generalize visit (visit tables ht1) ht2 = T at *
  have h1' : (T ht1).Exact l1 := hn1 ▸ h1.setApplyCount n1
  have h2' : (T ht2).Exact l2 := hn2 ▸ h2.setApplyCount n2
  have hsame : SameEntries (Equates compar T) (tables ht1) (tables ht2) ↔
      SameEntries (Equates compar T) (T ht1) (T ht2) := by
    rw [sameEntries_iff h1.toValid h2.toValid, sameEntries_iff h1'.toValid h2'.toValid, hn1, hn2]
    exact Iff.rfl
  have hrun : zendHashCompare compar tables ht1 ht2 false =
      (protectRecursion tables ht1 >>= fun tables => protectRecursion tables ht2) >>= fun T =>
        compareProtected compar T ht1 ht2 false >>= fun x =>
          .ok (x.1, unprotectRecursion (unprotectRecursion x.2 ht1) ht2) := by
    rw [bind_assoc]
    rfl
  rw [hrun, hprot, hsame]
  by_cases hg : GuardTrips tables ht1 ht2
  · rw [if_pos hg]
    constructor
    · intro h
      have ⟨t, ht⟩ := h
      exact nomatch ht
    · intro h
      exact absurd hg h.1
  rw [if_neg hg, and_iff_right hg, sameEntries_iff h1'.toValid h2'.toValid]
  have hcount := h1'.uintDiff_iff h2'
  have hloop := compareLoop_unordered h1'.toValid h2'.toValid hc (fun _ hp => hp)
    h1'.live.length_eq.ge (h1'.list.head_eq ▸ h1'.list.linked.walk)
  -- the tables that the loop returns are unprotected, which does not change the result
  have hresult : (∃ t, (compareProtected compar T ht1 ht2 false >>= fun x =>
        .ok (x.1, unprotectRecursion (unprotectRecursion x.2 ht1) ht2)) = Except.ok (0, t)) ↔
      ∃ t, compareProtected compar T ht1 ht2 false = .ok (0, t) := by
    cases hx : compareProtected compar T ht1 ht2 false with
    | error e => exact ⟨fun ⟨t, ht⟩ => (nomatch ht), fun ⟨t, ht⟩ => (nomatch ht)⟩
    | ok x =>
      constructor
      · intro h
        have ⟨t, ht⟩ := h
        exact ⟨x.2, congrArg Except.ok (Prod.ext (Prod.mk.inj (Except.ok.inj ht)).1 rfl)⟩
      · intro h
        have ⟨t, ht⟩ := h
        have hzero : x.1 = 0 := congrArg Prod.fst (Except.ok.inj ht)
        refine ⟨unprotectRecursion (unprotectRecursion x.2 ht1) ht2, ?_⟩
        show Except.ok (x.1, _) = _
        rw [hzero]
  refine hresult.trans ?_
  unfold compareProtected
  by_cases hd : uintDiff (T ht1).nNumOfElements (T ht2).nNumOfElements = 0
  · rw [if_neg (not_not.mpr hd), and_iff_right (hcount.mp hd)]
    exact hloop
  · rw [if_pos hd]
    constructor
    · intro h
      have ⟨t, ht⟩ := h
      exact absurd (Prod.mk.inj (Except.ok.inj ht)).1 hd
    · intro h
      exact absurd (hcount.mpr h.1) hd

theorem guardTrips_comm (hne : ht1 ≠ ht2) : GuardTrips tables ht1 ht2 ↔ GuardTrips tables ht2 ht1 := by
  unfold GuardTrips
  rw [if_neg hne, if_neg hne.symm, Nat.add_zero, Nat.add_zero]
  exact or_comm

theorem SameEntries.symm (hE : ∀ a b, E a b → E b a) {t1 t2 : HashTable α}
    (h : SameEntries E t1 t2) : SameEntries E t2 t1 := by
  constructor
  · intro k
    exact (h.1 k).symm
  · intro p hp q hq hkey
    exact hE _ _ (h.2 q hq p hp hkey.symm)

theorem sameEntries_entries {t1 t2 : HashTable α} :
    SameEntries E t1 t2 ↔ (∀ k, k ∈ t1.entries.map Prod.fst ↔ k ∈ t2.entries.map Prod.fst) ∧
      ∀ e1 ∈ t1.entries, ∀ e2 ∈ t2.entries, e1.1 = e2.1 → E e1.2 e2.2 := by
  have hkeys : ∀ ht : HashTable α, ht.entries.map Prod.fst = ht.listKeys := by
    intro ht
    unfold HashTable.entries HashTable.listKeys
    rw [map_map]
    rfl
  unfold SameEntries
  rw [hkeys, hkeys]
  apply and_congr_right
  intro _
  unfold HashTable.entries
  constructor
  · intro h e1 he1 e2 he2 hkey
    have ⟨p1, hp1, hpe1⟩ := mem_map.mp he1
    have ⟨p2, hp2, hpe2⟩ := mem_map.mp he2
    rw [← hpe1, ← hpe2] at hkey ⊢
    exact h p1 hp1 p2 hp2 hkey
  · intro h p1 hp1 p2 hp2 hkey
    exact h (t1.key p1, t1.pData p1) (mem_map_of_mem hp1) (t2.key p2, t2.pData p2)
      (mem_map_of_mem hp2) hkey

theorem SameEntries.congr {E' : α → α → Prop} (hE : ∀ a b, E a b ↔ E' a b)
    {t1 t2 t1' t2' : HashTable α} (h1 : t1.entries.Perm t1'.entries)
    (h2 : t2.entries.Perm t2'.entries) : SameEntries E t1 t2 ↔ SameEntries E' t1' t2' := by
  rw [sameEntries_entries, sameEntries_entries]
  simp only [(h1.map Prod.fst).mem_iff, (h2.map Prod.fst).mem_iff, h1.mem_iff, h2.mem_iff, hE]

theorem arraysEqual_of_ne (hne : ht1 ≠ ht2) (h1 : (tables ht1).Exact l1) (h2 : (tables ht2).Exact l2)
    (hc : Restores compar (visit (visit tables ht1) ht2)) :
    ArraysEqual compar tables ht1 ht2 ↔ ¬ GuardTrips tables ht1 ht2 ∧
      SameEntries (Equates compar (visit (visit tables ht1) ht2)) (tables ht1) (tables ht2) := by
  rw [← zendHashCompare_unordered h1 h2 hc]
  unfold ArraysEqual zendCompareArrays
  rw [if_neg hne]

theorem arraysEqual_self (compar : CompareFunc α) (tables : Tables α) (ht : TablePtr) :
    ArraysEqual compar tables ht ht := ⟨tables, if_pos rfl⟩

theorem arraysEqual_comm (h1 : (tables ht1).Exact l1) (h2 : (tables ht2).Exact l2)
    (hc : Restores compar (visit (visit tables ht1) ht2))
    (hsymm : ∀ a b, Equates compar (visit (visit tables ht1) ht2) a b →
      Equates compar (visit (visit tables ht1) ht2) b a) :
    ArraysEqual compar tables ht1 ht2 ↔ ArraysEqual compar tables ht2 ht1 := by
  by_cases hne : ht1 = ht2
  · rw [hne]
  · have hcomm := visit_comm tables ht1 ht2
    have hc' : Restores compar (visit (visit tables ht2) ht1) := hcomm ▸ hc
    rw [arraysEqual_of_ne hne h1 h2 hc, arraysEqual_of_ne (Ne.symm hne) h2 h1 hc', ← hcomm,
      guardTrips_comm hne]
    exact and_congr_right fun _ => ⟨SameEntries.symm hsymm, SameEntries.symm hsymm⟩

theorem arraysEqual_reordered {tables' : Tables α} (h1 : (tables ht1).Exact l1)
    (h2 : (tables ht2).Exact l2) (hr1 : Reordered (tables ht1) (tables' ht1))
    (hr2 : Reordered (tables ht2) (tables' ht2))
    (hc : Restores compar (visit (visit tables ht1) ht2))
    (hc' : Restores compar (visit (visit tables' ht1) ht2))
    (hE : ∀ a b, Equates compar (visit (visit tables ht1) ht2) a b ↔
      Equates compar (visit (visit tables' ht1) ht2) a b) :
    ArraysEqual compar tables ht1 ht2 ↔ ArraysEqual compar tables' ht1 ht2 := by
  by_cases hne : ht1 = ht2
  · subst hne
    exact ⟨fun _ => arraysEqual_self compar tables' ht1, fun _ => arraysEqual_self compar tables ht1⟩
  · have ⟨l1', h1'⟩ := hr1.exact
    have ⟨l2', h2'⟩ := hr2.exact
    have hguard : GuardTrips tables ht1 ht2 ↔ GuardTrips tables' ht1 ht2 := by
      unfold GuardTrips
      rw [hr1.protection, hr1.applyCount, hr2.protection, hr2.applyCount]
    rw [arraysEqual_of_ne hne h1 h2 hc, arraysEqual_of_ne hne h1' h2' hc', hguard,
      SameEntries.congr hE hr1.entries hr2.entries]

end

/-- Where the guard does not stop it, the unordered comparison returns 0 exactly for tables with the
same keys and equal values; so `==` does not depend on the side an array stands on, nor on the order
of the elements.  The comparison function may stop the request, as it does in the guard of an array
among the values, and is as good as it was for the values of the reordered tables. -/
theorem zendCompareArrays_unordered {compar : CompareFunc α} (hc : ∀ T, Restores compar T)
    (hsymm : ∀ T a b, Equates compar T a b → Equates compar T b a)
    {tables : Tables α} {ht1 ht2 : TablePtr} {l1 l2 : List BucketPtr}
    (h1 : (tables ht1).Exact l1) (h2 : (tables ht2).Exact l2) :
    ((∃ t, zendHashCompare compar tables ht1 ht2 false = .ok (0, t)) ↔
        ¬ GuardTrips tables ht1 ht2 ∧
          SameEntries (Equates compar (visit (visit tables ht1) ht2)) (tables ht1) (tables ht2)) ∧
      (ArraysEqual compar tables ht1 ht2 ↔ ArraysEqual compar tables ht2 ht1) ∧
      ∀ tables' : Tables α, Reordered (tables ht1) (tables' ht1) →
        Reordered (tables ht2) (tables' ht2) →
        (∀ a b, Equates compar (visit (visit tables ht1) ht2) a b ↔
          Equates compar (visit (visit tables' ht1) ht2) a b) →
        (ArraysEqual compar tables ht1 ht2 ↔ ArraysEqual compar tables' ht1 ht2) := by
  refine ⟨zendHashCompare_unordered h1 h2 (hc _), arraysEqual_comm h1 h2 (hc _) (hsymm _), ?_⟩
  intro tables' hr1 hr2 hE
  exact arraysEqual_reordered h1 h2 hr1 hr2 (hc _) (hc _) hE

def pureCompare (cmp : α → α → Int) : CompareFunc α := fun t a b => .ok (cmp a b, t)

theorem restores_pureCompare (cmp : α → α → Int) (T : Tables α) : Restores (pureCompare cmp) T := by
  intro a b r t h
  exact (Prod.mk.inj (Except.ok.inj h)).2.symm

theorem equates_pureCompare (cmp : α → α → Int) (T : Tables α) (a b : α) :
    Equates (pureCompare cmp) T a b ↔ cmp a b = 0 := by
  show Except.ok (cmp a b, T) = Except.ok (0, T) ↔ _
  rw [Except.ok.injEq, Prod.mk.injEq]
  exact and_iff_left rfl

def pointerCompare (a b : ZvalPtr) : Int := if a = b then 0 else 1

/-- `array(0 => $z2, 1 => $z3)` and `array(1 => $z3, 0 => $z2)` -/
def turnedTables : Tables ZvalPtr
  | 0 => twoElementArray 0 2 1 3
  | _ => twoElementArray 1 3 0 2

theorem reordered_twoElementArray {key1 key2 : BitVec 64} (hne : key1 ≠ key2)
    (value1 value2 : ZvalPtr) :
    Reordered (twoElementArray key1 value1 key2 value2) (twoElementArray key2 value2 key1 value1) := by
  refine ⟨⟨_, twoElementArray_exact hne.symm _ _⟩, ?_, rfl, rfl⟩
  unfold HashTable.entries
  rw [(twoElementArray_exact hne _ _).buckets_eq, (twoElementArray_exact hne.symm _ _).buckets_eq]
  exact Perm.swap _ _ _

/-- The two tables are equal, from either side, and so are tables with the two in the other order. -/
theorem zendCompareArrays_unordered_sample :
    (∃ t, zendHashCompare (pureCompare pointerCompare) turnedTables 0 1 false = .ok (0, t)) ∧
      ArraysEqual (pureCompare pointerCompare) turnedTables 1 0 ∧
      ArraysEqual (pureCompare pointerCompare) (turnedTables ∘ (1 - ·)) 0 1 := by
  have hsymm : ∀ (T : Tables ZvalPtr) a b, Equates (pureCompare pointerCompare) T a b →
      Equates (pureCompare pointerCompare) T b a := by
    intro T a b h
    rw [equates_pureCompare, pointerCompare] at h ⊢
    by_cases hab : a = b
    · rw [if_pos hab.symm]
    · rw [if_neg hab] at h
      exact absurd h (by decide)
  have hx0 : (turnedTables 0).Exact [0, 1] := twoElementArray_exact (by decide) ..
  have hx1 : (turnedTables 1).Exact [0, 1] := twoElementArray_exact (by decide) ..
  obtain ⟨hcmp, hcomm, hreordered⟩ :=
    zendCompareArrays_unordered (restores_pureCompare pointerCompare) hsymm hx0 hx1
  have hentries : SameEntries (Equates (pureCompare pointerCompare) (visit (visit turnedTables 0) 1))
      (turnedTables 0) (turnedTables 1) := by
    constructor
    · intro k
      rw [hx0.listKeys_eq, hx1.listKeys_eq]
      exact (Perm.swap _ _ []).mem_iff
    · rw [hx0.buckets_eq, hx1.buckets_eq]
      intro p1 hp1 p2 hp2 hkey
      rw [equates_pureCompare]
      rcases mem_pair.mp hp1 with rfl | rfl <;> rcases mem_pair.mp hp2 with rfl | rfl
      · exact absurd hkey (by decide)
      · rfl
      · rfl
      · exact absurd hkey (by decide)
  have hequal := hcmp.mpr ⟨by decide, hentries⟩
  refine ⟨hequal, hcomm.mp hequal, (hreordered (turnedTables ∘ (1 - ·)) ?_ ?_ ?_).mp hequal⟩
  · exact reordered_twoElementArray (by decide) ..
  · exact reordered_twoElementArray (by decide) ..
  · exact fun a b => by rw [equates_pureCompare, equates_pureCompare]

/-- `array(0 => $z2)` twice, each inside three comparisons already. -/
def guardedTables : Tables ZvalPtr := fun _ => (oneElementArray 0 2).setApplyCount 3

/-- The two tables have the same entries, and the guard ends the request. -/
theorem zendHashCompare_guarded :
    ((guardedTables 0).Exact [0] ∧ (guardedTables 1).Exact [0]) ∧
      (SameEntries (fun a b => pointerCompare a b = 0) (guardedTables 0) (guardedTables 1) ∧
        ¬ ∃ t, zendHashCompare (pureCompare pointerCompare) guardedTables 0 1 false = .ok (0, t)) := by
  have hx : (guardedTables 0).Exact [0] := (oneElementArray_exact 0 2).setApplyCount 3
  refine ⟨⟨hx, hx⟩, ?_, ?_⟩
  · refine ⟨fun k => Iff.rfl, ?_⟩
    show ∀ p1 ∈ (guardedTables 0).buckets, ∀ p2 ∈ (guardedTables 0).buckets, _
    rw [hx.buckets_eq]
    intro p1 hp1 p2 hp2 _
    rw [List.mem_singleton.mp hp1, List.mem_singleton.mp hp2]
    rfl
  · intro h
    have ⟨t, ht⟩ := h
    exact nomatch ht

end Php53.Zend
