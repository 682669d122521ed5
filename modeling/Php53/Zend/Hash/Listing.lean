import Php53.Zend.Hash.Runs

/-!
# Listing — what an operation leaves on the list of a HashTable

Whoever holds a bucket pointer of its own wants to know which operations take the bucket away:
`deletes` names the buckets, and `Keeps` says that all the others stay.
-/

open Reasoning

namespace Php53.Zend

namespace HashTable

variable {α : Type}

variable {l : List BucketPtr} {ht : HashTable α}

/-- The bucket that `zend_hash_del_key_or_index` deletes. -/
def deletedBucket (ht : HashTable α) (arKey : List UInt8) (h : BitVec 64) (flag : HashDelFlag) :
    Option BucketPtr :=
  let h := if flag = .delKey then zendInlineHashFunc arKey else h
  (ht.chainFind (fun p => ht.h p == h && ht.nKeyLength p == arKey.length &&
    (ht.nKeyLength p == 0 || memcmpEq (ht.arKey p) arKey arKey.length)) ht.live.length
      (ht.arBuckets (ht.index h))).join

def deletes (ht : HashTable α) : HashOp α → List BucketPtr
  | .delKeyOrIndex arKey h flag => (ht.deletedBucket arKey h flag).toList
  | .applyDeleter p => [p]
  | .clean => ht.buckets
  | _ => []

/-- Insertions, overwrites, deletions and what reorders a table: everything but changing the key of
an element in place. -/
def Edits : HashOp α → Prop
  | .updateCurrentKeyEx _ _ _ _ _ _ => False
  | _ => True

/-- `ht'` still lists what `ht` lists, but for the buckets in `gone`. -/
def Keeps (ht : HashTable α) (gone : List BucketPtr) (ht' : HashTable α) : Prop :=
  (∃ l, ht'.Valid l) ∧ ∀ p ∈ ht.buckets, p ∉ gone → p ∈ ht'.buckets

section

variable (hv : ht.Valid l) {ht' : HashTable α}

include hv

theorem Valid.keeps_of_subset {l' : List BucketPtr} (hv' : ht'.Valid l') {gone : List BucketPtr}
    (h : ∀ p ∈ l, p ∉ gone → p ∈ l') :
    ht.Keeps gone ht' := by
  refine ⟨⟨l', hv'⟩, ?_⟩
  rw [hv.buckets_eq, hv'.buckets_eq]
  exact h

theorem Valid.list_unique {l' : List BucketPtr} (hv' : ht'.Valid l')
    (hnext : ht'.pListNext = ht.pListNext) (hhead : ht'.pListHead = ht.pListHead) : l = l' := by
  have hw := hv.representation.forwards
  have hw' := hv'.representation.forwards
  rw [hnext, hhead] at hw'
  exact hw.unique hw'

theorem Valid.keeps_self (gone : List BucketPtr) : ht.Keeps gone ht :=
  hv.keeps_of_subset hv fun _ hp _ => hp

theorem Valid.keeps_deleteBucket {p : BucketPtr}
    (hp : p ∈ l) : ht.Keeps [p] (ht.deleteBucket p) := by
  refine hv.keeps_of_subset (hv.delete hp) fun q hq hne => ?_
  rw [hv.list.nodup.mem_erase_iff]
  exact ⟨by simpa using hne, hq⟩

theorem Valid.del_keeps (arKey : List UInt8) (h : BitVec 64) (flag : HashDelFlag) :
    ∃ o, ht.zendHashDelKeyOrIndex arKey h flag = some o ∧
      ht.Keeps (ht.deletedBucket arKey h flag).toList o.table := by
  unfold HashTable.zendHashDelKeyOrIndex deletedBucket
  dsimp only
  generalize (if flag = .delKey then zendInlineHashFunc arKey else h) = h
  obtain ⟨o, he, ho⟩ := hv.chainFind_deletes arKey h
  rw [he]
  cases o with
  | none => exact ⟨_, rfl, hv.keeps_self _⟩
  | some p =>
    obtain ⟨hp, hph, -⟩ := ho p rfl
    refine ⟨_, rfl, ?_⟩
    dsimp only
    rw [← hph, hv.deleteBucketByHead_eq hp]
    exact hv.keeps_deleteBucket hp

theorem Valid.addOrUpdateHashed_keeps {arKey : List UInt8} {h : BitVec 64}
    (hh : arKey ≠ [] → h = zendInlineHashFunc arKey) (pData : α) (nDataSize flag : Nat)
    {mem : Pemalloc} (hmem : ht.Fresh mem) :
    ∃ o, ht.addOrUpdateHashed arKey h pData nDataSize flag mem = some o ∧
      ht.Keeps [] o.table := by
  cases hl : ht.lookup l (HashKey.ofArKey arKey h) with
  | some p =>
    refine ⟨_, hv.addOrUpdateHashed_found hh hl pData nDataSize flag mem, ?_⟩
    split
    · exact hv.keeps_self _
    · exact hv.keeps_of_subset (hv.updateData p pData) fun _ hp _ => hp
  | none =>
    by_cases hok : mem.bucket = none ∨ initDataOk nDataSize mem = false
    · exact ⟨_, hv.addOrUpdateHashed_noMemory hh hl pData nDataSize flag hok, hv.keeps_self _⟩
    obtain ⟨hb, hd⟩ := not_or.mp hok
    obtain ⟨p, hp⟩ := Option.ne_none_iff_exists'.mp hb
    obtain ⟨ht', he, -, hv'⟩ := hv.addOrUpdateHashed_new hh hl pData nDataSize flag hmem hp
      (by simpa using hd)
    exact ⟨_, he, hv.keeps_of_subset hv' fun _ hq _ => List.mem_append_left _ hq⟩

theorem Valid.indexUpdate_keeps (h : BitVec 64) (pData : α) (nDataSize flag : Nat) {mem : Pemalloc}
    (hmem : ht.Fresh mem) :
    ∃ o, ht.zendHashIndexUpdateOrNextInsert h pData nDataSize flag mem = some o ∧
      ht.Keeps [] o.table := by
  cases hl : ht.lookup l (.index (ht.insertIndex h flag)) with
  | some p =>
    refine ⟨_, hv.indexUpdate_found hl pData nDataSize mem, ?_⟩
    split
    · exact hv.keeps_self _
    · exact hv.keeps_of_subset ((hv.updateData p pData).setNextFreeElement _) fun _ hp _ => hp
  | none =>
    by_cases hok : mem.bucket = none ∨ initDataOk nDataSize mem = false
    · exact ⟨_, hv.indexUpdate_noMemory hl pData nDataSize hok, hv.keeps_self _⟩
    obtain ⟨hb, hd⟩ := not_or.mp hok
    obtain ⟨p, hp⟩ := Option.ne_none_iff_exists'.mp hb
    obtain ⟨ht', he, -, hv'⟩ := hv.indexUpdate_new hl pData nDataSize hmem hp (by simpa using hd)
    exact ⟨_, he, hv.keeps_of_subset hv' fun _ hq _ => List.mem_append_left _ hq⟩

theorem Valid.step_keeps {op : HashOp α} (hok : ht.OpOk op) (hedit : Edits op)
    (hs : ht.step op = some ht') :
    ht.Keeps (ht.deletes op) ht' := by
  cases op with
  | addOrUpdate arKey pData nDataSize flag mem =>
    obtain ⟨o, he, rfl⟩ := Option.map_eq_some_iff.mp hs
    rw [zendHashAddOrUpdate] at he
    split at he
    · obtain rfl := Option.some.inj he
      exact hv.keeps_self _
    · obtain ⟨o', he', hk⟩ := hv.addOrUpdateHashed_keeps (fun _ => rfl) pData nDataSize flag hok
      rw [he'] at he
      exact Option.some.inj he ▸ hk
  | quickAddOrUpdate arKey h pData nDataSize flag mem =>
    obtain ⟨o, he, rfl⟩ := Option.map_eq_some_iff.mp hs
    rw [zendHashQuickAddOrUpdate] at he
    split at he
    · obtain ⟨o', he', hk⟩ := hv.indexUpdate_keeps h pData nDataSize hashUpdate hok.1
      rw [he'] at he
      exact Option.some.inj he ▸ hk
    · obtain ⟨o', he', hk⟩ := hv.addOrUpdateHashed_keeps hok.2 pData nDataSize flag hok.1
      rw [he'] at he
      exact Option.some.inj he ▸ hk
  | indexUpdateOrNextInsert h pData nDataSize flag mem =>
    obtain ⟨o, he, rfl⟩ := Option.map_eq_some_iff.mp hs
    obtain ⟨o', he', hk⟩ := hv.indexUpdate_keeps h pData nDataSize flag hok
    rw [he'] at he
    exact Option.some.inj he ▸ hk
  | delKeyOrIndex arKey h flag =>
    obtain ⟨o, he, rfl⟩ := Option.map_eq_some_iff.mp hs
    obtain ⟨o', he', hk⟩ := hv.del_keeps arKey h flag
    rw [he'] at he
    exact Option.some.inj he ▸ hk
  | applyDeleter p =>
    rw [← Option.some.inj hs, zendHashApplyDeleter_fst]
    exact hv.keeps_deleteBucket (hv.live.mem_iff.mp hok)
  | updateCurrentKeyEx => exact hedit.elim
  | rehash =>
    obtain ⟨ht1, he, -, hv'⟩ := hv.zendHashRehash
    obtain rfl := Option.some.inj (he.symm.trans hs)
    exact hv.keeps_of_subset hv' fun _ hp _ => hp
  | doResize mem =>
    obtain ⟨ht1, he, -, hv'⟩ := hv.zendHashDoResize mem
    obtain rfl := Option.some.inj (he.symm.trans hs)
    exact hv.keeps_of_subset hv' fun _ hp _ => hp
  | sort sortFunc renumber mem =>
    obtain ⟨o, he, rfl⟩ := Option.map_eq_some_iff.mp hs
    rcases hv.zendHashSort_cases (hok l) renumber mem with ⟨-, hnone⟩ | ⟨o', he', hcases⟩
    · rw [hnone] at he
      cases he
    rw [he'] at he
    obtain rfl := Option.some.inj he
    have hsub : ∀ p ∈ l, p ∈ sortFunc l := fun p hp => (hok l).mem_iff.mpr hp
    rcases hcases with hself | ⟨hv', -⟩ | ⟨-, -, hv', -⟩
    · rw [hself]
      exact hv.keeps_self _
    · exact hv.keeps_of_subset hv' fun p hp _ => hsub p hp
    · exact hv.keeps_of_subset hv' fun p hp _ => hsub p hp
  | clean =>
    obtain ⟨ht1, he, hv', -⟩ := hv.zendHashClean
    obtain rfl := Option.some.inj (he.symm.trans hs)
    refine hv.keeps_of_subset hv' fun p hp hne => ?_
    rw [deletes, hv.buckets_eq] at hne
    exact absurd hp hne
  | internalPointerReset | internalPointerEnd | moveForward | moveBackwards =>
    obtain ⟨l', hv', -⟩ := hv.step hok hs
    obtain rfl := Option.some.inj hs
    have hl : l' = l := hv'.list_unique hv rfl rfl
    exact hv.keeps_of_subset hv' fun p hp _ => hl ▸ hp

end

end HashTable

end Php53.Zend
