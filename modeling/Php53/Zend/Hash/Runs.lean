import Php53.Reasoning.Run
import Php53.Zend.Hash.Rekey

/-!
# Runs — every sequence of operations on a HashTable

`HashOp` lists the operations with their arguments and with what the memory layer answers;
`HashOp.Ok` is what their callers and the memory layer guarantee.  Every table reached from
`_zend_hash_init` is valid, and its `nNextFreeElement` stays ahead of the integer keys as long as
no key is changed in place past it.
-/

open Reasoning

namespace Php53.Zend

open List

inductive HashOp (α : Type) where
  | addOrUpdate (arKey : List UInt8) (pData : α) (nDataSize flag : Nat) (mem : Pemalloc)
  | quickAddOrUpdate (arKey : List UInt8) (h : BitVec 64) (pData : α) (nDataSize flag : Nat)
      (mem : Pemalloc)
  | indexUpdateOrNextInsert (h : BitVec 64) (pData : α) (nDataSize flag : Nat) (mem : Pemalloc)
  | delKeyOrIndex (arKey : List UInt8) (h : BitVec 64) (flag : HashDelFlag)
  | applyDeleter (p : BucketPtr)
  | updateCurrentKeyEx (keyType : HashKeyType) (strIndex : List UInt8) (numIndex : BitVec 64)
      (mode : Nat) (pos : Option (Option BucketPtr)) (mem : Pemalloc)
  | rehash
  | doResize (mem : Pemalloc)
  | sort (sortFunc : List BucketPtr → List BucketPtr) (renumber : Bool) (mem : Pemalloc)
  | clean
  | internalPointerReset
  | internalPointerEnd
  | moveForward
  | moveBackwards

namespace HashTable

variable {α : Type}

variable {l : List BucketPtr} {h : BitVec 64} {mem : Pemalloc} {ht : HashTable α}
  {ht' : HashTable α}

/-- The table after one operation; `none` where the source runs into undefined behaviour. -/
def step (ht : HashTable α) : HashOp α → Option (HashTable α)
  | .addOrUpdate arKey pData nDataSize flag mem =>
      (ht.zendHashAddOrUpdate arKey pData nDataSize flag mem).map (·.table)
  | .quickAddOrUpdate arKey h pData nDataSize flag mem =>
      (ht.zendHashQuickAddOrUpdate arKey h pData nDataSize flag mem).map (·.table)
  | .indexUpdateOrNextInsert h pData nDataSize flag mem =>
      (ht.zendHashIndexUpdateOrNextInsert h pData nDataSize flag mem).map (·.table)
  | .delKeyOrIndex arKey h flag => (ht.zendHashDelKeyOrIndex arKey h flag).map (·.table)
  | .applyDeleter p => some (ht.zendHashApplyDeleter p).1
  | .updateCurrentKeyEx keyType strIndex numIndex mode pos mem =>
      (ht.zendHashUpdateCurrentKeyEx keyType strIndex numIndex mode pos mem).map (·.1.table)
  | .rehash => ht.zendHashRehash
  | .doResize mem => ht.zendHashDoResize mem
  | .sort sortFunc renumber mem => (ht.zendHashSort sortFunc renumber mem).map (·.table)
  | .clean => ht.zendHashClean
  | .internalPointerReset => some ht.zendHashInternalPointerReset
  | .internalPointerEnd => some ht.zendHashInternalPointerEnd
  | .moveForward => some ht.zendHashMoveForward
  | .moveBackwards => some ht.zendHashMoveBackwards

/-- What callers and the memory layer guarantee: fresh buckets, the right hash next to a key,
positions that are live, and sort functions that permute their array. -/
def OpOk (ht : HashTable α) : HashOp α → Prop
  | .addOrUpdate _ _ _ _ mem => ht.Fresh mem
  | .quickAddOrUpdate arKey h _ _ _ mem =>
      ht.Fresh mem ∧ (arKey ≠ [] → h = zendInlineHashFunc arKey)
  | .indexUpdateOrNextInsert _ _ _ _ mem => ht.Fresh mem
  | .applyDeleter p => p ∈ ht.live
  | .updateCurrentKeyEx _ _ _ _ pos mem =>
      ht.Fresh mem ∧ ∀ p, pos = some (some p) → p ∈ ht.live
  | .sort sortFunc _ _ => ∀ l, (sortFunc l).Perm l
  | _ => True

/-- `ht` is reached from `_zend_hash_init` by the operations `ops`. -/
def ReachedBy [Inhabited α] (ht : HashTable α) (ops : List (HashOp α)) : Prop :=
  ∃ nSize pDestructor persistent,
    Run step OpOk (zendHashInit α nSize pDestructor persistent) ops ht

/-- `nNextFreeElement` is not negative, and larger than every integer key unless it is saturated. -/
def NextFree (ht : HashTable α) (l : List BucketPtr) : Prop :=
  0 ≤ ht.nNextFreeElement.toInt ∧
    ∀ h, HashKey.index h ∈ l.map ht.key →
      h.toInt < ht.nNextFreeElement.toInt ∨ ht.nNextFreeElement = longMax

/-- The key an operation writes into an existing bucket does not overtake `nNextFreeElement`. -/
def KeepsNextFree (ht : HashTable α) : HashOp α → Prop
  | .updateCurrentKeyEx keyType strIndex numIndex _ pos _ =>
      keyType ≠ .nonExistant → pos.getD ht.pInternalPointer ≠ none →
        ∀ h, targetKey keyType strIndex numIndex = .index h →
          h.toInt < ht.nNextFreeElement.toInt ∨ ht.nNextFreeElement = longMax
  | _ => True

theorem NextFree.of_subset {l' : List BucketPtr} (h : ht.NextFree l)
    (hnext : ht'.nNextFreeElement = ht.nNextFreeElement)
    (hkeys : ∀ k, HashKey.index k ∈ l'.map ht'.key → HashKey.index k ∈ l.map ht.key) :
    ht'.NextFree l' := by
  rw [NextFree, hnext]
  exact ⟨h.1, fun k hk => h.2 k (hkeys _ hk)⟩

theorem toInt_add_one (hlt : h.toNat < longMax.toNat) :
    (h + 1).toInt = h.toInt + 1 := by
  rw [longMax_toNat] at hlt
  have h1 : (h + 1).toNat = h.toNat + 1 := by
    rw [BitVec.toNat_add]
    exact Nat.mod_eq_of_lt (by simp; omega)
  rw [BitVec.toInt_eq_toNat_cond, BitVec.toInt_eq_toNat_cond, h1, if_pos (by omega),
    if_pos (by omega)]
  omega

theorem bumpNextFreeElement_spec (ht : HashTable α) (h : BitVec 64) :
    ht.nNextFreeElement.toInt ≤ (ht.bumpNextFreeElement h).nNextFreeElement.toInt ∧
      (h.toInt < (ht.bumpNextFreeElement h).nNextFreeElement.toInt ∨
        (ht.bumpNextFreeElement h).nNextFreeElement = longMax) := by
  unfold bumpNextFreeElement
  dsimp only
  by_cases hle : ht.nNextFreeElement.toInt ≤ h.toInt
  · rw [if_pos hle]
    by_cases hlt : h.toNat < longMax.toNat
    · rw [if_pos hlt, toInt_add_one hlt]
      exact ⟨by omega, Or.inl (by omega)⟩
    · rw [if_neg hlt]
      exact ⟨toInt_le_longMax _, Or.inr rfl⟩
  · rw [if_neg hle]
    exact ⟨Int.le_refl _, Or.inl (by omega)⟩

theorem NextFree.bump {l' : List BucketPtr} (hn : ht.NextFree l)
    (hnext : ht'.nNextFreeElement = (ht.bumpNextFreeElement h).nNextFreeElement)
    (hkeys : ∀ k ∈ l'.map ht'.key, k ∈ l.map ht.key ∨ k = .index h) : ht'.NextFree l' := by
  obtain ⟨hle, hh⟩ := ht.bumpNextFreeElement_spec h
  rw [NextFree, hnext]
  refine ⟨Int.le_trans hn.1 hle, fun k hk => ?_⟩
  rcases hkeys _ hk with hk | hk
  · rcases hn.2 k hk with hlt | hmax
    · exact Or.inl (Int.lt_of_lt_of_le hlt hle)
    · rw [hmax] at hle
      exact Or.inr (eq_longMax_of_le hle)
  · rw [HashKey.index.injEq] at hk
    rw [hk]
    exact hh

/-- `ht'` is a valid successor of `ht`, which keeps `nNextFreeElement` ahead if `keeps` holds. -/
def Follows (ht : HashTable α) (l : List BucketPtr) (keeps : Prop) (ht' : HashTable α) : Prop :=
  ∃ l', ht'.Valid l' ∧ (ht.NextFree l → keeps → ht'.NextFree l')

section

variable (hv : ht.Valid l)

include hv

theorem Valid.follows_self (keeps : Prop) : ht.Follows l keeps ht :=
  ⟨l, hv, fun h _ => h⟩

theorem Valid.follows_deleteBucket {p : BucketPtr} (hp : p ∈ l)
    (keeps : Prop) : ht.Follows l keeps (ht.deleteBucket p) :=
  ⟨_, hv.delete hp, fun h _ =>
    h.of_subset rfl fun _ hk => (erase_sublist.map ht.key).subset hk⟩

theorem Valid.addOrUpdateHashed_follows {arKey : List UInt8} (hne : arKey.length ≠ 0)
    (hh : arKey ≠ [] → h = zendInlineHashFunc arKey) (pData : α) (nDataSize flag : Nat)
    (hmem : ht.Fresh mem) :
    ∃ o, ht.addOrUpdateHashed arKey h pData nDataSize flag mem = some o ∧
      ht.Follows l True o.table := by
  cases hl : ht.lookup l (HashKey.ofArKey arKey h) with
  | some p =>
    refine ⟨_, hv.addOrUpdateHashed_found hh hl pData nDataSize flag mem, ?_⟩
    split
    · exact hv.follows_self _
    · exact ⟨l, hv.updateData p pData, fun hn _ => hn.of_subset rfl fun _ hk => hk⟩
  | none =>
    by_cases hok : mem.bucket = none ∨ initDataOk nDataSize mem = false
    · exact ⟨_, hv.addOrUpdateHashed_noMemory hh hl pData nDataSize flag hok, hv.follows_self _⟩
    obtain ⟨hb, hd⟩ := not_or.mp hok
    obtain ⟨p, hp⟩ := Option.ne_none_iff_exists'.mp hb
    obtain ⟨ht', he, hr, hv'⟩ := hv.addOrUpdateHashed_new hh hl pData nDataSize flag hmem hp
      (by simpa using hd)
    refine ⟨_, he, _, hv', fun hn _ => hn.of_subset hr.nNextFreeElement_eq fun k hk => ?_⟩
    have hpl : p ∉ l := fun hm => hmem p hp (hv.live.mem_iff.mpr hm)
    rw [hr.key_eq, map_key_insertBucket _ hpl] at hk
    rcases mem_append.mp hk with hk | hk
    · exact hk
    · simp [HashKey.ofArKey, hne] at hk

theorem Valid.indexUpdate_follows (h : BitVec 64) (pData : α) (nDataSize flag : Nat)
    (hmem : ht.Fresh mem) :
    ∃ o, ht.zendHashIndexUpdateOrNextInsert h pData nDataSize flag mem = some o ∧
      ht.Follows l True o.table := by
  cases hl : ht.lookup l (.index (ht.insertIndex h flag)) with
  | some p =>
    refine ⟨_, hv.indexUpdate_found hl pData nDataSize mem, ?_⟩
    split
    · exact hv.follows_self _
    · exact ⟨l, (hv.updateData p pData).setNextFreeElement _, fun hn _ =>
        hn.bump (h := ht.insertIndex h flag) rfl fun _ hk => Or.inl hk⟩
  | none =>
    by_cases hok : mem.bucket = none ∨ initDataOk nDataSize mem = false
    · exact ⟨_, hv.indexUpdate_noMemory hl pData nDataSize hok, hv.follows_self _⟩
    obtain ⟨hb, hd⟩ := not_or.mp hok
    obtain ⟨p, hp⟩ := Option.ne_none_iff_exists'.mp hb
    obtain ⟨ht', he, hr, hv'⟩ := hv.indexUpdate_new hl pData nDataSize hmem hp (by simpa using hd)
    refine ⟨_, he, _, hv', fun hn _ => hn.bump hr.nNextFreeElement_eq fun k hk => ?_⟩
    have hpl : p ∉ l := fun hm => hmem p hp (hv.live.mem_iff.mpr hm)
    have hmap := map_key_insertBucket ht hpl [] (ht.insertIndex h flag) pData
    rw [hr.key_eq] at hk
    have hk : k ∈ l.map ht.key ++ [HashKey.ofArKey [] (ht.insertIndex h flag)] := hmap ▸ hk
    rcases mem_append.mp hk with hk | hk
    · exact Or.inl hk
    · exact Or.inr (by simpa [HashKey.ofArKey] using hk)

theorem Valid.updateCurrentKey_follows (keyType : HashKeyType) (strIndex : List UInt8)
    (numIndex : BitVec 64) (mode : Nat) {pos : Option (Option BucketPtr)}
    (hok : ht.OpOk (.updateCurrentKeyEx keyType strIndex numIndex mode pos mem)) {o : Outcome α}
    {pos' : Option (Option BucketPtr)}
    (he : ht.zendHashUpdateCurrentKeyEx keyType strIndex numIndex mode pos mem = some (o, pos')) :
    ht.Follows l (ht.KeepsNextFree (.updateCurrentKeyEx keyType strIndex numIndex mode pos mem))
      o.table := by
  rcases hv.updateCurrentKey_cases keyType strIndex numIndex mode
    (fun p hp => hv.live.mem_iff.mp (hok.2 p hp)) hok.1 with ⟨-, hnone⟩ | ⟨o', _, he', hcases⟩
  · rw [hnone] at he
    exact nomatch he
  rw [he'] at he
  obtain ⟨rfl, rfl⟩ := Prod.mk.inj (Option.some.inj he)
  rcases hcases with hself | ⟨p, hp, hdel⟩ | ⟨htype, hcur, l', hv', hnext, hkeys⟩
  · rw [hself]
    exact hv.follows_self _
  · rw [hdel]
    exact hv.follows_deleteBucket hp _
  · refine ⟨l', hv', fun hn hkeep => ?_⟩
    rw [NextFree, hnext]
    refine ⟨hn.1, fun k hk => ?_⟩
    rcases hkeys _ hk with hk | hk
    · exact hkeep htype hcur k hk.symm
    · exact hn.2 k hk

theorem Valid.sort_follows {sortFunc : List BucketPtr → List BucketPtr}
    (hsort : ∀ l, (sortFunc l).Perm l) (renumber : Bool) (mem : Pemalloc) {o : Outcome α}
    (he : ht.zendHashSort sortFunc renumber mem = some o) : ht.Follows l True o.table := by
  rcases hv.zendHashSort_cases (hsort l) renumber mem with ⟨-, hnone⟩ | ⟨o', he', hcases⟩
  · rw [hnone] at he
    exact nomatch he
  rw [he'] at he
  obtain rfl := Option.some.inj he
  rcases hcases with hself | ⟨hv', hnext, hkey⟩ | ⟨-, hlt, hv', hnext, hkeys⟩
  · rw [hself]
    exact hv.follows_self _
  · refine ⟨_, hv', fun hn _ => hn.of_subset hnext fun k hk => ?_⟩
    rw [hkey] at hk
    exact ((hsort l).map ht.key).subset hk
  · refine ⟨_, hv', fun _ _ => ?_⟩
    have hsmall : ∀ j, j ≤ l.length → (BitVec.ofNat 64 j).toInt = j := by
      intro j hj
      rw [BitVec.toInt_eq_toNat_of_lt] <;> rw [BitVec.toNat_ofNat, Nat.mod_eq_of_lt (by omega)]
      omega
    rw [NextFree, hnext, hkeys, hsmall _ (Nat.le_refl _)]
    refine ⟨by omega, fun k hk => ?_⟩
    obtain ⟨j, hj, hjk⟩ := mem_map.mp hk
    rw [mem_range'_1] at hj
    obtain rfl := HashKey.index.inj hjk
    rw [hsmall j (by omega)]
    exact Or.inl (by omega)

theorem Valid.step {op : HashOp α} (hok : ht.OpOk op) (hs : ht.step op = some ht') :
    ht.Follows l (ht.KeepsNextFree op) ht' := by
  cases op with
  | addOrUpdate arKey pData nDataSize flag mem =>
    obtain ⟨o, he, rfl⟩ := Option.map_eq_some_iff.mp hs
    rw [zendHashAddOrUpdate] at he
    split at he
    · obtain rfl := Option.some.inj he
      exact hv.follows_self _
    · rename_i hpos
      have hne : arKey.length ≠ 0 := by omega
      obtain ⟨o', he', hf⟩ := hv.addOrUpdateHashed_follows hne (fun _ => rfl) pData nDataSize flag
        hok
      rw [he'] at he
      exact Option.some.inj he ▸ hf
  | quickAddOrUpdate arKey h pData nDataSize flag mem =>
    obtain ⟨o, he, rfl⟩ := Option.map_eq_some_iff.mp hs
    rw [zendHashQuickAddOrUpdate] at he
    split at he
    · obtain ⟨o', he', hf⟩ := hv.indexUpdate_follows h pData nDataSize hashUpdate hok.1
      rw [he'] at he
      exact Option.some.inj he ▸ hf
    · rename_i hne
      obtain ⟨o', he', hf⟩ := hv.addOrUpdateHashed_follows hne hok.2 pData nDataSize flag hok.1
      rw [he'] at he
      exact Option.some.inj he ▸ hf
  | indexUpdateOrNextInsert h pData nDataSize flag mem =>
    obtain ⟨o, he, rfl⟩ := Option.map_eq_some_iff.mp hs
    obtain ⟨o', he', hf⟩ := hv.indexUpdate_follows h pData nDataSize flag hok
    rw [he'] at he
    exact Option.some.inj he ▸ hf
  | delKeyOrIndex arKey h flag =>
    obtain ⟨o, he, rfl⟩ := Option.map_eq_some_iff.mp hs
    rcases hv.zendHashDelKeyOrIndex_cases arKey h flag with he' | ⟨p, hp, he'⟩
    · rw [he'] at he
      exact Option.some.inj he ▸ hv.follows_self _
    · rw [he'] at he
      exact Option.some.inj he ▸ hv.follows_deleteBucket hp _
  | applyDeleter p =>
    rw [← Option.some.inj hs, zendHashApplyDeleter_fst]
    exact hv.follows_deleteBucket (hv.live.mem_iff.mp hok) _
  | updateCurrentKeyEx keyType strIndex numIndex mode pos mem =>
    obtain ⟨⟨o, pos'⟩, he, rfl⟩ := Option.map_eq_some_iff.mp hs
    exact hv.updateCurrentKey_follows keyType strIndex numIndex mode hok he
  | rehash =>
    obtain ⟨ht1, he, hr, hv'⟩ := hv.zendHashRehash
    obtain rfl := Option.some.inj (he.symm.trans hs)
    exact ⟨l, hv', fun hn _ => hn.of_subset hr.nNextFreeElement_eq fun k hk => hr.key_eq ▸ hk⟩
  | doResize mem =>
    obtain ⟨ht1, he, hr, hv'⟩ := hv.zendHashDoResize mem
    obtain rfl := Option.some.inj (he.symm.trans hs)
    exact ⟨l, hv', fun hn _ => hn.of_subset hr.nNextFreeElement_eq fun k hk => hr.key_eq ▸ hk⟩
  | sort sortFunc renumber mem =>
    obtain ⟨o, he, rfl⟩ := Option.map_eq_some_iff.mp hs
    exact hv.sort_follows hok renumber mem he
  | clean =>
    obtain ⟨ht1, he, hv', hnext⟩ := hv.zendHashClean
    obtain rfl := Option.some.inj (he.symm.trans hs)
    refine ⟨[], hv', fun _ _ => ?_⟩
    rw [NextFree, hnext]
    exact ⟨by decide, by simp⟩
  | internalPointerReset =>
    obtain rfl := Option.some.inj hs
    refine ⟨l, { hv with cursor := fun p hp => ?_ }, fun hn _ => hn⟩
    exact mem_of_mem_head? (hv.list.head_eq ▸ hp)
  | internalPointerEnd =>
    obtain rfl := Option.some.inj hs
    refine ⟨l, { hv with cursor := fun p hp => ?_ }, fun hn _ => hn⟩
    exact mem_of_mem_getLast? (hv.list.tail_eq ▸ hp)
  | moveForward =>
    obtain rfl := Option.some.inj hs
    refine ⟨l, { hv with cursor := fun q hq => ?_ }, fun hn _ => hn⟩
    obtain ⟨p, hp, hpq⟩ := Option.bind_eq_some_iff.mp hq
    exact (hv.list.next_mem (hv.cursor p hp) hpq).1
  | moveBackwards =>
    obtain rfl := Option.some.inj hs
    refine ⟨l, { hv with cursor := fun q hq => ?_ }, fun hn _ => hn⟩
    obtain ⟨p, hp, hpq⟩ := Option.bind_eq_some_iff.mp hq
    exact hv.list.last_mem (hv.cursor p hp) hpq

end

theorem Run.valid [Inhabited α] {nSize : Nat} {pDestructor persistent : Bool}
    {ops : List (HashOp α)}
    (hrun : Run step OpOk (zendHashInit α nSize pDestructor persistent) ops ht) :
    ∃ l, ht.Valid l := by
  refine hrun.invariant (I := fun ht => ∃ l, ht.Valid l) ⟨[], valid_zendHashInit _ _ _⟩ ?_
  intro s op t ⟨l, hv⟩ hok hs
  obtain ⟨l', hv', -⟩ := hv.step hok hs
  exact ⟨l', hv'⟩

/-- The representation of a table whose global list is `l`. -/
structure Representation (ht : HashTable α) (l : List BucketPtr) : Prop where
  tableSize : ∃ k, ht.nTableSize = 2 ^ k
  tableMask : ht.nTableMask = ht.nTableSize - 1
  forwards : Walk ht.pListNext ht.pListHead l
  backwards : Walk ht.pListLast ht.pListTail l.reverse
  distinct : l.Nodup
  /-- `nNumOfElements` is a `uint`. -/
  numOfElements : ht.nNumOfElements = l.length % uintModulus
  /-- The chain at `nIndex` holds the buckets that hash there, its links mutually inverse. -/
  chains : ∀ nIndex, nIndex < ht.nTableSize → ∃ c : List BucketPtr,
    c.Nodup ∧ (∀ p, p ∈ c ↔ p ∈ l ∧ ht.index (ht.h p) = nIndex) ∧
      Walk ht.pNext (ht.arBuckets nIndex) c ∧
      (∀ p ∈ c, ht.pLast p = none ↔ ht.arBuckets nIndex = some p) ∧
      ∀ p ∈ c, ∀ q ∈ c, ht.pNext p = some q ↔ ht.pLast q = some p
  keys : (l.map ht.key).Nodup
  internalPointer : ∀ p ∈ ht.pInternalPointer, p ∈ l

theorem Valid.representation (hv : ht.Valid l) :
    ht.Representation l where
  tableSize := by
    obtain ⟨k, -, -, hk⟩ := hv.size
    exact ⟨k, hk⟩
  tableMask := hv.mask
  forwards := hv.list.head_eq ▸ hv.list.linked.walk
  backwards := hv.list.tail_eq ▸ hv.list.linked.walk_reverse
  distinct := hv.list.nodup
  numOfElements := hv.count
  chains := by
    intro nIndex hlt
    obtain ⟨c, hnd, hmem, hlink, hhead⟩ := hv.chains nIndex hlt
    refine ⟨c, hnd, hmem, hhead ▸ hlink.walk, fun p hp => ?_, fun p hp q hq => ?_⟩
    · have hiff := hv.chains.head_iff ((hmem p).mp hp).1 (hv.index_lt _)
      rw [← ((hmem p).mp hp).2]
      exact hiff.symm
    · exact hlink.next_eq_iff hnd hp hq
  keys := hv.keys
  internalPointer := hv.cursor

/-- Every table reached from `_zend_hash_init` is a well-formed representation. -/
theorem representation_of_reachedBy [Inhabited α] {ht : HashTable α} {ops : List (HashOp α)}
    (h : ht.ReachedBy ops) : ∃ l, ht.Representation l := by
  obtain ⟨nSize, pDestructor, persistent, hrun⟩ := h
  obtain ⟨l, hv⟩ := Run.valid hrun
  exact ⟨l, hv.representation⟩

/-- `n` appends, the memory layer handing out the buckets `0`, `1`, … -/
def nextInserts (n : Nat) : List (HashOp Unit) :=
  (List.range n).map fun i =>
    .indexUpdateOrNextInsert 0 () sizeofVoidPtr hashNextInsert ⟨some i, true, true⟩

theorem nextInserts_run {n : Nat} (hn : n < 2 ^ 63) :
    ∃ ht : HashTable Unit, ht.ReachedBy (nextInserts n) ∧ ht.Valid (range n) ∧
      ht.nNextFreeElement = BitVec.ofNat 64 n ∧
      (range n).map ht.key = (range n).map fun i => HashKey.index (BitVec.ofNat 64 i) := by
  induction n with
  | zero =>
    exact ⟨_, ⟨8, false, false, Run.nil _⟩, valid_zendHashInit _ _ _, rfl, rfl⟩
  | succ n ih =>
    obtain ⟨ht, ⟨nSize, pDestructor, persistent, hrun⟩, hv, hnext, hkeys⟩ := ih (by omega)
    have hidx : ht.insertIndex 0 hashNextInsert = BitVec.ofNat 64 n := hnext
    have hpl : n ∉ range n := by simp
    have hfresh : ht.Fresh ⟨some n, true, true⟩ := fun p hp hm => by
      obtain rfl := Option.mem_some_iff.mp hp
      exact hpl (hv.live.mem_iff.mp hm)
    have hnew : ht.lookup (range n) (.index (ht.insertIndex 0 hashNextInsert)) = none := by
      rw [lookup_none, hidx, hkeys, mem_map]
      rintro ⟨i, hi, he⟩
      rw [mem_range] at hi
      have he := congrArg BitVec.toNat (HashKey.index.inj he)
      rw [BitVec.toNat_ofNat, BitVec.toNat_ofNat, Nat.mod_eq_of_lt (by omega),
        Nat.mod_eq_of_lt (by omega)] at he
      omega
    obtain ⟨ht', he, hr, hv'⟩ := hv.indexUpdate_new hnew () sizeofVoidPtr hfresh rfl rfl
    refine ⟨ht', ⟨nSize, pDestructor, persistent, ?_⟩, ?_, ?_, ?_⟩
    · rw [nextInserts, range_succ, map_append]
      exact Run.snoc hrun hfresh (congrArg (Option.map Outcome.table) he)
    · rwa [range_succ]
    · rw [hr.nNextFreeElement_eq, bumpNextFreeElement, hidx]
      change (if ht.nNextFreeElement.toInt ≤ _ then _ else _) = _
      rw [hnext, if_pos (Int.le_refl _), if_pos, BitVec.ofNat_add]
      · rfl
      · rw [longMax_toNat, BitVec.toNat_ofNat, Nat.mod_eq_of_lt (by omega)]
        omega
    · have hmap := map_key_insertBucket ht hpl [] (ht.insertIndex 0 hashNextInsert) ()
      rw [hr.key_eq, range_succ]
      refine hmap.trans ?_
      rw [hkeys, hidx, map_append]
      rfl

/-- With `2 ^ 32` elements in the table `nNumOfElements` is back at `0`. -/
theorem numOfElements_overflow :
    ∃ ht : HashTable Unit, ht.ReachedBy (nextInserts (2 ^ 32)) ∧
      ¬ ∃ l, Walk ht.pListNext ht.pListHead l ∧ l.length = ht.nNumOfElements := by
  have hzero : 2 ^ 32 % uintModulus = 0 := Nat.mod_self _
  have hpos : 0 < 2 ^ 32 := by decide
  have hlt : 2 ^ 32 < 2 ^ 63 := by decide
  -- the number itself would only get in the way
  generalize 2 ^ 32 = n at hzero hpos hlt ⊢
  obtain ⟨ht, hreach, hv, -, -⟩ := nextInserts_run hlt
  refine ⟨ht, hreach, fun ⟨l, hw, hlen⟩ => ?_⟩
  obtain rfl := hw.unique hv.representation.forwards
  rw [hv.count, List.length_range, hzero] at hlen
  omega

theorem representation_of_nextInserts :
    ∃ ht : HashTable Unit, ht.ReachedBy (nextInserts 3) ∧ ∃ l, ht.Representation l := by
  obtain ⟨ht, hreach, -⟩ := nextInserts_run (n := 3) (by decide)
  exact ⟨ht, hreach, representation_of_reachedBy hreach⟩

/-- An append with memory at hand: it fails only when `LONG_MAX` is taken, and otherwise adds a
key that is neither negative nor at most an integer key in the table. -/
def AppendsPastAll (ht : HashTable α) : Prop :=
  ∀ (h : BitVec 64) (pData : α) (nDataSize flag : Nat) (mem : Pemalloc),
    flag &&& hashNextInsert ≠ 0 → ht.Fresh mem → mem.bucket ≠ none → initDataOk nDataSize mem →
      ∃ o, ht.zendHashIndexUpdateOrNextInsert h pData nDataSize flag mem = some o ∧
        ((o.result = .failure ∧ .index longMax ∈ ht.listKeys) ∨
          ∃ new : BitVec 64, o.result = .success ∧
            o.table.listKeys = ht.listKeys ++ [HashKey.index new] ∧ 0 ≤ new.toInt ∧
              ∀ k, .index k ∈ ht.listKeys → k.toInt < new.toInt)

theorem Valid.appendsPastAll (hv : ht.Valid l) (hn : ht.NextFree l) : ht.AppendsPastAll := by
  intro h pData nDataSize flag mem hflag hfresh hb hd
  have hidx : ht.insertIndex h flag = ht.nNextFreeElement := if_pos hflag
  cases hl : ht.lookup l (.index (ht.insertIndex h flag)) with
  | some p =>
    refine ⟨_, hv.indexUpdate_found hl pData nDataSize mem, Or.inl ?_⟩
    rw [if_pos (Or.inl hflag)]
    refine ⟨rfl, ?_⟩
    obtain ⟨hp, hk⟩ := lookup_some hl
    have hmem : HashKey.index ht.nNextFreeElement ∈ l.map ht.key :=
      mem_map.mpr ⟨p, hp, by rw [hk, hidx]⟩
    -- the key taken is not below itself, so `nNextFreeElement` is saturated
    have hmax := (hn.2 _ hmem).resolve_left (Int.lt_irrefl _)
    rwa [hv.listKeys_eq, ← hmax]
  | none =>
    obtain ⟨p, hp⟩ := Option.ne_none_iff_exists'.mp hb
    obtain ⟨ht', he, hr, hv'⟩ := hv.indexUpdate_new hl pData nDataSize hfresh hp hd
    have hpl : p ∉ l := fun hm => hfresh p hp (hv.live.mem_iff.mpr hm)
    refine ⟨_, he, Or.inr ⟨ht.nNextFreeElement, rfl, ?_, hn.1, fun k hk => ?_⟩⟩
    · have hmap := map_key_insertBucket ht hpl [] (ht.insertIndex h flag) pData
      rw [hv'.listKeys_eq, hv.listKeys_eq, hr.key_eq]
      refine hmap.trans ?_
      rw [hidx]
      rfl
    · rw [hv.listKeys_eq] at hk
      rcases hn.2 k hk with hlt | hmax
      · exact hlt
      · rw [hmax]
        refine Int.lt_iff_le_and_ne.mpr ⟨toInt_le_longMax k, fun he => ?_⟩
        rw [lookup_none, hidx, hmax, ← BitVec.eq_of_toInt_eq he] at hl
        exact hl hk

/-- `nNextFreeElement` is `0` or past every integer key, up to saturation. -/
def NextFreePastAll (ht : HashTable α) : Prop :=
  0 ≤ ht.nNextFreeElement.toInt ∧ ∀ k, .index k ∈ ht.listKeys →
    k.toInt < ht.nNextFreeElement.toInt ∨ ht.nNextFreeElement = longMax

/-- As long as no key is changed in place to one that `nNextFreeElement` has not passed, appending
never collides. -/
theorem appendsPastAll_of_run [Inhabited α] {nSize : Nat} {pDestructor persistent : Bool}
    {ops : List (HashOp α)} {ht : HashTable α}
    (hrun : Run step (fun ht op => ht.OpOk op ∧ ht.KeepsNextFree op)
      (zendHashInit α nSize pDestructor persistent) ops ht) :
    ht.NextFreePastAll ∧ ht.AppendsPastAll := by
  have hinv : ∃ l, ht.Valid l ∧ ht.NextFree l := by
    refine hrun.invariant (I := fun ht => ∃ l, ht.Valid l ∧ ht.NextFree l)
      ⟨[], valid_zendHashInit _ _ _, Int.le_refl 0, by simp⟩ ?_
    intro s op t ⟨l, hv, hn⟩ ⟨hok, hkeep⟩ hs
    obtain ⟨l', hv', hn'⟩ := hv.step hok hs
    exact ⟨l', hv', hn' hn hkeep⟩
  obtain ⟨l, hv, hn⟩ := hinv
  refine ⟨?_, hv.appendsPastAll hn⟩
  rw [NextFreePastAll, hv.listKeys_eq]
  exact hn

/-- One element, whose key `0` is changed to `1` in place: `nNextFreeElement` stays at `1`. -/
theorem append_collides :
    ∃ ht : HashTable Unit,
      ht.ReachedBy
        [.indexUpdateOrNextInsert 0 () sizeofVoidPtr hashNextInsert ⟨some 0, true, true⟩,
          .updateCurrentKeyEx .isLong [] 1 hashUpdateKeyAnyway none ⟨none, true, true⟩] ∧
      ht.listKeys = [.index 1] ∧
      (ht.zendHashIndexUpdateOrNextInsert 0 () sizeofVoidPtr hashNextInsert
        ⟨some 1, true, true⟩).map (·.result) = some .failure := by
  refine ⟨_, ⟨8, false, false, Run.snoc (Run.snoc (Run.nil _) ?_ rfl) ?_ rfl⟩, ?_, ?_⟩
  · exact fun _ _ => List.not_mem_nil
  · exact ⟨nofun, nofun⟩
  · decide
  · decide

/-- The other way round, from `1` to `0`, appends stay in order. -/
theorem appendsPastAll_rekey :
    ∃ ht : HashTable Unit, ht.listKeys = [.index 0] ∧ ht.NextFreePastAll ∧ ht.AppendsPastAll := by
  have hrun : ∃ ht : HashTable Unit, ht.listKeys = [.index 0] ∧
      Run step (fun ht op => ht.OpOk op ∧ ht.KeepsNextFree op) (zendHashInit Unit 8 false false)
        [.indexUpdateOrNextInsert 1 () sizeofVoidPtr hashUpdate ⟨some 0, true, true⟩,
          .updateCurrentKeyEx .isLong [] 0 hashUpdateKeyAnyway none ⟨none, true, true⟩] ht := by
    refine ⟨_, ?_, Run.snoc (Run.snoc (Run.nil _) ?_ rfl) ?_ rfl⟩
    · decide
    · exact ⟨fun _ _ => List.not_mem_nil, trivial⟩
    · refine ⟨⟨nofun, nofun⟩, fun _ _ h hh => ?_⟩
      obtain rfl := HashKey.index.inj hh
      decide
  obtain ⟨ht, hkeys, hrun⟩ := hrun
  exact ⟨ht, hkeys, appendsPastAll_of_run hrun⟩

end HashTable

end Php53.Zend
