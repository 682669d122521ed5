import Php53.Zend.Hash.Invariant

/-!
# Operations — each operation keeps the invariant

For every operation: from a valid table it does not run into undefined behaviour (given memory
where the source does not check for it), and the table it leaves is valid again.
-/

open Reasoning

namespace Php53.Zend

namespace HashTable

variable {α : Type}

variable {p : BucketPtr} {l : List BucketPtr} {arKey : List UInt8} {h : BitVec 64} {mem : Pemalloc}
  {flag : Nat} {ht : HashTable α}

def Fresh (ht : HashTable α) (mem : Pemalloc) : Prop := ∀ p ∈ mem.bucket, p ∉ ht.live

theorem initBits_le (nSize n i : Nat) : i ≤ initBits nSize n i ∧ initBits nSize n i ≤ i + n := by
  induction n generalizing i with
  | zero => simp [initBits]
  | succ n ih =>
    rw [initBits]
    split
    · have := ih (i + 1)
      omega
    · omega

theorem valid_zendHashInit [Inhabited α] (nSize : Nat) (pDestructor persistent : Bool) :
    (zendHashInit α nSize pDestructor persistent).Valid [] where
  size := by
    by_cases h : 2 ^ 31 ≤ nSize
    · exact ⟨31, by decide, le_rfl, if_pos h⟩
    · have := initBits_le nSize 28 3
      exact ⟨initBits nSize 28 3, by omega, by omega, if_neg h⟩
  mask := rfl
  list := DList.nil _ _
  live := List.Perm.nil
  chains := Chained.nil _ _ _ _
  cursor := by simp [zendHashInit]
  count := rfl
  hash := by simp
  keys := List.nodup_nil

/-- The insertion of a filled bucket as one update of the record. -/
def insertBucket (ht : HashTable α) (p : BucketPtr) (arKey : List UInt8) (h : BitVec 64)
    (pData : α) : HashTable α :=
  { ht with
    live := p :: ht.live
    arKey := Function.update ht.arKey p arKey
    nKeyLength := Function.update ht.nKeyLength p arKey.length
    pData := Function.update ht.pData p pData
    h := Function.update ht.h p h
    pNext := Function.update ht.pNext p (ht.arBuckets (ht.index (Function.update ht.h p h p)))
    pLast := updateAt (Function.update ht.pLast p none)
      (ht.arBuckets (ht.index (Function.update ht.h p h p))) (some p)
    arBuckets := Function.update ht.arBuckets (ht.index (Function.update ht.h p h p)) (some p)
    pListLast := Function.update ht.pListLast p ht.pListTail
    pListTail := some p
    pListNext := updateAt (Function.update ht.pListNext p none) ht.pListTail (some p)
    pListHead := ht.pListHead.or (some p)
    pInternalPointer := ht.pInternalPointer.or (some p)
    nNumOfElements := uintInc ht.nNumOfElements }

theorem key_insertBucket_self (ht : HashTable α) (p : BucketPtr) (arKey : List UInt8)
    (h : BitVec 64) (pData : α) :
    (ht.insertBucket p arKey h pData).key p = HashKey.ofArKey arKey h := by
  simp [key, insertBucket, HashKey.ofArKey]

theorem key_insertBucket_of_ne (ht : HashTable α) {q : BucketPtr} (arKey : List UInt8)
    (h : BitVec 64) (pData : α) (hq : q ≠ p) :
    (ht.insertBucket p arKey h pData).key q = ht.key q := by
  simp [key, insertBucket, hq]

theorem map_key_insertBucket (ht : HashTable α) (hp : p ∉ l) (arKey : List UInt8) (h : BitVec 64)
    (pData : α) :
    (l ++ [p]).map (ht.insertBucket p arKey h pData).key =
      l.map ht.key ++ [HashKey.ofArKey arKey h] := by
  rw [List.map_append, List.map_singleton, key_insertBucket_self]
  congr 1
  refine List.map_congr_left fun q hq => key_insertBucket_of_ne _ _ _ _ ?_
  exact fun he => hp (he ▸ hq)

section

variable (hv : ht.Valid l)

include hv

theorem Valid.insert (hp : p ∉ l) (hh : arKey ≠ [] → h = zendInlineHashFunc arKey)
    (hk : HashKey.ofArKey arKey h ∉ l.map ht.key) (pData : α) :
    (ht.insertBucket p arKey h pData).Valid (l ++ [p]) := by
  have hne : ∀ q ∈ l, q ≠ p := fun q hq he => hp (he ▸ hq)
  refine ⟨hv.size, hv.mask, hv.list.push_back hp, ?_, ?_, ?_, ?_, ?_, ?_⟩
  · exact (hv.live.cons p).trans (List.perm_append_singleton p l).symm
  · have hc : Chained ht.nTableSize ht.arBuckets ht.pNext ht.pLast
        (fun q => ht.index (Function.update ht.h p h q)) l :=
      hv.chains.congr (fun _ => Iff.rfl) fun q hq => by simp [hne q hq]
    exact (hc.push hp (hv.index_lt _)).congr (fun q => by simp [or_comm]) fun _ _ => rfl
  · intro q hq
    change q ∈ ht.pInternalPointer.or (some p) at hq
    cases hi : ht.pInternalPointer with
    | none => simp_all
    | some r =>
      simp only [hi, Option.some_or, Option.mem_some_iff] at hq
      exact List.mem_append_left _ (hv.cursor q (by simp [hi, hq]))
  · change uintInc ht.nNumOfElements = _
    rw [hv.count, uintInc_mod, List.length_append, List.length_singleton]
  · intro q hq
    rcases List.mem_append.mp hq with hq | hq
    · simpa [HashOk, insertBucket, hne q hq] using hv.hash q hq
    · rw [List.mem_singleton] at hq
      subst hq
      intro hlen
      have ha : arKey ≠ [] := by simpa [insertBucket] using hlen
      simp [insertBucket, hh ha]
  · rw [map_key_insertBucket ht hp, List.nodup_append]
    refine ⟨hv.keys, List.nodup_singleton _, fun x hx y hy he => hk ?_⟩
    rw [List.mem_singleton] at hy
    exact hy ▸ he ▸ hx

theorem Valid.updateData (p : BucketPtr) (pData : α) : (ht.updateData p pData).Valid l :=
  ⟨hv.size, hv.mask, hv.list, hv.live, hv.chains, hv.cursor, hv.count, hv.hash, hv.keys⟩

theorem Valid.setNextFreeElement
    (n : BitVec 64) : ({ ht with nNextFreeElement := n } : HashTable α).Valid l :=
  ⟨hv.size, hv.mask, hv.list, hv.live, hv.chains, hv.cursor, hv.count, hv.hash, hv.keys⟩

theorem Valid.setInternalPointer {c : Option BucketPtr} (hc : ∀ p ∈ c, p ∈ l) :
    ({ ht with pInternalPointer := c } : HashTable α).Valid l :=
  ⟨hv.size, hv.mask, hv.list, hv.live, hv.chains, hc, hv.count, hv.hash, hv.keys⟩

theorem Valid.find_matchesKey (hh : arKey ≠ [] → h = zendInlineHashFunc arKey) :
    ht.chainFind (ht.matchesKey arKey h) ht.live.length (ht.arBuckets (ht.index h)) =
      some (ht.lookup l (HashKey.ofArKey arKey h)) := by
  rw [← hv.chainFind_eq fun p hp => (hv.hash p hp).matchesKey_iff hh, HashKey.hash_ofArKey hh]

theorem Valid.find_matchesIndex (h : BitVec 64) :
    ht.chainFind (ht.matchesIndex h) ht.live.length (ht.arBuckets (ht.index h)) =
      some (ht.lookup l (.index h)) :=
  hv.chainFind_eq (k := .index h) fun p _ => ht.matchesIndex_iff h p

theorem Valid.addOrUpdateHashed_found (hh : arKey ≠ [] → h = zendInlineHashFunc arKey)
    (hp : ht.lookup l (HashKey.ofArKey arKey h) = some p) (pData : α) (nDataSize flag : Nat)
    (mem : Pemalloc) :
    ht.addOrUpdateHashed arKey h pData nDataSize flag mem =
      some (if flag &&& hashAdd ≠ 0 then { table := ht, result := .failure }
        else { table := ht.updateData p pData, result := .success, pDest := some p }) := by
  unfold HashTable.addOrUpdateHashed
  rw [hv.find_matchesKey hh, hp]
  dsimp only
  split <;> rfl

theorem Valid.addOrUpdateHashed_noMemory (hh : arKey ≠ [] → h = zendInlineHashFunc arKey)
    (hk : ht.lookup l (HashKey.ofArKey arKey h) = none) (pData : α) (nDataSize flag : Nat)
    (hmem : mem.bucket = none ∨ initDataOk nDataSize mem = false) :
    ht.addOrUpdateHashed arKey h pData nDataSize flag mem =
      some { table := ht, result := .failure } := by
  unfold HashTable.addOrUpdateHashed
  rw [hv.find_matchesKey hh, hk]
  rcases hmem with hb | hd
  · simp only [hb]
  · cases hb : mem.bucket <;> simp [hd]

theorem Valid.addOrUpdateHashed_new (hh : arKey ≠ [] → h = zendInlineHashFunc arKey)
    (hk : ht.lookup l (HashKey.ofArKey arKey h) = none) (pData : α) (nDataSize flag : Nat)
    (hmem : ht.Fresh mem) (hb : mem.bucket = some p) (hd : initDataOk nDataSize mem = true) :
    ∃ ht', ht.addOrUpdateHashed arKey h pData nDataSize flag mem =
        some { table := ht', result := .success, pDest := some p } ∧
      (ht.insertBucket p arKey h pData).Resized ht' ∧ ht'.Valid (l ++ [p]) := by
  have hp : p ∉ l := fun hm => hmem p hb (hv.live.mem_iff.mpr hm)
  have hv' := hv.insert hp hh (lookup_none.mp hk) pData
  obtain ⟨ht', he, hr, hvr⟩ := hv'.zendHashIfFullDoResize mem
  refine ⟨ht', ?_, hr, hvr⟩
  unfold HashTable.addOrUpdateHashed
  rw [hv.find_matchesKey hh, hk]
  simp only [hb, hd, if_true]
  exact congrArg (Option.map _) he

theorem Valid.indexUpdate_found (hp : ht.lookup l (.index (ht.insertIndex h flag)) = some p)
    (pData : α) (nDataSize : Nat) (mem : Pemalloc) :
    ht.zendHashIndexUpdateOrNextInsert h pData nDataSize flag mem =
      some (if flag &&& hashNextInsert ≠ 0 ∨ flag &&& hashAdd ≠ 0 then
          { table := ht, result := .failure }
        else
          { table := (ht.updateData p pData).bumpNextFreeElement (ht.insertIndex h flag)
            result := .success
            pDest := some p }) := by
  unfold HashTable.zendHashIndexUpdateOrNextInsert
  dsimp only
  rw [hv.find_matchesIndex, hp]
  dsimp only
  split <;> rfl

theorem Valid.indexUpdate_noMemory (hk : ht.lookup l (.index (ht.insertIndex h flag)) = none)
    (pData : α) (nDataSize : Nat) (hmem : mem.bucket = none ∨ initDataOk nDataSize mem = false) :
    ht.zendHashIndexUpdateOrNextInsert h pData nDataSize flag mem =
      some { table := ht, result := .failure } := by
  unfold HashTable.zendHashIndexUpdateOrNextInsert
  dsimp only
  rw [hv.find_matchesIndex, hk]
  rcases hmem with hb | hd
  · simp only [hb]
  · cases hb : mem.bucket <;> simp [hd]

theorem Valid.indexUpdate_new (hk : ht.lookup l (.index (ht.insertIndex h flag)) = none) (pData : α)
    (nDataSize : Nat) (hmem : ht.Fresh mem) (hb : mem.bucket = some p)
    (hd : initDataOk nDataSize mem = true) :
    ∃ ht', ht.zendHashIndexUpdateOrNextInsert h pData nDataSize flag mem =
        some { table := ht', result := .success, pDest := some p } ∧
      ((ht.insertBucket p [] (ht.insertIndex h flag) pData).bumpNextFreeElement
        (ht.insertIndex h flag)).Resized ht' ∧ ht'.Valid (l ++ [p]) := by
  have hp : p ∉ l := fun hm => hmem p hb (hv.live.mem_iff.mpr hm)
  have hidx : HashKey.ofArKey [] (ht.insertIndex h flag) ∉ l.map ht.key := lookup_none.mp hk
  have hv' := (hv.insert hp (by simp) hidx pData).setNextFreeElement ((ht.insertBucket p [] (ht.insertIndex h flag)
      pData).bumpNextFreeElement (ht.insertIndex h flag)).nNextFreeElement
  obtain ⟨ht', he, hr, hvr⟩ := hv'.zendHashIfFullDoResize mem
  refine ⟨ht', ?_, hr, hvr⟩
  unfold HashTable.zendHashIndexUpdateOrNextInsert
  dsimp only
  rw [hv.find_matchesIndex, hk]
  simp only [hb, hd, if_true]
  exact congrArg (Option.map _) he

-- The search of `zend_hash_del_key_or_index`, also for a hash that is not that of the key.
theorem Valid.chainFind_deletes (arKey : List UInt8) (h : BitVec 64) :
    ∃ o, ht.chainFind (fun p => ht.h p == h && ht.nKeyLength p == arKey.length &&
        (ht.nKeyLength p == 0 || memcmpEq (ht.arKey p) arKey arKey.length)) ht.live.length
          (ht.arBuckets (ht.index h)) = some o ∧
      ∀ p ∈ o, p ∈ l ∧ ht.h p = h ∧ ht.nKeyLength p = arKey.length ∧
        (ht.nKeyLength p = 0 ∨ memcmpEq (ht.arKey p) arKey arKey.length = true) := by
  obtain ⟨o, he, ho⟩ := hv.chainFind_mem _ h
  refine ⟨o, he, fun p hpo => ?_⟩
  obtain ⟨hp, hhit⟩ := ho p hpo
  simp only [Bool.and_eq_true, Bool.or_eq_true, beq_iff_eq] at hhit
  exact ⟨hp, hhit.1.1, hhit.1.2, hhit.2⟩

theorem Valid.zendHashDelKeyOrIndex_cases (arKey : List UInt8) (h : BitVec 64)
    (flag : HashDelFlag) :
    ht.zendHashDelKeyOrIndex arKey h flag = some { table := ht, result := .failure } ∨
      ∃ p ∈ l, ht.zendHashDelKeyOrIndex arKey h flag =
        some { table := ht.deleteBucket p, result := .success } := by
  unfold HashTable.zendHashDelKeyOrIndex
  dsimp only
  generalize (if flag = .delKey then zendInlineHashFunc arKey else h) = h
  obtain ⟨o, he, ho⟩ := hv.chainFind_deletes arKey h
  rw [he]
  cases o with
  | none => exact Or.inl rfl
  | some p =>
    obtain ⟨hp, hph, -⟩ := ho p rfl
    refine Or.inr ⟨p, hp, ?_⟩
    dsimp only
    rw [← hph, hv.deleteBucketByHead_eq hp]

end

theorem HashOk.deletes_iff {q : BucketPtr} (hok : ht.HashOk q) {h' : BitVec 64}
    (hh : arKey ≠ [] → h' = zendInlineHashFunc arKey) :
    (ht.h q == h' && ht.nKeyLength q == arKey.length &&
      (ht.nKeyLength q == 0 || memcmpEq (ht.arKey q) arKey arKey.length)) = true ↔
        ht.key q = HashKey.ofArKey arKey h' := by
  rw [hok.key_eq_ofArKey_iff h' hh, memcmpEq]
  by_cases hlen : ht.nKeyLength q = 0
  · by_cases hempty : arKey = []
    · simp [hlen, hempty]
    · have hne : ¬ 0 = arKey.length := fun he => hempty (List.length_eq_zero_iff.mp he.symm)
      simp [hlen, hne]
  · simp [hlen, and_assoc]

theorem Valid.zendHashDelKeyOrIndex_eq (hv : ht.Valid l) (hp : p ∈ l) {h' : BitVec 64}
    {flag : HashDelFlag} (hh : arKey ≠ [] → h' = zendInlineHashFunc arKey)
    (hkey : ht.key p = HashKey.ofArKey arKey h')
    (hflag : (if flag = .delKey then zendInlineHashFunc arKey else h) = h') :
    ht.zendHashDelKeyOrIndex arKey h flag =
      some { table := ht.deleteBucket p, result := .success } := by
  have hchain := hv.chainFind_eq fun q hq => (hv.hash q hq).deletes_iff hh
  rw [HashKey.hash_ofArKey hh, ← hkey, hv.lookup_eq hp] at hchain
  have hindex : h' = ht.h p := by
    rw [← HashKey.hash_ofArKey hh, ← hkey]
    exact (hv.hash p hp).hash_key
  have hdel := hv.deleteBucketByHead_eq hp
  unfold HashTable.zendHashDelKeyOrIndex
  dsimp only
  rw [hflag, hchain]
  dsimp only
  rw [hindex, hdel]

theorem listFrom_of_walk {n : Nat} {p : Option BucketPtr} (hw : Walk ht.pListNext p l)
    (hn : l.length ≤ n) :
    ht.listFrom n p = some l := by
  induction l generalizing n p with
  | nil =>
    rw [show p = none from hw]
    cases n <;> rfl
  | cons x l ih =>
    obtain ⟨rfl, hw⟩ := hw
    obtain ⟨m, rfl⟩ : ∃ m, n = m + 1 := ⟨n - 1, by simp at hn; omega⟩
    rw [listFrom, ih hw (by simpa using hn)]
    rfl

theorem Valid.listFrom_eq (hv : ht.Valid l) :
    ht.listFrom ht.live.length ht.pListHead = some l :=
  listFrom_of_walk (hv.list.head_eq ▸ hv.list.linked.walk) hv.live.length_eq.ge

def buckets (ht : HashTable α) : List BucketPtr :=
  (ht.listFrom ht.live.length ht.pListHead).getD []

def listKeys (ht : HashTable α) : List HashKey := ht.buckets.map ht.key

theorem Valid.buckets_eq (hv : ht.Valid l) :
    ht.buckets = l := by
  rw [buckets, hv.listFrom_eq, Option.getD_some]

theorem Valid.listKeys_eq (hv : ht.Valid l) :
    ht.listKeys = l.map ht.key := by
  rw [listKeys, hv.buckets_eq]

theorem foldl_pefree_eq (l : List BucketPtr) (ht : HashTable α) :
    ∃ destructed, l.foldl (fun ht q => (ht.callDestructor q).pefree q) ht =
      { ht with live := ht.live.diff l, destructed := destructed } := by
  induction l generalizing ht with
  | nil => exact ⟨ht.destructed, rfl⟩
  | cons x l ih =>
    obtain ⟨destructed, he⟩ := ih ((ht.callDestructor x).pefree x)
    refine ⟨destructed, ?_⟩
    rw [List.foldl_cons, he, List.diff_cons]
    rfl

theorem diff_self (l : List BucketPtr) : l.diff l = [] := by
  induction l with
  | nil => rfl
  | cons x l ih => simpa using ih

theorem Valid.zendHashClean (hv : ht.Valid l) :
    ∃ ht', ht.zendHashClean = some ht' ∧ ht'.Valid [] ∧ ht'.nNextFreeElement = 0 := by
  unfold HashTable.zendHashClean
  rw [hv.listFrom_eq, Option.map_some]
  obtain ⟨destructed, he⟩ := foldl_pefree_eq l
    { ht with
      arBuckets := fun _ => none
      pListHead := none
      pListTail := none
      nNumOfElements := 0
      nNextFreeElement := 0
      pInternalPointer := none }
  rw [he]
  refine ⟨_, rfl, ⟨hv.size, hv.mask, DList.nil _ _, ?_, Chained.nil _ _ _ _, ?_, rfl, ?_, ?_⟩, rfl⟩
  · have hd := hv.live.diff_right l
    rwa [diff_self] at hd
  · simp
  · simp
  · simp

end HashTable

end Php53.Zend
