import Mathlib.Data.List.Perm.Subperm
import Php53.Zend.Hash.Table

/-!
# Invariant — what every HashTable satisfies

`Valid ht l` says that `l` is the global list of `ht` and that everything else in the table agrees
with it.  The lemmas of this file say what each piece of linking code does to that invariant; the
operations are assembled from them in `Operations`.
-/

open Reasoning

namespace Php53.Zend

/-- The key a bucket is filed under. -/
inductive HashKey where
  | index (h : BitVec 64)
  | str (arKey : List UInt8)
deriving DecidableEq, Repr

namespace HashKey

def hash : HashKey → BitVec 64
  | index h => h
  | str arKey => zendInlineHashFunc arKey

def ofArKey (arKey : List UInt8) (h : BitVec 64) : HashKey :=
  if arKey.length = 0 then index h else str arKey

theorem hash_ofArKey {arKey : List UInt8} {h : BitVec 64}
    (hh : arKey ≠ [] → h = zendInlineHashFunc arKey) : (ofArKey arKey h).hash = h := by
  unfold ofArKey
  split
  · rfl
  · exact (hh (by simp_all)).symm

end HashKey

namespace HashTable

variable {α : Type}

variable {n : Nat} {l : List BucketPtr} {p : BucketPtr} {k : HashKey} {ht : HashTable α}
  {ht' : HashTable α}

def key (ht : HashTable α) (p : BucketPtr) : HashKey :=
  if ht.nKeyLength p = 0 then .index (ht.h p) else .str (ht.arKey p)

def HashOk (ht : HashTable α) (p : BucketPtr) : Prop :=
  ht.nKeyLength p ≠ 0 →
    ht.h p = zendInlineHashFunc (ht.arKey p) ∧ (ht.arKey p).length = ht.nKeyLength p

structure Valid (ht : HashTable α) (l : List BucketPtr) : Prop where
  size : ∃ k, 3 ≤ k ∧ k ≤ 31 ∧ ht.nTableSize = 2 ^ k
  mask : ht.nTableMask = ht.nTableSize - 1
  list : DList ht.pListNext ht.pListLast ht.pListHead ht.pListTail l
  live : ht.live.Perm l
  chains : Chained ht.nTableSize ht.arBuckets ht.pNext ht.pLast (fun p => ht.index (ht.h p)) l
  cursor : ∀ p ∈ ht.pInternalPointer, p ∈ l
  count : ht.nNumOfElements = l.length % uintModulus
  hash : ∀ p ∈ l, ht.HashOk p
  keys : (l.map ht.key).Nodup

theorem uintInc_mod (n : Nat) : uintInc (n % uintModulus) = (n + 1) % uintModulus := by
  unfold uintInc uintModulus
  split <;> omega

theorem uintDec_mod (h : 0 < n) :
    uintDec (n % uintModulus) = (n - 1) % uintModulus := by
  unfold uintDec uintModulus
  split <;> omega

theorem Valid.index_lt (hv : ht.Valid l) (h : BitVec 64) : ht.index h < ht.nTableSize := by
  obtain ⟨k, -, -, hk⟩ := hv.size
  rw [index, hv.mask, hk, Nat.and_two_pow_sub_one_eq_mod]
  exact Nat.mod_lt _ (Nat.two_pow_pos _)

theorem HashOk.hash_key (h : ht.HashOk p) :
    (ht.key p).hash = ht.h p := by
  by_cases hk : ht.nKeyLength p = 0
  · simp [key, hk, HashKey.hash]
  · simp [key, hk, HashKey.hash, (h hk).1]

theorem matchesIndex_iff (ht : HashTable α) (h : BitVec 64) (p : BucketPtr) :
    ht.matchesIndex h p = true ↔ ht.key p = .index h := by
  unfold matchesIndex key
  by_cases hk : ht.nKeyLength p = 0 <;> simp [hk]

theorem HashOk.key_eq_ofArKey_iff (hok : ht.HashOk p) {arKey : List UInt8} (h : BitVec 64)
    (hh : arKey ≠ [] → h = zendInlineHashFunc arKey) :
    ht.key p = HashKey.ofArKey arKey h ↔
      ht.h p = h ∧ ht.nKeyLength p = arKey.length ∧
        (ht.arKey p).take arKey.length = arKey := by
  unfold key HashKey.ofArKey
  by_cases ha : arKey = []
  · subst ha
    by_cases hk : ht.nKeyLength p = 0 <;> simp [hk]
  · have hlen : ¬ arKey.length = 0 := by simpa using ha
    by_cases hk : ht.nKeyLength p = 0
    · have hne : ¬ 0 = arKey.length := fun he => hlen he.symm
      simp [hk, ha, hne]
    · obtain ⟨hph, hpl⟩ := hok hk
      simp only [if_neg hk, if_neg hlen, HashKey.str.injEq]
      constructor
      · rintro rfl
        exact ⟨hph.trans (hh ha).symm, hpl.symm, List.take_length⟩
      · rintro ⟨-, hl, ht⟩
        rwa [List.take_of_length_le (by omega)] at ht

theorem HashOk.matchesKey_iff (hok : ht.HashOk p) {arKey : List UInt8} {h : BitVec 64}
    (hh : arKey ≠ [] → h = zendInlineHashFunc arKey) :
    ht.matchesKey arKey h p = true ↔ ht.key p = HashKey.ofArKey arKey h := by
  rw [hok.key_eq_ofArKey_iff h hh, matchesKey, memcmpEq]
  simp [and_assoc]

theorem chainFind_of_walk {hit : BucketPtr → Bool} {c : List BucketPtr} {p : Option BucketPtr}
    (hw : Walk ht.pNext p c) (hn : c.length ≤ n) :
    ht.chainFind hit n p = some (c.find? hit) := by
  induction c generalizing n p with
  | nil =>
    rw [show p = none from hw]
    cases n <;> rfl
  | cons x c ih =>
    obtain ⟨rfl, hw⟩ := hw
    obtain ⟨m, rfl⟩ : ∃ m, n = m + 1 := ⟨n - 1, by simp at hn; omega⟩
    rw [chainFind, List.find?_cons]
    cases hx : hit x with
    | true => simp
    | false => simpa using ih hw (by simpa using hn)

/-- The bucket filed under `k`. -/
def lookup (ht : HashTable α) (l : List BucketPtr) (k : HashKey) : Option BucketPtr :=
  l.find? fun p => ht.key p = k

theorem lookup_some (h : ht.lookup l k = some p) : p ∈ l ∧ ht.key p = k := by
  refine ⟨List.mem_of_find?_eq_some h, ?_⟩
  simpa using List.find?_some h

theorem lookup_none :
    ht.lookup l k = none ↔ k ∉ l.map ht.key := by
  simp [lookup]

theorem Valid.lookup_eq (hv : ht.Valid l) (hp : p ∈ l) : ht.lookup l (ht.key p) = some p := by
  cases hl : ht.lookup l (ht.key p) with
  | none => exact (lookup_none.mp hl (List.mem_map_of_mem hp)).elim
  | some q =>
    obtain ⟨hq, hk⟩ := lookup_some hl
    rw [List.inj_on_of_nodup_map hv.keys hq hp hk]

theorem Valid.chainFind_mem (hv : ht.Valid l) (hit : BucketPtr → Bool) (h : BitVec 64) :
    ∃ o, ht.chainFind hit ht.live.length (ht.arBuckets (ht.index h)) = some o ∧
      ∀ p ∈ o, p ∈ l ∧ hit p = true := by
  obtain ⟨c, hnd, hmem, hlink, hhead⟩ := hv.chains _ (hv.index_lt h)
  have hlen : c.length ≤ ht.live.length := by
    rw [hv.live.length_eq]
    exact (hnd.subperm fun p hp => ((hmem p).mp hp).1).length_le
  refine ⟨c.find? hit, ?_, fun p hp => ⟨?_, List.find?_some hp⟩⟩
  · rw [hhead, chainFind_of_walk hlink.walk hlen]
  · exact ((hmem p).mp (List.mem_of_find?_eq_some hp)).1

theorem Valid.chainFind_eq (hv : ht.Valid l) {hit : BucketPtr → Bool}
    (hhit : ∀ p ∈ l, hit p = true ↔ ht.key p = k) :
    ht.chainFind hit ht.live.length (ht.arBuckets (ht.index k.hash)) =
      some (ht.lookup l k) := by
  obtain ⟨c, hnd, hmem, hlink, hhead⟩ := hv.chains _ (hv.index_lt k.hash)
  have hlen : c.length ≤ ht.live.length := by
    rw [hv.live.length_eq]
    exact (hnd.subperm fun p hp => ((hmem p).mp hp).1).length_le
  rw [hhead, chainFind_of_walk hlink.walk hlen]
  congr 1
  cases hl : ht.lookup l k with
  | none =>
    rw [List.find?_eq_none]
    intro p hp hh
    have hpl := ((hmem p).mp hp).1
    exact lookup_none.mp hl (by rw [← (hhit p hpl).mp hh]; exact List.mem_map_of_mem hpl)
  | some q =>
    obtain ⟨hq, hk⟩ := lookup_some hl
    have hqc : q ∈ c := (hmem q).mpr ⟨hq, by rw [← hk, (hv.hash q hq).hash_key]⟩
    cases hf : c.find? hit with
    | none => exact (List.find?_eq_none.mp hf q hqc ((hhit q hq).mpr hk)).elim
    | some p =>
      have hpc := List.mem_of_find?_eq_some hf
      have hpl := ((hmem p).mp hpc).1
      have hkp := (hhit p hpl).mp (List.find?_some hf)
      rw [List.inj_on_of_nodup_map hv.keys hpl hq (hkp.trans hk.symm)]

def unlinkChain (ht : HashTable α) (p : BucketPtr) : HashTable α :=
  { ht with
    arBuckets :=
      if ht.pLast p = none then Function.update ht.arBuckets (ht.index (ht.h p)) (ht.pNext p)
      else ht.arBuckets
    pNext := updateAt ht.pNext (ht.pLast p) (ht.pNext p)
    pLast := updateAt ht.pLast (ht.pNext p) (ht.pLast p) }

theorem Valid.unlinkChainByHead_eq (hv : ht.Valid l) (hp : p ∈ l) :
    ht.unlinkChainByHead (ht.index (ht.h p)) p = ht.unlinkChain p := by
  have hiff := hv.chains.head_iff hp (hv.index_lt _)
  unfold unlinkChainByHead unlinkChain
  by_cases hh : ht.pLast p = none
  · rw [if_pos (hiff.mpr hh), if_pos hh]
    simp only [hh, updateAt_none]
  · rw [if_neg (fun h => hh (hiff.mp h)), if_neg hh]

theorem unlinkChainByLast_eq (ht : HashTable α) (p : BucketPtr) :
    ht.unlinkChainByLast p = ht.unlinkChain p := by
  unfold unlinkChainByLast unlinkChain
  cases hh : ht.pLast p <;> simp

/-- A deletion as one update of the record: chain, global list, cursor, memory and counter. -/
def deleteBucket (ht : HashTable α) (p : BucketPtr) : HashTable α :=
  { ht with
    arBuckets :=
      if ht.pLast p = none then Function.update ht.arBuckets (ht.index (ht.h p)) (ht.pNext p)
      else ht.arBuckets
    pNext := updateAt ht.pNext (ht.pLast p) (ht.pNext p)
    pLast := updateAt ht.pLast (ht.pNext p) (ht.pLast p)
    pListNext := updateAt ht.pListNext (ht.pListLast p) (ht.pListNext p)
    pListHead := if ht.pListLast p = none then ht.pListNext p else ht.pListHead
    pListLast := updateAt ht.pListLast (ht.pListNext p) (ht.pListLast p)
    pListTail := if ht.pListNext p = none then ht.pListLast p else ht.pListTail
    pInternalPointer :=
      if ht.pInternalPointer = some p then ht.pListNext p else ht.pInternalPointer
    destructed := if ht.pDestructor then ht.destructed ++ [ht.pData p] else ht.destructed
    live := ht.live.erase p
    nNumOfElements := uintDec ht.nNumOfElements }

theorem Valid.delete (hv : ht.Valid l) (hp : p ∈ l) : (ht.deleteBucket p).Valid (l.erase p) where
  size := hv.size
  mask := hv.mask
  list := hv.list.unlink hp
  live := hv.live.erase p
  chains := hv.chains.unlink hv.list.nodup hp (hv.index_lt _)
  cursor := by
    intro q hq
    change q ∈ (if ht.pInternalPointer = some p then ht.pListNext p else ht.pInternalPointer) at hq
    rw [hv.list.nodup.mem_erase_iff]
    split at hq
    · exact (hv.list.next_mem hp hq).symm
    · rename_i hne
      exact ⟨fun he => hne (he ▸ hq), hv.cursor q hq⟩
  count := by
    change uintDec ht.nNumOfElements = _
    rw [hv.count, List.length_erase_of_mem hp, uintDec_mod (List.length_pos_of_mem hp)]
  hash := fun q hq => hv.hash q (List.mem_of_mem_erase hq)
  keys := hv.keys.sublist (List.erase_sublist.map _)

theorem Valid.deleteBucketByHead_eq (hv : ht.Valid l) (hp : p ∈ l) :
    ht.deleteBucketByHead (ht.index (ht.h p)) p = ht.deleteBucket p := by
  rw [HashTable.deleteBucketByHead, hv.unlinkChainByHead_eq hp]
  rfl

theorem zendHashApplyDeleter_fst (ht : HashTable α) (p : BucketPtr) :
    (ht.zendHashApplyDeleter p).1 = ht.deleteBucket p := by
  rw [zendHashApplyDeleter, unlinkChainByLast_eq]
  rfl

theorem rehashLoop_eq (ht : HashTable α) (a : List BucketPtr) {b : List BucketPtr}
    {p : Option BucketPtr} (hw : Walk ht.pListNext p b) (hn : b.length ≤ n) (hnd : (a ++ b).Nodup)
    (hlt : ∀ h, ht.index h < ht.nTableSize)
    (hc : Chained ht.nTableSize ht.arBuckets ht.pNext ht.pLast (fun p => ht.index (ht.h p)) a) :
    ∃ arBuckets pNext pLast,
      rehashLoop n p ht =
        some { ht with arBuckets := arBuckets, pNext := pNext, pLast := pLast } ∧
      Chained ht.nTableSize arBuckets pNext pLast (fun p => ht.index (ht.h p)) (a ++ b) := by
  induction b generalizing ht a n p with
  | nil =>
    refine ⟨ht.arBuckets, ht.pNext, ht.pLast, ?_, by simpa using hc⟩
    rw [show p = none from hw]
    cases n <;> rfl
  | cons x b ih =>
    obtain ⟨rfl, hw⟩ := hw
    obtain ⟨m, rfl⟩ : ∃ m, n = m + 1 := ⟨n - 1, by simp at hn; omega⟩
    have hx : x ∉ a := fun hm => by
      rw [List.nodup_append] at hnd
      exact hnd.2.2 x hm x (by simp) rfl
    have hmem : ∀ p, p ∈ a ++ [x] ↔ p ∈ x :: a := fun p => by simp [or_comm]
    have hpush := (hc.push hx (hlt (ht.h x))).congr hmem (fun _ _ => rfl)
    let ht1 := (ht.connectToBucketDllist x (ht.arBuckets (ht.index (ht.h x)))).setArBuckets
      (ht.index (ht.h x)) (some x)
    obtain ⟨arBuckets, pNext, pLast, he, hch⟩ := ih ht1 (a ++ [x]) (n := m)
      hw (by simpa using hn) (by simpa using hnd) hlt hpush
    refine ⟨arBuckets, pNext, pLast, he, ?_⟩
    rwa [List.append_assoc] at hch

theorem zendHashRehash_eq (ht : HashTable α)
    (hl : DList ht.pListNext ht.pListLast ht.pListHead ht.pListTail l) (hlive : ht.live.Perm l)
    (hlt : ∀ h, ht.index h < ht.nTableSize) :
    ∃ arBuckets pNext pLast,
      ht.zendHashRehash = some { ht with arBuckets := arBuckets, pNext := pNext, pLast := pLast } ∧
      Chained ht.nTableSize arBuckets pNext pLast (fun p => ht.index (ht.h p)) l :=
  rehashLoop_eq { ht with arBuckets := fun _ => none } []
    (hl.head_eq ▸ hl.linked.walk) hlive.length_eq.ge hl.nodup hlt (Chained.nil _ _ _ _)

/-- `ht'` is `ht` with its buckets spread over other chains. -/
def Resized (ht ht' : HashTable α) : Prop :=
  ht' = { ht with
    nTableSize := ht'.nTableSize
    nTableMask := ht'.nTableMask
    arBuckets := ht'.arBuckets
    pNext := ht'.pNext
    pLast := ht'.pLast }

theorem Resized.key_eq (h : ht.Resized ht') : ht'.key = ht.key := by
  rw [h]
  rfl

theorem Resized.nNextFreeElement_eq (h : ht.Resized ht') :
    ht'.nNextFreeElement = ht.nNextFreeElement := by
  rw [h]

theorem Resized.pData_eq (h : ht.Resized ht') : ht'.pData = ht.pData := by
  rw [h]

theorem Valid.zendHashRehash (hv : ht.Valid l) :
    ∃ ht', ht.zendHashRehash = some ht' ∧ ht.Resized ht' ∧ ht'.Valid l := by
  obtain ⟨arBuckets, pNext, pLast, he, hc⟩ := zendHashRehash_eq ht hv.list hv.live hv.index_lt
  exact ⟨_, he, rfl, { hv with chains := hc }⟩

theorem Valid.zendHashDoResize (hv : ht.Valid l) (mem : Pemalloc) :
    ∃ ht', ht.zendHashDoResize mem = some ht' ∧ ht.Resized ht' ∧ ht'.Valid l := by
  unfold HashTable.zendHashDoResize
  dsimp only
  split_ifs with hpos hmem
  · obtain ⟨k, hk3, hk31, hk⟩ := hv.size
    have hk' : k ≠ 31 := by
      rintro rfl
      rw [hk] at hpos
      exact absurd hpos (by decide)
    have hsize : ht.nTableSize * 2 % uintModulus = 2 ^ (k + 1) := by
      rw [hk, ← pow_succ]
      exact Nat.mod_eq_of_lt (Nat.pow_lt_pow_right (by decide) (by omega))
    rw [hsize]
    obtain ⟨arBuckets, pNext, pLast, he, hc⟩ := zendHashRehash_eq
      { ht with nTableSize := 2 ^ (k + 1), nTableMask := 2 ^ (k + 1) - 1 } hv.list hv.live
      (fun h => by
        change h.toNat &&& (2 ^ (k + 1) - 1) < 2 ^ (k + 1)
        rw [Nat.and_two_pow_sub_one_eq_mod]
        exact Nat.mod_lt _ (Nat.two_pow_pos _))
    exact ⟨_, he, rfl, { hv with
      size := ⟨k + 1, by omega, by omega, rfl⟩
      mask := rfl
      chains := hc }⟩
  · exact ⟨ht, rfl, rfl, hv⟩
  · exact ⟨ht, rfl, rfl, hv⟩

theorem Valid.zendHashIfFullDoResize (hv : ht.Valid l) (mem : Pemalloc) :
    ∃ ht', ht.zendHashIfFullDoResize mem = some ht' ∧ ht.Resized ht' ∧ ht'.Valid l := by
  unfold HashTable.zendHashIfFullDoResize
  split_ifs
  · exact hv.zendHashDoResize mem
  · exact ⟨ht, rfl, rfl, hv⟩

end HashTable

end Php53.Zend
