import Php53.Reasoning.OrderedMap
import Php53.Zend.Hash.Runs

/-!
# Contents — a HashTable is an ordered map

What a table lists is a map that keeps the order of the first insertions.  The operations that name
a key, or take `nNextFreeElement` for it, do to the table what they do to that map.
-/

open Reasoning

namespace Php53.Zend

/-- What a table holds, and the key of the next element without one. -/
structure Contents (α : Type) where
  entries : List (HashKey × α)
  nextFree : BitVec 64

namespace Contents

variable {α : Type}

def empty : Contents α := { entries := [], nextFree := 0 }

/-- Whether a value gets stored: `HASH_ADD` and `HASH_NEXT_INSERT` leave an old one alone, and a new
one needs memory. -/
def stores (c : Contents α) (k : HashKey) (once : Prop) [Decidable once] (nDataSize : Nat)
    (mem : Pemalloc) : Bool :=
  if k ∈ c.entries.map (·.1) then !once else mem.bucket.isSome && HashTable.initDataOk nDataSize mem

def write (c : Contents α) (arKey : List UInt8) (pData : α) (nDataSize flag : Nat)
    (mem : Pemalloc) : Contents α :=
  if c.stores (.str arKey) (flag &&& hashAdd ≠ 0) nDataSize mem then
    { c with entries := OrderedMap.put (.str arKey) pData c.entries }
  else c

def bump (nextFree h : BitVec 64) : BitVec 64 :=
  if nextFree.toInt ≤ h.toInt then if h.toNat < longMax.toNat then h + 1 else longMax else nextFree

def writeIndex (c : Contents α) (h : BitVec 64) (pData : α) (nDataSize flag : Nat)
    (mem : Pemalloc) : Contents α :=
  let h := if flag &&& hashNextInsert ≠ 0 then c.nextFree else h
  if c.stores (.index h) (flag &&& hashNextInsert ≠ 0 ∨ flag &&& hashAdd ≠ 0) nDataSize mem then
    { entries := OrderedMap.put (.index h) pData c.entries, nextFree := bump c.nextFree h }
  else c

def delete (c : Contents α) (arKey : List UInt8) (h : BitVec 64) : Contents α :=
  if arKey ≠ [] ∧ h ≠ zendInlineHashFunc arKey then c
  else { c with entries := OrderedMap.remove (.ofArKey arKey h) c.entries }

def after (c : Contents α) : HashOp α → Contents α
  | .addOrUpdate arKey pData nDataSize flag mem =>
    if arKey = [] then c else c.write arKey pData nDataSize flag mem
  | .quickAddOrUpdate arKey h pData nDataSize flag mem =>
    if arKey = [] then c.writeIndex h pData nDataSize hashUpdate mem
    else c.write arKey pData nDataSize flag mem
  | .indexUpdateOrNextInsert h pData nDataSize flag mem =>
    c.writeIndex h pData nDataSize flag mem
  | .delKeyOrIndex arKey h flag =>
    c.delete arKey (if flag = .delKey then zendInlineHashFunc arKey else h)
  | .clean => empty
  | _ => c

end Contents

def HashOp.Keyed {α : Type} : HashOp α → Prop
  | .applyDeleter _ => False
  | .updateCurrentKeyEx _ _ _ _ _ _ => False
  | .sort _ _ _ => False
  | _ => True

/-- The operations that can write or delete under a key that is there. -/
def HashOp.Names {α : Type} (k : HashKey) : HashOp α → Prop
  | .addOrUpdate arKey _ _ _ _ => k = .str arKey
  | .quickAddOrUpdate arKey h _ _ _ _ => k = .ofArKey arKey h
  | .indexUpdateOrNextInsert h _ _ flag _ => flag &&& hashNextInsert = 0 ∧ k = .index h
  | .delKeyOrIndex arKey h flag =>
    k = .ofArKey arKey (if flag = .delKey then zendInlineHashFunc arKey else h)
  | .clean => True
  | _ => False

namespace Contents

variable {α : Type} {c : Contents α} {k : HashKey} {v : α}

theorem find_write (h : OrderedMap.find k c.entries = some v) {arKey : List UInt8}
    (hne : k ≠ .str arKey) (pData : α) (nDataSize flag : Nat) (mem : Pemalloc) :
    OrderedMap.find k (c.write arKey pData nDataSize flag mem).entries = some v := by
  unfold write
  split
  · exact (OrderedMap.find_put_of_ne hne).trans h
  · exact h

-- `HASH_NEXT_INSERT` does not overwrite.
theorem find_writeIndex (h : OrderedMap.find k c.entries = some v) {i : BitVec 64} {flag : Nat}
    (hne : flag &&& hashNextInsert = 0 → k ≠ .index i) (pData : α) (nDataSize : Nat)
    (mem : Pemalloc) :
    OrderedMap.find k (c.writeIndex i pData nDataSize flag mem).entries = some v := by
  unfold writeIndex
  dsimp only
  generalize hi : (if flag &&& hashNextInsert ≠ 0 then c.nextFree else i) = j
  split
  · next hstores =>
    refine (OrderedMap.find_put_of_ne ?_).trans h
    intro hk
    by_cases hnext : flag &&& hashNextInsert ≠ 0
    · have hmem : k ∈ c.entries.map (·.1) := by
        by_contra hno
        rw [OrderedMap.find_eq_none_iff.mpr hno] at h
        cases h
      rw [hk] at hmem
      unfold stores at hstores
      rw [if_pos hmem] at hstores
      simp [hnext] at hstores
    · rw [if_neg hnext] at hi
      exact hne (not_not.mp hnext) (hi ▸ hk)
  · exact h

theorem find_after {op : HashOp α} (h : OrderedMap.find k c.entries = some v)
    (hnames : ¬ op.Names k) : OrderedMap.find k (c.after op).entries = some v := by
  cases op with
  | addOrUpdate arKey pData nDataSize flag mem =>
    rw [after]
    split
    · exact h
    · exact find_write h hnames pData nDataSize flag mem
  | quickAddOrUpdate arKey i pData nDataSize flag mem =>
    rw [HashOp.Names, HashKey.ofArKey] at hnames
    rw [after]
    split
    · next hnil =>
      rw [if_pos (List.length_eq_zero_iff.mpr hnil)] at hnames
      exact find_writeIndex h (fun _ => hnames) pData nDataSize mem
    · next hne =>
      rw [if_neg fun hz => hne (List.eq_nil_of_length_eq_zero hz)] at hnames
      exact find_write h hnames pData nDataSize flag mem
  | indexUpdateOrNextInsert i pData nDataSize flag mem =>
    exact find_writeIndex h (fun hzero hk => hnames ⟨hzero, hk⟩) pData nDataSize mem
  | delKeyOrIndex arKey i flag =>
    rw [HashOp.Names] at hnames
    rw [after]
    generalize (if flag = .delKey then zendInlineHashFunc arKey else i) = i at hnames ⊢
    rw [delete]
    split
    · exact h
    · exact (OrderedMap.find_remove_of_ne hnames).trans h
  | clean => exact absurd trivial hnames
  | applyDeleter | updateCurrentKeyEx | rehash | doResize | sort | internalPointerReset
  | internalPointerEnd | moveForward | moveBackwards => exact h

end Contents

namespace HashTable

open List

variable {α : Type} {ht ht' : HashTable α} {l : List BucketPtr} {h : BitVec 64} {p : BucketPtr}
  {k : HashKey} {c : Contents α} {arKey : List UInt8} {mem : Pemalloc} {ops : List (HashOp α)}

def entriesOf (ht : HashTable α) (l : List BucketPtr) : List (HashKey × α) :=
  l.map fun p => (ht.key p, ht.pData p)

def contents (ht : HashTable α) : Contents α :=
  { entries := ht.entriesOf ht.buckets, nextFree := ht.nNextFreeElement }

/-- A table that lists `l` holds `c`. -/
def Holds (ht : HashTable α) (c : Contents α) : Prop :=
  ∃ l, ht.Valid l ∧ c.entries = ht.entriesOf l ∧ c.nextFree = ht.nNextFreeElement

theorem keys_entriesOf (ht : HashTable α) (l : List BucketPtr) :
    (ht.entriesOf l).map (·.1) = l.map ht.key := by
  unfold entriesOf
  rw [map_map]
  rfl

theorem find_entriesOf (ht : HashTable α) (l : List BucketPtr) (k : HashKey) :
    OrderedMap.find k (ht.entriesOf l) = (ht.lookup l k).map ht.pData := by
  unfold OrderedMap.find entriesOf lookup
  rw [find?_map, Option.map_map]
  rfl

theorem Valid.put_found (hv : ht.Valid l) (hp : ht.lookup l k = some p) (v : α) :
    OrderedMap.put k v (ht.entriesOf l) = (ht.updateData p v).entriesOf l := by
  obtain ⟨hpl, hk⟩ := lookup_some hp
  have hmem : k ∈ (ht.entriesOf l).map (·.1) := by
    rw [keys_entriesOf, ← hk]
    exact mem_map_of_mem hpl
  rw [OrderedMap.put_of_mem hmem]
  unfold entriesOf
  rw [map_map]
  apply map_congr_left
  intro q hq
  show (if ht.key q = k then (k, v) else (ht.key q, ht.pData q)) =
    (ht.key q, Function.update ht.pData p v q)
  by_cases hqp : q = p
  · rw [hqp, if_pos hk, hk, Function.update_self]
  · have hne : ht.key q ≠ k := by
      intro hqk
      apply hqp
      exact inj_on_of_nodup_map hv.keys hq hpl (hqk.trans hk.symm)
    rw [if_neg hne, Function.update_of_ne hqp]

theorem put_new (hk : k ∉ l.map ht.key) (hp : p ∉ l) (hkey : HashKey.ofArKey arKey h = k) (v : α) :
    OrderedMap.put k v (ht.entriesOf l) = (ht.insertBucket p arKey h v).entriesOf (l ++ [p]) := by
  have hdata : (ht.insertBucket p arKey h v).pData p = v := Function.update_self ..
  rw [← keys_entriesOf] at hk
  rw [OrderedMap.put_of_not_mem hk]
  unfold entriesOf
  rw [map_append, map_singleton, key_insertBucket_self, hkey, hdata]
  congr 1
  apply map_congr_left
  intro q hq
  have hne : q ≠ p := fun he => hp (he ▸ hq)
  rw [key_insertBucket_of_ne _ _ _ _ hne]
  exact congrArg _ (Function.update_of_ne hne _ _).symm

theorem Resized.entriesOf_eq (hr : ht.Resized ht') (l : List BucketPtr) :
    ht'.entriesOf l = ht.entriesOf l := by
  unfold entriesOf
  rw [hr.key_eq, hr.pData_eq]

theorem Valid.remove_found (hv : ht.Valid l) (hp : ht.lookup l k = some p) :
    OrderedMap.remove k (ht.entriesOf l) = (ht.deleteBucket p).entriesOf (l.erase p) := by
  obtain ⟨hpl, hk⟩ := lookup_some hp
  unfold OrderedMap.remove
  rw [hv.list.nodup.erase_eq_filter]
  show (l.map fun q => (ht.key q, ht.pData q)).filter _ =
    (l.filter fun q => q != p).map fun q => (ht.key q, ht.pData q)
  rw [filter_map]
  congr 1
  apply filter_congr
  intro q hq
  have hiff : ht.key q = k ↔ q = p := by
    constructor
    · intro hqk
      exact inj_on_of_nodup_map hv.keys hq hpl (hqk.trans hk.symm)
    · intro hqp
      rw [hqp, hk]
  rw [Bool.eq_iff_iff]
  simp [hiff]

theorem remove_missing (hk : ht.lookup l k = none) :
    OrderedMap.remove k (ht.entriesOf l) = ht.entriesOf l := by
  unfold OrderedMap.remove
  apply filter_eq_self.mpr
  intro e he
  have hne : e.1 ≠ k := by
    intro hek
    have hmem := mem_map_of_mem (f := fun e : HashKey × α => e.1) he
    rw [keys_entriesOf] at hmem
    exact lookup_none.mp hk (hek ▸ hmem)
  exact decide_eq_true hne

theorem stores_found {once : Prop} [Decidable once] (hc : c.entries = ht.entriesOf l)
    (hp : ht.lookup l k = some p) (nDataSize : Nat) (mem : Pemalloc) :
    c.stores k once nDataSize mem = !once := by
  obtain ⟨hpl, hk⟩ := lookup_some hp
  have hmem : k ∈ c.entries.map (·.1) := by
    rw [hc, keys_entriesOf, ← hk]
    exact mem_map_of_mem hpl
  exact if_pos hmem

theorem stores_missing {once : Prop} [Decidable once] (hc : c.entries = ht.entriesOf l)
    (hk : ht.lookup l k = none) (nDataSize : Nat) (mem : Pemalloc) :
    c.stores k once nDataSize mem = (mem.bucket.isSome && initDataOk nDataSize mem) := by
  have hmem : k ∉ c.entries.map (·.1) := by
    rw [hc, keys_entriesOf]
    exact lookup_none.mp hk
  exact if_neg hmem

theorem gives_iff (nDataSize : Nat) (mem : Pemalloc) :
    (mem.bucket.isSome && initDataOk nDataSize mem) = false ↔
      mem.bucket = none ∨ initDataOk nDataSize mem = false := by
  cases mem.bucket <;> simp

theorem Valid.gives_new (hv : ht.Valid l) (hmem : ht.Fresh mem) {nDataSize : Nat}
    (hgives : (mem.bucket.isSome && initDataOk nDataSize mem) = true) :
    ∃ p, mem.bucket = some p ∧ p ∉ l ∧ initDataOk nDataSize mem = true := by
  obtain ⟨hsome, hdata⟩ := Bool.and_eq_true_iff.mp hgives
  obtain ⟨p, hp⟩ := Option.isSome_iff_exists.mp hsome
  exact ⟨p, hp, fun hm => hmem p hp (hv.live.mem_iff.mpr hm), hdata⟩

section

variable (hv : ht.Valid l) (hc : c.entries = ht.entriesOf l)
  (hnext : c.nextFree = ht.nNextFreeElement)

include hv hc hnext

theorem Valid.write_holds (hne : arKey ≠ []) (hh : h = zendInlineHashFunc arKey) (pData : α)
    (nDataSize flag : Nat) (hmem : ht.Fresh mem) :
    ∃ o, ht.addOrUpdateHashed arKey h pData nDataSize flag mem = some o ∧
      o.table.Holds (c.write arKey pData nDataSize flag mem) := by
  have hkey : HashKey.ofArKey arKey h = .str arKey :=
    if_neg fun hz => hne (List.eq_nil_of_length_eq_zero hz)
  unfold Contents.write
  cases hl : ht.lookup l (.str arKey) with
  | some p =>
    rw [hv.addOrUpdateHashed_found (fun _ => hh) (hkey ▸ hl), stores_found hc hl]
    by_cases hadd : flag &&& hashAdd ≠ 0
    · rw [if_pos hadd, if_neg (by simp [hadd])]
      exact ⟨_, rfl, l, hv, hc, hnext⟩
    · rw [if_neg hadd, if_pos (by simpa using hadd)]
      refine ⟨_, rfl, l, hv.updateData p pData, ?_, hnext⟩
      show OrderedMap.put _ pData c.entries = _
      rw [hc, hv.put_found hl]
  | none =>
    rw [stores_missing hc hl]
    cases hgives : mem.bucket.isSome && initDataOk nDataSize mem with
    | false =>
      have hno := hv.addOrUpdateHashed_noMemory (fun _ => hh) (hkey ▸ hl) pData nDataSize flag
        ((gives_iff nDataSize mem).mp hgives)
      exact ⟨_, hno, l, hv, hc, hnext⟩
    | true =>
      -- the new bucket comes last, also where the table is resized behind it
      obtain ⟨p, hp, hpl, hdata⟩ := hv.gives_new hmem hgives
      obtain ⟨ht', he, hr, hv'⟩ := hv.addOrUpdateHashed_new (fun _ => hh) (hkey ▸ hl) pData nDataSize
        flag hmem hp hdata
      refine ⟨_, he, _, hv', ?_, hnext.trans hr.nNextFreeElement_eq.symm⟩
      show OrderedMap.put _ pData c.entries = _
      rw [hc, hr.entriesOf_eq, put_new (lookup_none.mp hl) hpl hkey]

theorem Valid.writeIndex_holds (h : BitVec 64) (pData : α) (nDataSize flag : Nat)
    (hmem : ht.Fresh mem) :
    ∃ o, ht.zendHashIndexUpdateOrNextInsert h pData nDataSize flag mem = some o ∧
      o.table.Holds (c.writeIndex h pData nDataSize flag mem) := by
  have hindex : (if flag &&& hashNextInsert ≠ 0 then c.nextFree else h) = ht.insertIndex h flag := by
    rw [hnext]
    rfl
  have hbump : ∀ i, Contents.bump c.nextFree i = (ht.bumpNextFreeElement i).nNextFreeElement := by
    intro i
    rw [hnext]
    rfl
  unfold Contents.writeIndex
  dsimp only
  rw [hindex, hbump]
  cases hl : ht.lookup l (.index (ht.insertIndex h flag)) with
  | some p =>
    rw [hv.indexUpdate_found hl, stores_found hc hl]
    by_cases honce : flag &&& hashNextInsert ≠ 0 ∨ flag &&& hashAdd ≠ 0
    · rw [if_pos honce, if_neg (by rw [decide_eq_true honce]; decide)]
      exact ⟨_, rfl, l, hv, hc, hnext⟩
    · rw [if_neg honce, if_pos (by rw [decide_eq_false honce]; decide)]
      refine ⟨_, rfl, l, (hv.updateData p pData).setNextFreeElement _, ?_, rfl⟩
      show OrderedMap.put _ pData c.entries = _
      rw [hc, hv.put_found hl]
      rfl
  | none =>
    rw [stores_missing hc hl]
    cases hgives : mem.bucket.isSome && initDataOk nDataSize mem with
    | false =>
      have hno := hv.indexUpdate_noMemory hl pData nDataSize ((gives_iff nDataSize mem).mp hgives)
      exact ⟨_, hno, l, hv, hc, hnext⟩
    | true =>
      obtain ⟨p, hp, hpl, hdata⟩ := hv.gives_new hmem hgives
      obtain ⟨ht', he, hr, hv'⟩ := hv.indexUpdate_new hl pData nDataSize hmem hp hdata
      refine ⟨_, he, _, hv', ?_, hr.nNextFreeElement_eq.symm⟩
      show OrderedMap.put _ pData c.entries = _
      rw [hc, hr.entriesOf_eq]
      exact put_new (lookup_none.mp hl) hpl (show HashKey.ofArKey [] _ = _ from rfl) pData

theorem Valid.delete_holds (arKey : List UInt8) (h : BitVec 64) (flag : HashDelFlag) :
    ∃ o, ht.zendHashDelKeyOrIndex arKey h flag = some o ∧
      o.table.Holds (c.delete arKey (if flag = .delKey then zendInlineHashFunc arKey else h)) := by
  unfold HashTable.zendHashDelKeyOrIndex Contents.delete
  dsimp only
  generalize (if flag = .delKey then zendInlineHashFunc arKey else h) = h
  by_cases hwrong : arKey ≠ [] ∧ h ≠ zendInlineHashFunc arKey
  · obtain ⟨o, he, ho⟩ := hv.chainFind_deletes arKey h
    rw [he, if_pos hwrong]
    cases o with
    | none => exact ⟨_, rfl, l, hv, hc, hnext⟩
    | some p =>
      -- the hash of a listed key is right
      exfalso
      obtain ⟨hp, hhash, hlength, hkeys⟩ := ho p rfl
      have hnonempty : ht.nKeyLength p ≠ 0 := by
        rw [hlength]
        exact fun hz => hwrong.1 (List.eq_nil_of_length_eq_zero hz)
      obtain ⟨hright, hkeylen⟩ := hv.hash p hp hnonempty
      have hsame := hkeys.resolve_left hnonempty
      rw [memcmpEq, beq_iff_eq, take_length, take_of_length_le (by omega)] at hsame
      apply hwrong.2
      rw [← hhash, hright, hsame]
  · have hh : arKey ≠ [] → h = zendInlineHashFunc arKey := fun hne =>
      not_not.mp fun hdiff => hwrong ⟨hne, hdiff⟩
    have hchain := hv.chainFind_eq fun q hq => (hv.hash q hq).deletes_iff hh
    rw [HashKey.hash_ofArKey hh] at hchain
    rw [hchain, if_neg hwrong]
    cases hl : ht.lookup l (.ofArKey arKey h) with
    | none =>
      refine ⟨_, rfl, l, hv, ?_, hnext⟩
      show OrderedMap.remove _ c.entries = _
      rw [hc, remove_missing hl]
    | some p =>
      obtain ⟨hp, hkey⟩ := lookup_some hl
      have hindex : h = ht.h p := by
        rw [← HashKey.hash_ofArKey hh, ← hkey]
        exact (hv.hash p hp).hash_key
      dsimp only
      rw [hindex, hv.deleteBucketByHead_eq hp, ← hindex]
      refine ⟨_, rfl, _, hv.delete hp, ?_, hnext⟩
      show OrderedMap.remove _ c.entries = _
      rw [hc, hv.remove_found hl]

end

theorem Holds.step {op : HashOp α} (hc : ht.Holds c) (hok : ht.OpOk op) (hkeyed : op.Keyed)
    (hs : ht.step op = some ht') : ht'.Holds (c.after op) := by
  obtain ⟨l, hv, hentries, hnext⟩ := hc
  cases op with
  | addOrUpdate arKey pData nDataSize flag mem =>
    obtain ⟨o, he, ho⟩ := Option.map_eq_some_iff.mp hs
    rw [Contents.after]
    unfold zendHashAddOrUpdate at he
    by_cases hnil : arKey = []
    · rw [hnil] at he ⊢
      cases he
      exact ho ▸ ⟨l, hv, hentries, hnext⟩
    · have hpos : ¬ arKey.length ≤ 0 := fun hz => hnil (List.eq_nil_of_length_eq_zero (Nat.le_zero.mp hz))
      obtain ⟨o', he', ho'⟩ := hv.write_holds hentries hnext hnil rfl pData nDataSize flag hok
      rw [if_neg hpos, he'] at he
      rw [if_neg hnil, ← ho, ← Option.some.inj he]
      exact ho'
  | quickAddOrUpdate arKey h pData nDataSize flag mem =>
    obtain ⟨o, he, ho⟩ := Option.map_eq_some_iff.mp hs
    rw [Contents.after]
    unfold zendHashQuickAddOrUpdate at he
    by_cases hnil : arKey = []
    · obtain ⟨o', he', ho'⟩ := hv.writeIndex_holds hentries hnext h pData nDataSize hashUpdate hok.1
      rw [if_pos (List.length_eq_zero_iff.mpr hnil), he'] at he
      rw [if_pos hnil, ← ho, ← Option.some.inj he]
      exact ho'
    · have hlen : ¬ arKey.length = 0 := fun hz => hnil (List.eq_nil_of_length_eq_zero hz)
      obtain ⟨o', he', ho'⟩ := hv.write_holds hentries hnext hnil (hok.2 hnil) pData nDataSize flag hok.1
      rw [if_neg hlen, he'] at he
      rw [if_neg hnil, ← ho, ← Option.some.inj he]
      exact ho'
  | indexUpdateOrNextInsert h pData nDataSize flag mem =>
    obtain ⟨o, he, ho⟩ := Option.map_eq_some_iff.mp hs
    obtain ⟨o', he', ho'⟩ := hv.writeIndex_holds hentries hnext h pData nDataSize flag hok
    rw [← ho, ← Option.some.inj (he'.symm.trans he)]
    exact ho'
  | delKeyOrIndex arKey h flag =>
    obtain ⟨o, he, ho⟩ := Option.map_eq_some_iff.mp hs
    obtain ⟨o', he', ho'⟩ := hv.delete_holds hentries hnext arKey h flag
    rw [← ho, ← Option.some.inj (he'.symm.trans he)]
    exact ho'
  | applyDeleter p => exact hkeyed.elim
  | updateCurrentKeyEx keyType strIndex numIndex mode pos mem => exact hkeyed.elim
  | sort sortFunc renumber mem => exact hkeyed.elim
  | rehash =>
    obtain ⟨ht1, he, hr, hv'⟩ := hv.zendHashRehash
    cases he.symm.trans hs
    exact ⟨l, hv', hentries.trans (hr.entriesOf_eq l).symm, hnext.trans hr.nNextFreeElement_eq.symm⟩
  | doResize mem =>
    obtain ⟨ht1, he, hr, hv'⟩ := hv.zendHashDoResize mem
    cases he.symm.trans hs
    exact ⟨l, hv', hentries.trans (hr.entriesOf_eq l).symm, hnext.trans hr.nNextFreeElement_eq.symm⟩
  | clean =>
    obtain ⟨ht1, he, hv', hzero⟩ := hv.zendHashClean
    cases he.symm.trans hs
    exact ⟨[], hv', rfl, hzero.symm⟩
  | internalPointerReset =>
    cases hs
    exact ⟨l, hv.setInternalPointer (fun p hp => mem_of_mem_head? (hv.list.head_eq ▸ hp)), hentries, hnext⟩
  | internalPointerEnd =>
    cases hs
    exact ⟨l, hv.setInternalPointer (fun p hp => mem_of_mem_getLast? (hv.list.tail_eq ▸ hp)), hentries, hnext⟩
  | moveForward =>
    cases hs
    refine ⟨l, hv.setInternalPointer ?_, hentries, hnext⟩
    intro q hq
    obtain ⟨p, hp, hpq⟩ := Option.bind_eq_some_iff.mp hq
    exact (hv.list.next_mem (hv.cursor p hp) hpq).1
  | moveBackwards =>
    cases hs
    refine ⟨l, hv.setInternalPointer ?_, hentries, hnext⟩
    intro q hq
    obtain ⟨p, hp, hpq⟩ := Option.bind_eq_some_iff.mp hq
    exact hv.list.last_mem (hv.cursor p hp) hpq

theorem Run.holds {s t : HashTable α} (hrun : Run step OpOk s ops t) (hkeyed : ∀ op ∈ ops, op.Keyed)
    (hs : s.Holds c) : t.Holds (ops.foldl Contents.after c) := by
  induction hrun with
  | nil => exact hs
  | snoc hrun hok hstep ih =>
    rw [foldl_append]
    have hbefore := ih fun op hop => hkeyed op (mem_append_left _ hop)
    exact hbefore.step hok (hkeyed _ (mem_append_right _ (mem_singleton_self _))) hstep

theorem ReachedBy.holds [Inhabited α] (hrun : ht.ReachedBy ops)
    (hkeyed : ∀ op ∈ ops, op.Keyed) : ht.Holds (ops.foldl Contents.after .empty) := by
  obtain ⟨nSize, pDestructor, persistent, hrun⟩ := hrun
  apply Run.holds hrun hkeyed
  exact ⟨[], valid_zendHashInit nSize pDestructor persistent, rfl, rfl⟩

theorem Holds.contents_eq (hc : ht.Holds c) : ht.contents = c := by
  obtain ⟨l, hv, hentries, hnext⟩ := hc
  unfold contents
  rw [hv.buckets_eq, ← hentries, ← hnext]

theorem Holds.find (hc : ht.Holds c) (hh : arKey ≠ [] → h = zendInlineHashFunc arKey) :
    (ht.zendHashQuickFind arKey h).map (·.map ht.pData) =
      some (OrderedMap.find (.ofArKey arKey h) c.entries) := by
  obtain ⟨l, hv, hentries, _⟩ := hc
  rw [hentries, find_entriesOf]
  unfold zendHashQuickFind zendHashIndexFind
  split
  · next hz =>
    rw [hv.find_matchesIndex, HashKey.ofArKey, if_pos hz]
    rfl
  · rw [hv.find_matchesKey hh]
    rfl

/-- Behind every run of operations that name a key or take the next one, the table lists what the
ordered map holds, in its order, and finds under every key what the map has there. -/
theorem hashTable_is_an_ordered_map [Inhabited α] {ops : List (HashOp α)} (hrun : ht.ReachedBy ops)
    (hkeyed : ∀ op ∈ ops, op.Keyed) :
    ht.contents = ops.foldl Contents.after .empty ∧
      ∀ arKey h, (arKey ≠ [] → h = zendInlineHashFunc arKey) →
        (ht.zendHashQuickFind arKey h).map (·.map ht.pData) =
          some (OrderedMap.find (.ofArKey arKey h) (ops.foldl Contents.after .empty).entries) := by
  have hc := hrun.holds hkeyed
  exact ⟨hc.contents_eq, fun arKey h hh => hc.find hh⟩

theorem keyed_nextInserts (n : Nat) : ∀ op ∈ nextInserts n, op.Keyed := by
  intro op hop
  obtain ⟨i, -, rfl⟩ := mem_map.mp hop
  trivial

theorem hashTable_is_an_ordered_map_appends :
    ∃ ht : HashTable Unit, ht.ReachedBy (nextInserts 3) ∧
      ht.contents = (nextInserts 3).foldl Contents.after .empty := by
  obtain ⟨ht, hreach, -⟩ := nextInserts_run (n := 3) (by decide)
  exact ⟨ht, hreach, (hashTable_is_an_ordered_map hreach (keyed_nextInserts 3)).1⟩

theorem Holds.kept (hc : ht.Holds c) (hrun : Run HashTable.step OpOk ht ops ht')
    (hops : ∀ op ∈ ops, op.Keyed ∧ ¬ op.Names k) {v : α}
    (hfound : OrderedMap.find k c.entries = some v) :
    ∃ c', ht'.Holds c' ∧ OrderedMap.find k c'.entries = some v := by
  induction hrun with
  | nil => exact ⟨c, hc, hfound⟩
  | snoc _ hok hstep ih =>
    obtain ⟨c', hc', hfound'⟩ := ih fun op hop => hops op (mem_append_left _ hop)
    obtain ⟨hkeyed, hnames⟩ := hops _ (mem_append_right _ (mem_singleton_self _))
    exact ⟨_, hc'.step hok hkeyed hstep, Contents.find_after hfound' hnames⟩

theorem Valid.holds (hv : ht.Valid l) :
    ht.Holds { entries := ht.entriesOf l, nextFree := ht.nNextFreeElement } :=
  ⟨l, hv, rfl, rfl⟩

-- An update for which there is memory stores its value.
theorem find_update {pData : α} {nDataSize : Nat}
    (hgives : (mem.bucket.isSome && initDataOk nDataSize mem) = true) :
    OrderedMap.find (.ofArKey arKey h)
      (c.after (.quickAddOrUpdate arKey h pData nDataSize hashUpdate mem)).entries = some pData := by
  have hstores : ∀ {k : HashKey} {once : Prop} [Decidable once], ¬ once →
      c.stores k once nDataSize mem = true := by
    intro k once _ honce
    unfold Contents.stores
    rw [hgives, decide_eq_false honce]
    split <;> rfl
  rw [Contents.after, HashKey.ofArKey]
  by_cases hnil : arKey = []
  · rw [if_pos hnil, if_pos (List.length_eq_zero_iff.mpr hnil), Contents.writeIndex,
      if_neg (show ¬ hashUpdate &&& hashNextInsert ≠ 0 by decide), if_pos (hstores (by decide))]
    exact OrderedMap.find_put_self
  · rw [if_neg hnil, if_neg fun hz => hnil (List.eq_nil_of_length_eq_zero hz), Contents.write,
      if_pos (hstores (by decide))]
    exact OrderedMap.find_put_self

/-- From every table that is reached on, a value that is written, with the memory for it, is found
under its key behind every run of such operations that do not name the key, however often the table
grows and is rehashed in it. -/
theorem last_write_is_found [Inhabited α] {before ops : List (HashOp α)} {ht₀ : HashTable α}
    (hbefore : ht₀.ReachedBy before) {arKey : List UInt8} {pData : α} {nDataSize : Nat}
    {mem : Pemalloc} (hh : arKey ≠ [] → h = zendInlineHashFunc arKey) (hfresh : ht₀.Fresh mem)
    (hgives : (mem.bucket.isSome && initDataOk nDataSize mem) = true)
    (hwrite : ht₀.step (.quickAddOrUpdate arKey h pData nDataSize hashUpdate mem) = some ht)
    (hrun : Run step OpOk ht ops ht')
    (hops : ∀ op ∈ ops, op.Keyed ∧ ¬ op.Names (.ofArKey arKey h)) :
    (ht'.zendHashQuickFind arKey h).map (·.map ht'.pData) = some (some pData) := by
  obtain ⟨_, _, _, hreached⟩ := hbefore
  obtain ⟨l, hv⟩ := Run.valid hreached
  have hok : ht₀.OpOk (.quickAddOrUpdate arKey h pData nDataSize hashUpdate mem) := ⟨hfresh, hh⟩
  have hwritten := hv.holds.step hok trivial hwrite
  obtain ⟨c', hc', hfound⟩ := hwritten.kept hrun hops (find_update hgives)
  rw [hc'.find hh, hfound]

theorem last_write_is_found_delete :
    ∃ ht ht' : HashTable Unit, Run step OpOk ht [.delKeyOrIndex [] 1 .delIndex] ht' ∧
      (ht'.zendHashQuickFind [] 0).map (·.map ht'.pData) = some (some ()) := by
  obtain ⟨ht₀, hreach, hv, -⟩ := nextInserts_run (n := 3) (by decide)
  have hfresh : ht₀.Fresh ⟨some 3, true, true⟩ := by
    intro p hp hlive
    cases hp
    exact absurd (hv.live.mem_iff.mp hlive) (by decide)
  obtain ⟨o, ho, -⟩ := hv.writeIndex_holds (c := ⟨_, _⟩) rfl rfl 0 () sizeofVoidPtr hashUpdate
    hfresh
  have hwrite : ht₀.step (.quickAddOrUpdate [] 0 () sizeofVoidPtr hashUpdate ⟨some 3, true, true⟩) =
      some o.table := congrArg (Option.map _) ho
  have hfirst : ht₀.OpOk (.quickAddOrUpdate [] 0 () sizeofVoidPtr hashUpdate ⟨some 3, true, true⟩) :=
    ⟨hfresh, fun hne => absurd rfl hne⟩
  have hholds := hv.holds.step hfirst trivial hwrite
  obtain ⟨l, hvl, hentries, hnext⟩ := hholds
  obtain ⟨o', ho', -⟩ := hvl.delete_holds hentries hnext [] 1 .delIndex
  have hstep : o.table.step (.delKeyOrIndex [] 1 .delIndex) = some o'.table :=
    congrArg (Option.map _) ho'
  have hok : o.table.OpOk (.delKeyOrIndex [] 1 .delIndex) := trivial
  refine ⟨o.table, o'.table, .snoc (.nil _) hok hstep, ?_⟩
  refine last_write_is_found hreach (fun hne => absurd rfl hne) hfresh (by decide) hwrite
    (.snoc (.nil _) hok hstep) ?_
  intro op hop
  rw [mem_singleton.mp hop]
  have hother : HashKey.ofArKey [] 0 ≠ .ofArKey [] 1 := by decide
  exact ⟨trivial, hother⟩

end HashTable

end Php53.Zend
