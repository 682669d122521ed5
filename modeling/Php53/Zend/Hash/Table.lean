import Mathlib.Data.Nat.Bitwise
import Php53.Reasoning.LinkedList

/-!
# Table — the HashTable of `Zend/zend_hash.c`

Bucket memory is kept field by field: a C field `p->pNext` is the map `ht.pNext` at `p`, and an
assignment through a pointer updates that map.  `live` lists the buckets the memory layer has
handed out and not got back.  The memory layer itself is a parameter of every operation that
allocates (`Pemalloc`): it may refuse, or hand out any bucket that is not live.

`uint` counters are natural numbers reduced modulo `2 ^ 32` where they are assigned, `ulong` values
are 64-bit words.  A `while` loop over a list is a recursion with a step bound; the operations pass
the number of live buckets, and an operation yields `none` where the loop would not end or the C
code would run into undefined behaviour.
-/

open Reasoning

namespace Php53.Zend

/-- The address of a `Bucket`; `Option BucketPtr` is a pointer that may be `NULL`. -/
abbrev BucketPtr := Nat

/-- The address of a `zval`. -/
abbrev ZvalPtr := Nat

inductive ZendResult where
  | success
  | failure
deriving DecidableEq, Repr

inductive HashKeyType where
  | isString
  | isLong
  | nonExistant
deriving DecidableEq, Repr

def hashUpdate : Nat := 1
def hashAdd : Nat := 2
def hashNextInsert : Nat := 4

def hashUpdateKeyIfBefore : Nat := 1
def hashUpdateKeyIfAfter : Nat := 2
def hashUpdateKeyAnyway : Nat := 3

inductive HashDelFlag where
  | delKey
  | delIndex
  | delKeyQuick
deriving DecidableEq, Repr

def uintModulus : Nat := 2 ^ 32

/-- `n++` on a `uint` -/
def uintInc (n : Nat) : Nat := if n = uintModulus - 1 then 0 else n + 1

/-- `n--` on a `uint` -/
def uintDec (n : Nat) : Nat := if n = 0 then uintModulus - 1 else n - 1

/-- `sizeof(void*)` on a 64-bit build. -/
def sizeofVoidPtr : Nat := 8

def longMax : BitVec 64 := BitVec.ofNat 64 (2 ^ 63 - 1)

theorem longMax_toInt : longMax.toInt = 2 ^ 63 - 1 := by decide

theorem longMax_toNat : longMax.toNat = 2 ^ 63 - 1 := by decide

theorem toInt_le_longMax (h : BitVec 64) : h.toInt ≤ longMax.toInt := by
  have := BitVec.toInt_lt (x := h)
  rw [longMax_toInt]
  omega

theorem eq_longMax_of_le {h : BitVec 64} (hle : longMax.toInt ≤ h.toInt) : h = longMax :=
  BitVec.eq_of_toInt_eq (Int.le_antisymm (toInt_le_longMax h) hle)

/-- `zend_inline_hash_func`; `char` is signed, so each byte is sign-extended before it is added.
The loop of the source is unrolled eight times. -/
def zendInlineHashFunc (arKey : List UInt8) : BitVec 64 :=
  arKey.foldl (fun hash c => ((hash <<< 5) + hash) + c.toBitVec.signExtend 64) 5381

structure HashTable (α : Type) where
  nTableSize : Nat
  nTableMask : Nat
  nNumOfElements : Nat
  nNextFreeElement : BitVec 64
  pInternalPointer : Option BucketPtr
  pListHead : Option BucketPtr
  pListTail : Option BucketPtr
  arBuckets : Nat → Option BucketPtr
  /-- Whether a destructor is set. -/
  pDestructor : Bool
  persistent : Bool
  nApplyCount : Nat
  bApplyProtection : Bool
  live : List BucketPtr
  h : BucketPtr → BitVec 64
  nKeyLength : BucketPtr → Nat
  arKey : BucketPtr → List UInt8
  pData : BucketPtr → α
  pListNext : BucketPtr → Option BucketPtr
  pListLast : BucketPtr → Option BucketPtr
  pNext : BucketPtr → Option BucketPtr
  pLast : BucketPtr → Option BucketPtr
  /-- The payloads the destructor was called on, oldest first. -/
  destructed : List α

/-- What the memory layer answers during one call. -/
structure Pemalloc where
  /-- `pemalloc` of a `Bucket`. -/
  bucket : Option BucketPtr
  /-- Whether `pemalloc` of a payload that does not fit in `pDataPtr` succeeds. -/
  data : Bool
  /-- Whether the (re)allocation of an array of `Bucket *` succeeds. -/
  buckets : Bool

/-- The outcome of one operation: the new table, the returned code and the bucket `*pDest` points
into. -/
structure Outcome (α : Type) where
  table : HashTable α
  result : ZendResult
  pDest : Option BucketPtr := none

/-- The number of bits `_zend_hash_init` ends up with: `i = 3; while ((1U << i) < nSize) i++`. -/
def initBits (nSize : Nat) : Nat → Nat → Nat
  | 0, i => i
  | n + 1, i => if 2 ^ i < nSize then initBits nSize n (i + 1) else i

/-- `_zend_hash_init`, the allocation of `arBuckets` succeeding. -/
def zendHashInit (α : Type) [Inhabited α] (nSize : Nat) (pDestructor persistent : Bool) :
    HashTable α :=
  let nTableSize := if 2 ^ 31 ≤ nSize then 2 ^ 31 else 2 ^ initBits nSize 28 3
  { nTableSize := nTableSize
    nTableMask := nTableSize - 1
    nNumOfElements := 0
    nNextFreeElement := 0
    pInternalPointer := none
    pListHead := none
    pListTail := none
    arBuckets := fun _ => none
    pDestructor := pDestructor
    persistent := persistent
    nApplyCount := 0
    bApplyProtection := true
    live := []
    h := fun _ => 0
    nKeyLength := fun _ => 0
    arKey := fun _ => []
    pData := fun _ => default
    pListNext := fun _ => none
    pListLast := fun _ => none
    pNext := fun _ => none
    pLast := fun _ => none
    destructed := [] }

namespace HashTable

variable {α : Type}

/-- `h & ht->nTableMask` -/
def index (ht : HashTable α) (h : BitVec 64) : Nat := h.toNat &&& ht.nTableMask

def connectToBucketDllist (ht : HashTable α) (element : BucketPtr)
    (listHead : Option BucketPtr) : HashTable α :=
  { ht with
    pNext := Function.update ht.pNext element listHead
    pLast := updateAt (Function.update ht.pLast element none) listHead (some element) }

def connectToGlobalDllist (ht : HashTable α) (element : BucketPtr) : HashTable α :=
  { ht with
    pListLast := Function.update ht.pListLast element ht.pListTail
    pListTail := some element
    pListNext := updateAt (Function.update ht.pListNext element none) ht.pListTail (some element)
    pListHead := ht.pListHead.or (some element)
    pInternalPointer := ht.pInternalPointer.or (some element) }

def setArBuckets (ht : HashTable α) (nIndex : Nat) (p : Option BucketPtr) : HashTable α :=
  { ht with arBuckets := Function.update ht.arBuckets nIndex p }

/-- Unlinking from the collision chain as `zend_hash_del_key_or_index` does it: the head is
recognised by comparing with `arBuckets`. -/
def unlinkChainByHead (ht : HashTable α) (nIndex : Nat) (p : BucketPtr) : HashTable α :=
  if ht.arBuckets nIndex = some p then
    { ht with
      arBuckets := Function.update ht.arBuckets nIndex (ht.pNext p)
      pLast := updateAt ht.pLast (ht.pNext p) (ht.pLast p) }
  else
    { ht with
      pNext := updateAt ht.pNext (ht.pLast p) (ht.pNext p)
      pLast := updateAt ht.pLast (ht.pNext p) (ht.pLast p) }

/-- Unlinking from the collision chain as `zend_hash_apply_deleter` does it: the head is recognised
by its null `pLast`. -/
def unlinkChainByLast (ht : HashTable α) (p : BucketPtr) : HashTable α :=
  match ht.pLast p with
  | some pLast =>
    { ht with
      pNext := Function.update ht.pNext pLast (ht.pNext p)
      pLast := updateAt ht.pLast (ht.pNext p) (some pLast) }
  | none =>
    { ht with
      arBuckets := Function.update ht.arBuckets (ht.index (ht.h p)) (ht.pNext p)
      pLast := updateAt ht.pLast (ht.pNext p) none }

/-- Unlinking from the global list, the same text at every place that deletes a bucket. -/
def unlinkGlobal (ht : HashTable α) (p : BucketPtr) : HashTable α :=
  { ht with
    pListNext := updateAt ht.pListNext (ht.pListLast p) (ht.pListNext p)
    pListHead := if ht.pListLast p = none then ht.pListNext p else ht.pListHead
    pListLast := updateAt ht.pListLast (ht.pListNext p) (ht.pListLast p)
    pListTail := if ht.pListNext p = none then ht.pListLast p else ht.pListTail
    pInternalPointer :=
      if ht.pInternalPointer = some p then ht.pListNext p else ht.pInternalPointer }

/-- `if (ht->pDestructor) ht->pDestructor(p->pData);` -/
def callDestructor (ht : HashTable α) (p : BucketPtr) : HashTable α :=
  { ht with
    destructed := if ht.pDestructor then ht.destructed ++ [ht.pData p] else ht.destructed }

/-- `pefree(p)` -/
def pefree (ht : HashTable α) (p : BucketPtr) : HashTable α :=
  { ht with live := ht.live.erase p }

/-- `ht->nNumOfElements--` -/
def decNumOfElements (ht : HashTable α) : HashTable α :=
  { ht with nNumOfElements := uintDec ht.nNumOfElements }

/-- `ht->nNumOfElements++` -/
def incNumOfElements (ht : HashTable α) : HashTable α :=
  { ht with nNumOfElements := uintInc ht.nNumOfElements }

/-- The block "delete current bucket" and its two copies: everything from the unlinking to
`pefree(p); ht->nNumOfElements--`. -/
def deleteBucketByHead (ht : HashTable α) (nIndex : Nat) (p : BucketPtr) : HashTable α :=
  ((((ht.unlinkChainByHead nIndex p).unlinkGlobal p).callDestructor p).pefree p).decNumOfElements

/-- `while (p != NULL) { if (hit(p)) break; p = p->pNext; }` -/
def chainFind (ht : HashTable α) (hit : BucketPtr → Bool) :
    Nat → Option BucketPtr → Option (Option BucketPtr)
  | _, none => some none
  | 0, some _ => none
  | n + 1, some p => if hit p then some (some p) else ht.chainFind hit n (ht.pNext p)

/-- `while (r) { if (r == q) break; r = r->pListLast; }`, from `p->pListLast`: does `q` come before
the bucket the walk starts behind? -/
def listedBefore (ht : HashTable α) (q : BucketPtr) : Nat → Option BucketPtr → Option Bool
  | _, none => some false
  | 0, some _ => none
  | n + 1, some r => if r = q then some true else ht.listedBefore q n (ht.pListLast r)

/-- The loop of `zend_hash_rehash`. -/
def rehashLoop : Nat → Option BucketPtr → HashTable α → Option (HashTable α)
  | _, none, ht => some ht
  | 0, some _, _ => none
  | n + 1, some p, ht =>
    let nIndex := ht.index (ht.h p)
    let ht := (ht.connectToBucketDllist p (ht.arBuckets nIndex)).setArBuckets nIndex (some p)
    rehashLoop n (ht.pListNext p) ht

/-- The buckets on the global list from `p` on, as the loops that only read the list see them. -/
def listFrom (ht : HashTable α) : Nat → Option BucketPtr → Option (List BucketPtr)
  | _, none => some []
  | 0, some _ => none
  | n + 1, some p => (ht.listFrom n (ht.pListNext p)).map (p :: ·)

def zendHashRehash (ht : HashTable α) : Option (HashTable α) :=
  rehashLoop ht.live.length ht.pListHead { ht with arBuckets := fun _ => none }

/-- `zend_hash_do_resize`; doubling the largest size gives `0` and leaves the table as it is. -/
def zendHashDoResize (ht : HashTable α) (mem : Pemalloc) : Option (HashTable α) :=
  let nTableSize := ht.nTableSize * 2 % uintModulus
  if nTableSize > 0 then
    if mem.buckets then
      zendHashRehash { ht with nTableSize := nTableSize, nTableMask := nTableSize - 1 }
    else some ht
  else some ht

def zendHashIfFullDoResize (ht : HashTable α) (mem : Pemalloc) : Option (HashTable α) :=
  if ht.nNumOfElements > ht.nTableSize then ht.zendHashDoResize mem else some ht

/-- `memcmp(p->arKey, arKey, n) == 0` -/
def memcmpEq (s t : List UInt8) (n : Nat) : Bool := s.take n == t.take n

def matchesKey (ht : HashTable α) (arKey : List UInt8) (h : BitVec 64) (p : BucketPtr) : Bool :=
  ht.h p == h && ht.nKeyLength p == arKey.length && memcmpEq (ht.arKey p) arKey arKey.length

def matchesIndex (ht : HashTable α) (h : BitVec 64) (p : BucketPtr) : Bool :=
  ht.nKeyLength p == 0 && ht.h p == h

/-- Destroying the old payload and `UPDATE_DATA`. -/
def updateData (ht : HashTable α) (p : BucketPtr) (pData : α) : HashTable α :=
  let ht := ht.callDestructor p
  { ht with pData := Function.update ht.pData p pData }

/-- Whether `INIT_DATA` gets the memory it needs. -/
def initDataOk (nDataSize : Nat) (mem : Pemalloc) : Bool := nDataSize == sizeofVoidPtr || mem.data

/-- Filling a freshly allocated bucket. -/
def newBucket (ht : HashTable α) (p : BucketPtr) (arKey : List UInt8) (h : BitVec 64)
    (pData : α) : HashTable α :=
  { ht with
    live := p :: ht.live
    arKey := Function.update ht.arKey p arKey
    nKeyLength := Function.update ht.nKeyLength p arKey.length
    pData := Function.update ht.pData p pData
    h := Function.update ht.h p h }

def connectBucket (ht : HashTable α) (p : BucketPtr) : HashTable α :=
  let nIndex := ht.index (ht.h p)
  ((ht.connectToBucketDllist p (ht.arBuckets nIndex)).connectToGlobalDllist p).setArBuckets nIndex
    (some p)

/-- The common text of `_zend_hash_add_or_update` and `_zend_hash_quick_add_or_update` once the
hash is known. -/
def addOrUpdateHashed (ht : HashTable α) (arKey : List UInt8) (h : BitVec 64) (pData : α)
    (nDataSize flag : Nat) (mem : Pemalloc) : Option (Outcome α) :=
  match ht.chainFind (ht.matchesKey arKey h) ht.live.length (ht.arBuckets (ht.index h)) with
  | none => none
  | some (some p) =>
    if flag &&& hashAdd ≠ 0 then some { table := ht, result := .failure }
    else some { table := ht.updateData p pData, result := .success, pDest := some p }
  | some none =>
    match mem.bucket with
    | none => some { table := ht, result := .failure }
    | some p =>
      if initDataOk nDataSize mem then
        (((ht.newBucket p arKey h pData).connectBucket p).incNumOfElements.zendHashIfFullDoResize
          mem).map fun ht => { table := ht, result := .success, pDest := some p }
      else some { table := ht, result := .failure }

def zendHashAddOrUpdate (ht : HashTable α) (arKey : List UInt8) (pData : α)
    (nDataSize flag : Nat) (mem : Pemalloc) : Option (Outcome α) :=
  if arKey.length ≤ 0 then some { table := ht, result := .failure }
  else ht.addOrUpdateHashed arKey (zendInlineHashFunc arKey) pData nDataSize flag mem

/-- `if ((long)h >= (long)ht->nNextFreeElement) ht->nNextFreeElement = h < LONG_MAX ? h + 1 :
LONG_MAX;`: the first comparison is signed, the second one is not. -/
def bumpNextFreeElement (ht : HashTable α) (h : BitVec 64) : HashTable α :=
  { ht with
    nNextFreeElement :=
      if ht.nNextFreeElement.toInt ≤ h.toInt then
        if h.toNat < longMax.toNat then h + 1 else longMax
      else ht.nNextFreeElement }

/-- `if (flag & HASH_NEXT_INSERT) h = ht->nNextFreeElement;` -/
def insertIndex (ht : HashTable α) (h : BitVec 64) (flag : Nat) : BitVec 64 :=
  if flag &&& hashNextInsert ≠ 0 then ht.nNextFreeElement else h

def zendHashIndexUpdateOrNextInsert (ht : HashTable α) (h : BitVec 64) (pData : α)
    (nDataSize flag : Nat) (mem : Pemalloc) : Option (Outcome α) :=
  let h := ht.insertIndex h flag
  match ht.chainFind (ht.matchesIndex h) ht.live.length (ht.arBuckets (ht.index h)) with
  | none => none
  | some (some p) =>
    if flag &&& hashNextInsert ≠ 0 ∨ flag &&& hashAdd ≠ 0 then
      some { table := ht, result := .failure }
    else
      some { table := (ht.updateData p pData).bumpNextFreeElement h
             result := .success
             pDest := some p }
  | some none =>
    match mem.bucket with
    | none => some { table := ht, result := .failure }
    | some p =>
      if initDataOk nDataSize mem then
        ((((ht.newBucket p [] h pData).connectBucket p).bumpNextFreeElement
          h).incNumOfElements.zendHashIfFullDoResize mem).map fun ht =>
            { table := ht, result := .success, pDest := some p }
      else some { table := ht, result := .failure }

/-- `_zend_hash_quick_add_or_update`; an empty key is an integer key. -/
def zendHashQuickAddOrUpdate (ht : HashTable α) (arKey : List UInt8) (h : BitVec 64) (pData : α)
    (nDataSize flag : Nat) (mem : Pemalloc) : Option (Outcome α) :=
  if arKey.length = 0 then ht.zendHashIndexUpdateOrNextInsert h pData nDataSize hashUpdate mem
  else ht.addOrUpdateHashed arKey h pData nDataSize flag mem

/-- `zend_hash_index_find`: the bucket whose payload `*pData` is set to. -/
def zendHashIndexFind (ht : HashTable α) (h : BitVec 64) : Option (Option BucketPtr) :=
  ht.chainFind (ht.matchesIndex h) ht.live.length (ht.arBuckets (ht.index h))

def zendHashQuickFind (ht : HashTable α) (arKey : List UInt8) (h : BitVec 64) :
    Option (Option BucketPtr) :=
  if arKey.length = 0 then ht.zendHashIndexFind h
  else ht.chainFind (ht.matchesKey arKey h) ht.live.length (ht.arBuckets (ht.index h))

def zendHashDelKeyOrIndex (ht : HashTable α) (arKey : List UInt8) (h : BitVec 64)
    (flag : HashDelFlag) : Option (Outcome α) :=
  let h := if flag = .delKey then zendInlineHashFunc arKey else h
  let nIndex := ht.index h
  let hit := fun p => ht.h p == h && ht.nKeyLength p == arKey.length &&
    (ht.nKeyLength p == 0 || memcmpEq (ht.arKey p) arKey arKey.length)
  match ht.chainFind hit ht.live.length (ht.arBuckets nIndex) with
  | none => none
  | some (some p) => some { table := ht.deleteBucketByHead nIndex p, result := .success }
  | some none => some { table := ht, result := .failure }

/-- `zend_hash_apply_deleter`; also returns the bucket after `p`. -/
def zendHashApplyDeleter (ht : HashTable α) (p : BucketPtr) :
    HashTable α × Option BucketPtr :=
  let ht := (((ht.unlinkChainByLast p).unlinkGlobal p).decNumOfElements.callDestructor p)
  (ht.pefree p, ht.pListNext p)

def zendHashClean (ht : HashTable α) : Option (HashTable α) :=
  (ht.listFrom ht.live.length ht.pListHead).map fun l =>
    l.foldl (fun ht q => (ht.callDestructor q).pefree q)
      { ht with
        arBuckets := fun _ => none
        pListHead := none
        pListTail := none
        nNumOfElements := 0
        nNextFreeElement := 0
        pInternalPointer := none }

/-- The search for another bucket with the new key in `zend_hash_update_current_key_ex`.  `none`
inside means that the function returns right away, with that code. -/
def updateKeySearch (ht : HashTable α) (keyType : HashKeyType) (strIndex : List UInt8)
    (numIndex : BitVec 64) (p : BucketPtr) : Option (ZendResult ⊕ Option BucketPtr) :=
  match keyType with
  | .isLong =>
    if ht.nKeyLength p = 0 ∧ ht.h p = numIndex then some (.inl .success)
    else (ht.chainFind (ht.matchesIndex numIndex) ht.live.length
      (ht.arBuckets (ht.index numIndex))).map .inr
  | .isString =>
    if ht.nKeyLength p = strIndex.length ∧ memcmpEq (ht.arKey p) strIndex strIndex.length then
      some (.inl .success)
    else
      let h := zendInlineHashFunc strIndex
      (ht.chainFind (ht.matchesKey strIndex h) ht.live.length
        (ht.arBuckets (ht.index h))).map .inr
  | .nonExistant => some (.inl .failure)

/-- The new bucket that takes the place of `p` when the length of the key changes. -/
def replaceBucket (ht : HashTable α) (p q : BucketPtr) (strLength : Nat) : HashTable α :=
  { ht with
    live := q :: ht.live.erase p
    nKeyLength := Function.update ht.nKeyLength q strLength
    arKey := Function.update ht.arKey q []
    pData := Function.update ht.pData q (ht.pData p)
    pListNext :=
      updateAt (Function.update ht.pListNext q (ht.pListNext p)) (ht.pListLast p) (some q)
    pListLast :=
      updateAt (Function.update ht.pListLast q (ht.pListLast p)) (ht.pListNext p) (some q)
    pListTail := if ht.pListNext p = none then some q else ht.pListTail
    pListHead := if ht.pListLast p = none then some q else ht.pListHead
    pInternalPointer := if ht.pInternalPointer = some p then some q else ht.pInternalPointer }

/-- Writing the new key into `p` and linking `p` at the head of its new chain. -/
def rekeyBucket (ht : HashTable α) (keyType : HashKeyType) (strIndex : List UInt8)
    (numIndex : BitVec 64) (p : BucketPtr) : HashTable α :=
  let ht :=
    if keyType = .isLong then { ht with h := Function.update ht.h p numIndex }
    else
      { ht with
        arKey := Function.update ht.arKey p strIndex
        h := Function.update ht.h p (zendInlineHashFunc strIndex) }
  let nIndex := ht.index (ht.h p)
  (ht.connectToBucketDllist p (ht.arBuckets nIndex)).setArBuckets nIndex (some p)

/-- `zend_hash_update_current_key_ex` from `if (p->pNext)` on: `p` leaves its chain, moves to a new
bucket when the key length changes, and gets its new key.  `pemalloc` is not checked by the source:
without memory for the new bucket the behaviour is undefined. -/
def updateKeyOf (ht : HashTable α) (keyType : HashKeyType) (strIndex : List UInt8)
    (numIndex : BitVec 64) (p : BucketPtr) (mem : Pemalloc) :
    Option (HashTable α × BucketPtr) :=
  let strLength := if keyType = .isLong then 0 else strIndex.length
  let ht := ht.unlinkChainByLast p
  if ht.nKeyLength p ≠ strLength then
    mem.bucket.map fun q =>
      ((ht.replaceBucket p q strLength).rekeyBucket keyType strIndex numIndex q, q)
  else some (ht.rekeyBucket keyType strIndex numIndex p, p)

/-- `zend_hash_update_current_key_ex`.  `pos` is the `HashPosition *` argument, `none` when it is
`NULL`; the value left in `*pos` is returned with the outcome. -/
def zendHashUpdateCurrentKeyEx (ht : HashTable α) (keyType : HashKeyType) (strIndex : List UInt8)
    (numIndex : BitVec 64) (mode : Nat) (pos : Option (Option BucketPtr)) (mem : Pemalloc) :
    Option (Outcome α × Option (Option BucketPtr)) :=
  match pos.getD ht.pInternalPointer with
  | none => some ({ table := ht, result := .failure }, pos)
  | some p =>
    match ht.updateKeySearch keyType strIndex numIndex p with
    | none => none
    | some (.inl result) => some ({ table := ht, result := result }, pos)
    | some (.inr none) =>
      (ht.updateKeyOf keyType strIndex numIndex p mem).map fun (ht, p) =>
        ({ table := ht, result := .success }, pos.map fun _ => some p)
    | some (.inr (some q)) =>
      match ht.listedBefore q ht.live.length (ht.pListLast p) with
      | none => none
      | some before =>
        let found := if before then hashUpdateKeyIfAfter else hashUpdateKeyIfBefore
        if mode ≠ hashUpdateKeyAnyway ∧ mode &&& found ≠ 0 then
          some ({ table := ht.deleteBucketByHead (ht.index (ht.h p)) p, result := .failure }, pos)
        else
          ((ht.deleteBucketByHead (ht.index (ht.h q)) q).updateKeyOf keyType strIndex numIndex p
            mem).map fun (ht, p) =>
              ({ table := ht, result := .success }, pos.map fun _ => some p)

/-- Rebuilding the global links from the sorted array; `prev` is `arTmp[j-1]`. -/
def relink (ht : HashTable α) (prev : Option BucketPtr) : List BucketPtr → HashTable α
  | [] => ht
  | p :: arTmp =>
    relink
      { ht with
        pListLast := Function.update ht.pListLast p prev
        pListNext := Function.update ht.pListNext p arTmp.head? }
      (some p) arTmp

/-- The renumbering loop, over the buckets in list order. -/
def renumberFrom (ht : HashTable α) (i : Nat) : List BucketPtr → HashTable α
  | [] => ht
  | p :: l =>
    renumberFrom
      { ht with
        nKeyLength := Function.update ht.nKeyLength p 0
        h := Function.update ht.h p (BitVec.ofNat 64 i) }
      (i + 1) l

/-- `zend_hash_sort`; `sortFunc` is the sort function together with its `compar`.  The element
count is an `int`: past `INT_MAX` the behaviour is undefined. -/
def zendHashSort (ht : HashTable α) (sortFunc : List BucketPtr → List BucketPtr)
    (renumber : Bool) (mem : Pemalloc) : Option (Outcome α) :=
  if ¬ ht.nNumOfElements > 1 ∧ ¬ (renumber ∧ ht.nNumOfElements > 0) then
    some { table := ht, result := .success }
  else if mem.buckets then
    match ht.listFrom ht.live.length ht.pListHead with
    | none => none
    | some l =>
      if 2 ^ 31 ≤ l.length then none
      else
        let arTmp := sortFunc l
        let ht :=
          { ht.relink none arTmp with
            pListHead := arTmp.head?
            pInternalPointer := arTmp.head?
            pListTail := arTmp.getLast? }
        if renumber then
          ({ ht.renumberFrom 0 arTmp with
              nNextFreeElement := BitVec.ofNat 64 arTmp.length }).zendHashRehash.map
            fun ht => { table := ht, result := .success }
        else some { table := ht, result := .success }
  else some { table := ht, result := .failure }

/-- `zend_hash_internal_pointer_reset_ex` with a null `pos` -/
def zendHashInternalPointerReset (ht : HashTable α) : HashTable α :=
  { ht with pInternalPointer := ht.pListHead }

/-- `zend_hash_internal_pointer_end_ex` with a null `pos` -/
def zendHashInternalPointerEnd (ht : HashTable α) : HashTable α :=
  { ht with pInternalPointer := ht.pListTail }

/-- `zend_hash_move_forward_ex` with a null `pos` -/
def zendHashMoveForward (ht : HashTable α) : HashTable α :=
  { ht with pInternalPointer := ht.pInternalPointer.bind ht.pListNext }

/-- `zend_hash_move_backwards_ex` with a null `pos` -/
def zendHashMoveBackwards (ht : HashTable α) : HashTable α :=
  { ht with pInternalPointer := ht.pInternalPointer.bind ht.pListLast }

end HashTable

end Php53.Zend
