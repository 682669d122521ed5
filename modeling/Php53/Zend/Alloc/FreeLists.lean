import Php53.Reasoning.SlotTrie

/-!
# FreeLists — the free lists of the Zend memory manager

Free blocks of less than `ZEND_MM_MAX_SMALL_SIZE` bytes stand in one ring for each size class, all
larger ones in one bitwise trie for each position of the highest bit of the size; two bitmaps say
which of the rings and tries hold a block.  The sizes are those of a 64-bit build without debug
fields.  A block is its address; the fields of the blocks and of the heap are maps, and a result
`none` stands for a call of `zend_mm_panic` or a step through a null pointer.
-/

open Reasoning

namespace Php53.Zend

/-- `ZEND_MM_NUM_BUCKETS`: one bucket for each bit of a `size_t`. -/
def zendMmNumBuckets : ℕ := 64

def zendMmAlignmentLog2 : ℕ := 3

def zendMmAlignedSize (size : BitVec 64) : BitVec 64 := (size + 8 - 1) &&& ~~~(8 - 1)

/-- `sizeof(zend_mm_block)`: the two words of `zend_mm_block_info`. -/
def sizeofZendMmBlock : BitVec 64 := 16

/-- `sizeof(zend_mm_small_free_block)`: the info and two pointers. -/
def sizeofZendMmSmallFreeBlock : BitVec 64 := 32

def zendMmAlignedHeaderSize : BitVec 64 := zendMmAlignedSize sizeofZendMmBlock

/-- `ZEND_MM_ALIGNED_MIN_HEADER_SIZE`: what a free block takes at least. -/
def zendMmAlignedMinHeaderSize : BitVec 64 :=
  let minAllocBlockSize := zendMmAlignedSize zendMmAlignedHeaderSize
  let freeHeaderSize := zendMmAlignedSize sizeofZendMmSmallFreeBlock
  if minAllocBlockSize > freeHeaderSize then minAllocBlockSize else freeHeaderSize

def zendMmMaxSmallSize : BitVec 64 :=
  BitVec.ofNat 64 (zendMmNumBuckets <<< zendMmAlignmentLog2) + zendMmAlignedMinHeaderSize

def zendMmSmallSize (trueSize : BitVec 64) : Bool := trueSize < zendMmMaxSmallSize

def zendMmBucketIndex (trueSize : BitVec 64) : ℕ :=
  ((trueSize >>> zendMmAlignmentLog2) - (zendMmAlignedMinHeaderSize >>> zendMmAlignmentLog2)).toNat

/-- The loop of `zend_mm_high_bit`. -/
def highBitLoop : ℕ → BitVec 64 → ℕ → ℕ
  | 0, _, n => n
  | fuel + 1, size, n => if size ≠ 0 then highBitLoop fuel (size >>> 1) (n + 1) else n

/-- `zend_mm_high_bit`, as written for the compilers without a bit scan; `n` is an unsigned int. -/
def zendMmHighBit (size : BitVec 64) : ℕ :=
  (highBitLoop zendMmNumBuckets size 0 + (2 ^ 32 - 1)) % 2 ^ 32

/-- The table of `zend_mm_low_bit`. -/
def lowBitOffset : List ℕ := [4, 0, 1, 0, 2, 0, 1, 0, 3, 0, 1, 0, 2, 0, 1, 0]

/-- The loop of `zend_mm_low_bit`. -/
def lowBitLoop : ℕ → BitVec 64 → ℕ → ℕ
  | 0, _, index => index
  | fuel + 1, size, index =>
      let n := lowBitOffset.getD (size &&& 15).toNat 0
      if n = 4 then lowBitLoop fuel (size >>> 4) (index + n) else index + n

def zendMmLowBit (size : BitVec 64) : ℕ := lowBitLoop 16 size 0

def zendMmLargeBucketIndex (size : BitVec 64) : ℕ := zendMmHighBit size

/-- A pointer in a free list: to a block, or to the place of a small bucket, which is laid over
    `free_buckets` so that it can stand in its own ring. -/
inductive FreePtr (B : Type)
  | block (b : B)
  | smallFreeBucket (index : ℕ)
  deriving DecidableEq

/-- The fields of the heap and of its blocks that the free lists use. -/
structure MmHeap (B : Type) where
  freeBitmap : BitVec 64
  largeFreeBitmap : BitVec 64
  /-- `large_free_buckets[i]` is the root `i`, `b->child[0]` and `b->child[1]` are child slots. -/
  slots : Slot ℕ B → Option B
  parent : B → Option (Slot ℕ B)
  nextFreeBlock : FreePtr B → FreePtr B
  prevFreeBlock : FreePtr B → FreePtr B
  /-- `info._size` -/
  size : B → BitVec 64

namespace MmHeap

variable {B : Type} [DecidableEq B]

/-- `zend_mm_init`: empty rings, empty tries. -/
def zendMmInit (h : MmHeap B) : MmHeap B :=
  let own (links : FreePtr B → FreePtr B) : FreePtr B → FreePtr B
    | .smallFreeBucket i =>
        if i < zendMmNumBuckets then .smallFreeBucket i else links (.smallFreeBucket i)
    | .block b => links (.block b)
  { h with
    freeBitmap := 0
    largeFreeBitmap := 0
    nextFreeBlock := own h.nextFreeBlock
    prevFreeBlock := own h.prevFreeBlock
    slots := fun
      | .root i => if i < zendMmNumBuckets then none else h.slots (.root i)
      | .child b side => h.slots (.child b side) }

def setSlot (h : MmHeap B) (p : Slot ℕ B) (b : Option B) : MmHeap B :=
  { h with slots := Function.update h.slots p b }

def setParent (h : MmHeap B) (b : B) (p : Option (Slot ℕ B)) : MmHeap B :=
  { h with parent := Function.update h.parent b p }

def setNext (h : MmHeap B) (p next : FreePtr B) : MmHeap B :=
  { h with nextFreeBlock := Function.update h.nextFreeBlock p next }

def setPrev (h : MmHeap B) (p prev : FreePtr B) : MmHeap B :=
  { h with prevFreeBlock := Function.update h.prevFreeBlock p prev }

/-- `*p = mm_block` with the block in a ring of its own. -/
def plant (h : MmHeap B) (p : Slot ℕ B) (b : B) : MmHeap B :=
  (((h.setSlot p (some b)).setParent b (some p)).setNext (.block b) (.block b)).setPrev
    (.block b) (.block b)

def joinRing (h : MmHeap B) (prev b : B) : MmHeap B :=
  let next := h.nextFreeBlock (.block prev)
  let h := (h.setPrev next (.block b)).setNext (.block prev) (.block b)
  ((h.setNext (.block b) next).setPrev (.block b) (.block prev)).setParent b none

/-- The loop over the bits of the size, shifted so that the next one is the highest of `m`. -/
def addLoop (h : MmHeap B) (b : B) (size : BitVec 64) :
    ℕ → BitVec 64 → Slot ℕ B → Option (MmHeap B)
  | 0, _, _ => none
  | fuel + 1, m, p =>
      match h.slots p with
      | none => none
      | some prev =>
          if h.size prev ≠ size then
            let p := Slot.child prev ((m >>> (zendMmNumBuckets - 1)) &&& 1 == 1)
            match h.slots p with
            | none => some (h.plant p b)
            | some _ => addLoop h b size fuel (m <<< 1) p
          else some (h.joinRing prev b)

def zendMmAddToFreeList (h : MmHeap B) (b : B) : Option (MmHeap B) :=
  let size := h.size b
  if !zendMmSmallSize size then
    let index := zendMmLargeBucketIndex size
    let p := Slot.root index
    let h := (h.setSlot (.child b true) none).setSlot (.child b false) none
    match h.slots p with
    | none =>
        let h := h.plant p b
        some { h with largeFreeBitmap := h.largeFreeBitmap ||| (1#64 <<< index) }
    | some _ => h.addLoop b size zendMmNumBuckets (size <<< (zendMmNumBuckets - index)) p
  else
    let index := zendMmBucketIndex size
    let prev := FreePtr.smallFreeBucket index
    let h := if h.prevFreeBlock prev = prev then
        { h with freeBitmap := h.freeBitmap ||| (1#64 <<< index) }
      else h
    let next := h.nextFreeBlock prev
    let h := (h.setPrev (.block b) prev).setNext (.block b) next
    some ((h.setPrev next (.block b)).setNext prev (.block b))

/-- `ZEND_MM_CHECK_TREE`: the slot named as the parent must hold the block. -/
def checkTree (h : MmHeap B) (b : B) : Option (Slot ℕ B) :=
  match h.parent b with
  | none => none
  | some p => if h.slots p = some b then some p else none

/-- `&b->child[b->child[1] != NULL]` -/
def lastChild (h : MmHeap B) (b : B) : Slot ℕ B :=
  .child b (h.slots (.child b true)).isSome

/-- The walk to the block that replaces an inner node; gives `rp` and `prev`. -/
def leafLoop (h : MmHeap B) : ℕ → Slot ℕ B → B → Option (Slot ℕ B × B)
  | 0, _, _ => none
  | fuel + 1, rp, prev =>
      let cp := h.lastChild prev
      match h.slots cp with
      | some c => leafLoop h fuel cp c
      | none => some (rp, prev)

/-- One side of `subst_block`: the child moves over and learns its new place. -/
def moveChild (h : MmHeap B) (b prev : B) (side : Bool) : Option (MmHeap B) :=
  let h := h.setSlot (.child prev side) (h.slots (.child b side))
  match h.slots (.child prev side) with
  | none => some h
  | some c => (h.checkTree c).map fun _ => h.setParent c (some (.child prev side))

/-- `subst_block`: `prev` takes the place of the block in the tree. -/
def substBlock (h : MmHeap B) (b prev : B) : Option (MmHeap B) :=
  match h.checkTree b with
  | none => none
  | some p =>
      let h := (h.setSlot p (some prev)).setParent prev (some p)
      (h.moveChild b prev false).bind fun h => h.moveChild b prev true

def zendMmRemoveFromFreeList (h : MmHeap B) (b : B) : Option (MmHeap B) :=
  let prev := h.prevFreeBlock (.block b)
  let next := h.nextFreeBlock (.block b)
  if prev = .block b then
    if next ≠ .block b then none
    else
      let rp := h.lastChild b
      match h.slots rp with
      | none =>
          let index := zendMmLargeBucketIndex (h.size b)
          match h.checkTree b with
          | none => none
          | some p =>
              let h := h.setSlot p none
              some (if p = .root index then
                { h with largeFreeBitmap := h.largeFreeBitmap &&& ~~~(1#64 <<< index) }
              else h)
      | some prev =>
          match h.leafLoop zendMmNumBuckets rp prev with
          | none => none
          | some (rp, prev) => (h.setSlot rp none).substBlock b prev
  else if h.nextFreeBlock prev ≠ .block b ∨ h.prevFreeBlock next ≠ .block b then none
  else
    let h := (h.setNext prev next).setPrev next prev
    if zendMmSmallSize (h.size b) then
      if prev = next then
        let index := zendMmBucketIndex (h.size b)
        let bucket := FreePtr.smallFreeBucket index
        -- free_buckets[2 * index] is the prev field of the bucket, the one after it the next field
        if h.prevFreeBlock bucket = h.nextFreeBlock bucket then
          some { h with freeBitmap := h.freeBitmap &&& ~~~(1#64 <<< index) }
        else some h
      else some h
    else
      match h.parent b, prev with
      | none, _ => some h
      | some _, .block prev => h.substBlock b prev
      | some _, .smallFreeBucket _ => none

end MmHeap

end Php53.Zend
