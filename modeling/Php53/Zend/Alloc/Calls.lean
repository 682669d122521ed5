import Php53.Zend.Alloc.Blocks

/-!
# Calls — `_zend_mm_alloc_int`, `_zend_mm_free_int`, `_zend_mm_realloc_int`

The calls with all they do to the counters of the heap, to the cache, to the free lists and to the
segments.  A free list is kept as the list of its blocks; which of the blocks on the lists a search
comes up with, and what the storage answers, is taken from outside.  A call that ends in
`zend_mm_safe_error` does not come back: `zend_bailout` leaves it.  A result `none` stands for a
block that is taken off the free lists without being there.
-/

namespace Php53.Zend

def zendMmCacheSize : ℕ := zendMmNumBuckets * 4 * 1024

/-- `ZEND_MM_ALIGNED_SEGMENT_SIZE`: a size and a pointer. -/
def zendMmAlignedSegmentSize : BitVec 64 := zendMmAlignedSize 16

def zendMmMinSize : BitVec 64 :=
  if zendMmAlignedMinHeaderSize > zendMmAlignedHeaderSize then
    zendMmAlignedMinHeaderSize - zendMmAlignedHeaderSize
  else 0

def zendMmTrueSize (size : BitVec 64) : BitVec 64 :=
  if size < zendMmMinSize then zendMmAlignedMinHeaderSize
  else zendMmAlignedSize (size + zendMmAlignedHeaderSize)

structure ZendMmHeap where
  blockSize : BitVec 64
  segmentsList : List MmSegment
  realSize : BitVec 64
  realPeak : BitVec 64
  limit : BitVec 64
  size : BitVec 64
  peak : BitVec 64
  reserve : Option MmPtr
  overflow : ℕ
  /-- an `unsigned int` -/
  cached : BitVec 32
  cache : ℕ → List MmPtr
  /-- the blocks of `free_buckets` and `large_free_buckets` -/
  freeBlocks : List MmPtr
  /-- the blocks of `rest_buckets` -/
  restBlocks : List MmPtr

/-- How a call ends. -/
inductive MmOutcome
  | returned (p : MmPtr)
  | bailout
  deriving DecidableEq

/-- What a call is told: the block that the search for a free block comes up with, and where the
    segment lies that `ZEND_MM_STORAGE_ALLOC` or `ZEND_MM_STORAGE_REALLOC` returns. -/
structure MmAnswers where
  bestFit : Option MmPtr
  storageAlloc : Option ℕ
  storageRealloc : Option ℕ
  deriving DecidableEq

namespace ZendMmHeap

variable (h : ZendMmHeap)

def blockAt (p : MmPtr) : Option MmPlace := findPlace p [] h.segmentsList

def zendMmAddToFreeList (p : MmPtr) : ZendMmHeap := { h with freeBlocks := p :: h.freeBlocks }

def zendMmAddToRestList (p : MmPtr) : ZendMmHeap := { h with restBlocks := p :: h.restBlocks }

def zendMmRemoveFromFreeList (p : MmPtr) : Option ZendMmHeap :=
  if p ∈ h.freeBlocks then some { h with freeBlocks := h.freeBlocks.erase p }
  else if p ∈ h.restBlocks then some { h with restBlocks := h.restBlocks.erase p }
  else none

/-- `heap->cache[index] = best_fit->prev_free_block`, where the cache has a block of this size. -/
def takeCached (trueSize : BitVec 64) : Option (MmPtr × ZendMmHeap) :=
  if zendMmSmallSize trueSize then
    match h.cache (zendMmBucketIndex trueSize) with
    | [] => none
    | p :: rest =>
      some (p, { h with cache := Function.update h.cache (zendMmBucketIndex trueSize) rest })
  else none

/-- `*cache = mm_block` -/
def putCached (p : MmPtr) (size : BitVec 64) : ZendMmHeap :=
  let index := zendMmBucketIndex size
  { h with cache := Function.update h.cache index (p :: h.cache index) }

/-- `heap->cached = ...`, cut to an `unsigned int` -/
def setCached (cached : BitVec 64) : ZendMmHeap := { h with cached := cached.setWidth 32 }

/-- The assignment to `heap->size` and the peak behind it. -/
def setSize (size : BitVec 64) : ZendMmHeap :=
  { h with size := size, peak := if h.peak < size then size else h.peak }

/-- The assignment to `heap->real_size` and the peak behind it. -/
def setRealSize (realSize : BitVec 64) : ZendMmHeap :=
  { h with realSize := realSize, realPeak := if realSize > h.realPeak then realSize else h.realPeak }

def joinNext (pl : MmPlace) : Option (ZendMmHeap × MmPlace) :=
  match pl.next with
  | [] => some (h, pl)
  | b :: next =>
    if b.used then some (h, pl)
    else (h.zendMmRemoveFromFreeList pl.nextPtr).map fun h =>
      (h, { pl with block := { pl.block with size := pl.block.size + b.size }, next := next })

/-- The block in front is taken off the free lists and the block joined to it, if it is free. -/
def joinPrev (pl : MmPlace) : Option (ZendMmHeap × MmPlace) :=
  match pl.prev with
  | [] => some (h, pl)
  | b :: prev =>
    if b.used then some (h, pl)
    else
      let offset := pl.offset - b.size.toNat
      (h.zendMmRemoveFromFreeList ⟨pl.base, offset⟩).map fun h =>
        (h, { pl with block := { pl.block with size := pl.block.size + b.size }, prev := prev,
                      offset := offset })

/-- The block is used up to `true_size`, and the rest of it a free block on one of the lists. -/
def splitBlock (pl : MmPlace) (trueSize : BitVec 64) (rest : Bool) : ZendMmHeap :=
  let newFreeBlock : MmPtr := ⟨pl.base, pl.offset + trueSize.toNat⟩
  let h := { h with
    segmentsList := pl.write [⟨trueSize, true⟩, ⟨pl.block.size - trueSize, false⟩] }
  if rest then h.zendMmAddToRestList newFreeBlock else h.zendMmAddToFreeList newFreeBlock

def useBlock (pl : MmPlace) (trueSize : BitVec 64) (rest : Bool) : ZendMmHeap × BitVec 64 :=
  if pl.block.size - trueSize < zendMmAlignedMinHeaderSize then
    ({ h with segmentsList := pl.write [⟨pl.block.size, true⟩] }, pl.block.size)
  else (h.splitBlock pl trueSize rest, trueSize)

def zendMmDelSegment (pl : MmPlace) : ZendMmHeap :=
  { h with segmentsList := pl.delete, realSize := h.realSize - pl.size }

def releaseBlock (pl : MmPlace) : ZendMmHeap :=
  if pl.prev = [] ∧ pl.next = [] then h.zendMmDelSegment pl
  else
    { h with segmentsList := pl.write [⟨pl.block.size, false⟩] }.zendMmAddToFreeList pl.ptr

def zendMmFreeInt : Option MmPtr → Option ZendMmHeap
  | none => some h
  | some p =>
    (h.blockAt p).bind fun pl =>
      let size := pl.block.size
      if zendMmSmallSize size = true ∧ h.cached.toNat < zendMmCacheSize then
        some ((h.putCached p size).setCached (h.cached.setWidth 64 + size))
      else
        let h := { h with size := h.size - size }
        (h.joinNext pl).bind fun (h, pl) => (h.joinPrev pl).map fun (h, pl) => h.releaseBlock pl

/-- One turn of the inner loop of `zend_mm_free_cache`. -/
def freeCached (h : ZendMmHeap) (p : MmPtr) : Option ZendMmHeap :=
  (h.blockAt p).bind fun pl =>
    let h := h.setCached (h.cached.setWidth 64 - pl.block.size)
    (h.joinPrev pl).bind fun (h, pl) => (h.joinNext pl).map fun (h, pl) => h.releaseBlock pl

/-- One turn of the outer loop of `zend_mm_free_cache`. -/
def freeBucket (h : ZendMmHeap) (i : ℕ) : Option ZendMmHeap :=
  if h.cache i ≠ [] then
    ((h.cache i).foldlM freeCached h).map fun h => { h with cache := Function.update h.cache i [] }
  else some h

def zendMmFreeCache : Option ZendMmHeap := (List.range zendMmNumBuckets).foldlM freeBucket h

/-- `zend_mm_safe_error`; what the error handling allocates and frees are calls of their own. -/
def zendMmSafeError : Option (ZendMmHeap × MmOutcome) :=
  (h.zendMmFreeInt h.reserve).map fun h =>
    ({ h with reserve := none, overflow := if h.overflow = 0 then 1 else 2 }, .bailout)

def segmentSize (trueSize : BitVec 64) : BitVec 64 :=
  if trueSize > h.blockSize - (zendMmAlignedSegmentSize + zendMmAlignedHeaderSize) then
    let segmentSize := trueSize + zendMmAlignedSegmentSize + zendMmAlignedHeaderSize
    (segmentSize + (h.blockSize - 1)) &&& ~~~(h.blockSize - 1)
  else h.blockSize

def keepRest (trueSize : BitVec 64) : Bool :=
  trueSize > h.blockSize - (zendMmAlignedSegmentSize + zendMmAlignedHeaderSize)

/-- The end of `_zend_mm_alloc_int`, with the block found or made. -/
def allocAt (pl : MmPlace) (trueSize : BitVec 64) (keepRest : Bool) : ZendMmHeap × MmOutcome :=
  let (h, trueSize) := h.useBlock pl trueSize keepRest
  (h.setSize (h.size + trueSize), .returned pl.ptr)

def newSegment (base : ℕ) (segmentSize : BitVec 64) : MmPlace :=
  ⟨[], base, segmentSize, [], 0,
    ⟨segmentSize - zendMmAlignedSegmentSize - zendMmAlignedHeaderSize, false⟩, [], h.segmentsList⟩

def zendMmAllocInt (size : BitVec 64) (answers : MmAnswers) : Option (ZendMmHeap × MmOutcome) :=
  let trueSize := zendMmTrueSize size
  if zendMmSmallSize trueSize = true ∧ trueSize < size then h.zendMmSafeError
  else
    match h.takeCached trueSize with
    | some (p, h) => some (h.setCached (h.cached.setWidth 64 - trueSize), .returned p)
    | none =>
      match answers.bestFit with
      | some p =>
        (h.zendMmRemoveFromFreeList p).bind fun h =>
          (h.blockAt p).map fun pl => h.allocAt pl trueSize false
      | none =>
        let segmentSize := h.segmentSize trueSize
        if segmentSize < trueSize ∨ h.realSize + segmentSize > h.limit then
          h.zendMmFreeCache.bind zendMmSafeError
        else
          match answers.storageAlloc with
          | none => h.zendMmFreeCache.bind zendMmSafeError
          | some base =>
            let pl := h.newSegment base segmentSize
            let h := h.setRealSize (h.realSize + segmentSize)
            some (h.allocAt pl trueSize (h.keepRest trueSize))

def nextFree (pl : MmPlace) : Option MmBlock :=
  match pl.next with
  | [] => none
  | b :: _ => if b.used then none else some b

def roomBehind (pl : MmPlace) (trueSize : BitVec 64) : Bool :=
  match nextFree pl with
  | none => false
  | some b => pl.block.size + b.size ≥ trueSize

def ownsSegment (pl : MmPlace) : Bool :=
  pl.prev.isEmpty &&
    match nextFree pl with
    | none => pl.next.isEmpty
    | some _ => pl.next.tail.isEmpty

/-- `true_size <= orig_size` -/
def shrinkBlock (pl : MmPlace) (trueSize : BitVec 64) : Option ZendMmHeap :=
  let origSize := pl.block.size
  if origSize - trueSize ≥ zendMmAlignedMinHeaderSize then
    (h.joinNext pl).map fun (h, pl) =>
      let h := h.splitBlock pl trueSize false
      { h with size := h.size + (trueSize - origSize) }
  else some h

def growBlock (pl : MmPlace) (trueSize : BitVec 64) : Option ZendMmHeap :=
  let origSize := pl.block.size
  (h.joinNext pl).map fun (h, pl) =>
    let (h, trueSize) := h.useBlock pl trueSize (pl.prev = [] ∧ pl.next = [])
    h.setSize (h.size + trueSize - origSize)

def removeNext (pl : MmPlace) : Option ZendMmHeap :=
  match nextFree pl with
  | none => some h
  | some _ => h.zendMmRemoveFromFreeList pl.nextPtr

def addNext (pl : MmPlace) : ZendMmHeap :=
  match nextFree pl with
  | none => h
  | some _ => h.zendMmAddToFreeList pl.nextPtr

def reallocSegment (pl : MmPlace) (trueSize : BitVec 64) (answers : MmAnswers) :
    Option (ZendMmHeap × MmOutcome) :=
  let origSize := pl.block.size
  (h.removeNext pl).bind fun h =>
    let segmentSize := h.segmentSize trueSize
    if segmentSize < trueSize ∨ h.realSize + segmentSize - pl.size > h.limit then
      (h.addNext pl).zendMmFreeCache.bind zendMmSafeError
    else
      match answers.storageRealloc with
      | none => h.zendMmFreeCache.bind zendMmSafeError
      | some base =>
        let h := h.setRealSize (h.realSize + (segmentSize - pl.size))
        -- the only block of the segment, wherever it lies now
        let pl := { pl with
          base := base
          size := segmentSize
          block :=
            ⟨segmentSize - zendMmAlignedSegmentSize - zendMmAlignedHeaderSize, true⟩
          next := [] }
        let (h, trueSize) := h.useBlock pl trueSize true
        some (h.setSize (h.size + trueSize - origSize), .returned pl.ptr)

def zendMmReallocInt (p : Option MmPtr) (size : BitVec 64) (answers : MmAnswers) :
    Option (ZendMmHeap × MmOutcome) :=
  match p with
  | none => h.zendMmAllocInt size answers
  | some p =>
    (h.blockAt p).bind fun pl =>
      let trueSize := zendMmTrueSize size
      let origSize := pl.block.size
      if trueSize < size then h.zendMmSafeError
      else if trueSize ≤ origSize then
        (h.shrinkBlock pl trueSize).map fun h => (h, .returned p)
      else
        match h.takeCached trueSize with
        | some (ptr, h) =>
          let h := h.setCached (h.cached.setWidth 64 - (trueSize - origSize))
          some (h.putCached p origSize, .returned ptr)
        | none =>
          if roomBehind pl trueSize then
            (h.growBlock pl trueSize).map fun h => (h, .returned p)
          else if ownsSegment pl then h.reallocSegment pl trueSize answers
          else
            (h.zendMmAllocInt size answers).bind fun
              | (h, .bailout) => some (h, .bailout)
              | (h, .returned ptr) =>
                (h.zendMmFreeInt (some p)).map fun h => (h, .returned ptr)

def zendSetMemoryLimit (memoryLimit : BitVec 64) : ZendMmHeap :=
  { h with limit := if memoryLimit ≥ h.blockSize then memoryLimit else h.blockSize }

def zendMemoryUsage (realUsage : Bool) : BitVec 64 :=
  if realUsage then h.realSize else h.size - h.cached.setWidth 64

end ZendMmHeap

/-- `zend_mm_startup` and `zend_mm_startup_ex`: the checks of the segment size, the heap, and the
    block set apart for the error handling. -/
def zendMmStartup (segSize reserveSize : BitVec 64) (storage : Option ℕ) : Option ZendMmHeap :=
  if zendMmLowBit segSize ≠ zendMmHighBit segSize then none
  else if segSize < zendMmAlignedSegmentSize + zendMmAlignedHeaderSize then none
  else
    let heap : ZendMmHeap :=
      { blockSize := segSize
        segmentsList := []
        realSize := 0
        realPeak := 0
        limit := 1#64 <<< (zendMmNumBuckets - 2)
        size := 0
        peak := 0
        reserve := none
        overflow := 0
        cached := 0
        cache := fun _ => []
        freeBlocks := []
        restBlocks := [] }
    if reserveSize > 0 then
      match heap.zendMmAllocInt reserveSize ⟨none, storage, none⟩ with
      | some (heap, .returned p) => some { heap with reserve := some p }
      | _ => none
    else some heap

end Php53.Zend
