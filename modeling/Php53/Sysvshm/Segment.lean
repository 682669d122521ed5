import Php53.Reasoning.ByteArea
import Mathlib.Logic.Function.Basic

/-!
# Segment — the variables in shared memory (`sysvshm.c`)

A segment begins with its `sysvshm_chunk_head`; behind it lie the chunks.  Longs have 64 bits, a chunk
head has 40 bytes and `sysvshm_chunk` 32, of which `mem` is the 24th.  A function has no result where
it would read or store outside of the segment.
-/

open Reasoning

namespace Php53.Sysvshm

/-- `sizeof(sysvshm_chunk_head)` -/
def headSize : Int := 40

/-- `sysvshm_chunk_head`, and the bytes of the segment behind it. -/
structure ChunkHead where
  start : Int
  endPos : Int
  free : Int
  total : Int
  area : List UInt8

/-- The bytes of a `long`. -/
def longBytes (l : BitVec 64) : List UInt8 := littleEndian 8 l.toNat

/-- A `long` at a position of the segment. -/
def readLong (area : List UInt8) (pos : Int) : Option (BitVec 64) :=
  (loadAt area (pos - headSize) 8).map fun bs => BitVec.ofNat 64 (ofLittleEndian bs)

def writeBytes (area : List UInt8) (pos : Int) (bs : List UInt8) : Option (List UInt8) :=
  storeAt area (pos - headSize) bs

/-- Data whose length fits a `long`. -/
structure ShmData where
  bytes : List UInt8
  fits : bytes.length < 2 ^ 63

/-- What `shm_attach` makes of a segment that is not initialised. -/
def initialise (segment : List UInt8) (shmSize : BitVec 64) : Option ChunkHead :=
  if segment.length < headSize then none
  else some {
    start := headSize
    endPos := headSize
    total := shmSize.toInt
    free := shmSize.toInt - headSize
    area := segment.drop headSize.toNat }

/-- The loop of `php_check_shm_data`. -/
def checkLoop (ptr : ChunkHead) (key : BitVec 64) : Nat → Int → Option Int
  | 0, _ => none
  | fuel + 1, pos =>
    if ptr.endPos ≤ pos then some (-1)
    else
      (readLong ptr.area pos).bind fun shmKey =>
        if shmKey = key then some pos
        else
          (readLong ptr.area (pos + 16)).bind fun next =>
            let pos := pos + next.toInt
            if next.toInt ≤ 0 ∨ pos < ptr.start then some (-1) else checkLoop ptr key fuel pos

def phpCheckShmData (ptr : ChunkHead) (key : BitVec 64) : Option Int :=
  checkLoop ptr key ((ptr.endPos - ptr.start).toNat + 1) ptr.start

def phpRemoveShmData (ptr : ChunkHead) (shmVarpos : Int) : Option ChunkHead :=
  (readLong ptr.area (shmVarpos + 16)).bind fun next =>
    let memcpyLen := ptr.endPos - shmVarpos - next.toInt
    let area :=
      if 0 < memcpyLen then
        (loadAt ptr.area (shmVarpos + next.toInt - headSize) memcpyLen).bind fun bs =>
          writeBytes ptr.area shmVarpos bs
      else some ptr.area
    area.map fun area =>
      { ptr with free := ptr.free + next.toInt, endPos := ptr.endPos - next.toInt, area }

/-- `total_size`, computed with the unsigned `sizeof`. -/
def totalSize (len : Int) : Int := (BitVec.ofInt 64 (len + 32 - 1) / 8 * 8 + 8 : BitVec 64).toInt

def storeChunk (ptr : ChunkHead) (key : BitVec 64) (data : List UInt8) (total : Int) :
    Option (List UInt8) :=
  (writeBytes ptr.area ptr.endPos (longBytes key)).bind fun area =>
    (writeBytes area (ptr.endPos + 8) (longBytes (BitVec.ofInt 64 data.length))).bind fun area =>
      (writeBytes area (ptr.endPos + 16) (longBytes (BitVec.ofInt 64 total))).bind fun area =>
        writeBytes area (ptr.endPos + 24) data

/-- `php_put_shm_data`, with its return value. -/
def phpPutShmData (ptr : ChunkHead) (key : BitVec 64) (data : ShmData) : Option (Int × ChunkHead) :=
  let total := totalSize data.bytes.length
  (phpCheckShmData ptr key).bind fun shmVarpos =>
    (if 0 < shmVarpos then phpRemoveShmData ptr shmVarpos else some ptr).bind fun ptr =>
      if ptr.free < total then some (-1, ptr)
      else (storeChunk ptr key data.bytes total).map fun area =>
        (0, { ptr with endPos := ptr.endPos + total, free := ptr.free - total, area })

/-- The bytes that `shm_get_var` unserializes. -/
def shmGetVar (ptr : ChunkHead) (key : BitVec 64) : Option (Option (List UInt8)) :=
  (phpCheckShmData ptr key).bind fun shmVarpos =>
    if shmVarpos < 0 then some none
    else
      (readLong ptr.area (shmVarpos + 8)).bind fun length =>
        (loadAt ptr.area (shmVarpos + 24 - headSize) length.toInt).map some

inductive ShmOp where
  | put (key : BitVec 64) (data : ShmData)
  | check (key : BitVec 64)
  | remove (key : BitVec 64)

/-- One call and its return value; `shm_remove_var` removes what `php_check_shm_data` has found. -/
def call (ptr : ChunkHead) : ShmOp → Option (Int × ChunkHead)
  | .put key data => phpPutShmData ptr key data
  | .check key => (phpCheckShmData ptr key).map fun shmVarpos => (shmVarpos, ptr)
  | .remove key =>
    (phpCheckShmData ptr key).bind fun shmVarpos =>
      if shmVarpos < 0 then some (-1, ptr)
      else (phpRemoveShmData ptr shmVarpos).map fun ptr => (0, ptr)

def calls (ptr : ChunkHead) (ops : List ShmOp) : Option (List Int × ChunkHead) :=
  ops.foldlM (fun (results, ptr) op => (call ptr op).map fun (r, ptr) => (results ++ [r], ptr))
    ([], ptr)

/-- What a call leaves under the keys: a `put` that reports success stores its data, and one that
reports a lack of memory changes nothing. -/
def storedBy (stored : BitVec 64 → Option (List UInt8)) (op : ShmOp) (result : Int) :
    BitVec 64 → Option (List UInt8) :=
  match op with
  | .put key data => if result = 0 then Function.update stored key (some data.bytes) else stored
  | .check _ => stored
  | .remove key => Function.update stored key none

def contents (history : List (ShmOp × Int)) : BitVec 64 → Option (List UInt8) :=
  history.foldl (fun stored e => storedBy stored e.1 e.2) fun _ => none

end Php53.Sysvshm
