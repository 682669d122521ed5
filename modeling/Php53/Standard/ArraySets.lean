import Php53.Zend.Hash.Copy
import Php53.Zend.Sort.Sorted

/-!
# ArraySets — `php_array_intersect` and `php_array_diff` on the data

Both sort the buckets of every argument and go through the lists together.  The comparison is
`intersect_data_compare_func` or `diff_data_compare_func`, on the data of two buckets; `behavior` is
`INTERSECT_NORMAL` or `DIFF_NORMAL`.  `ptrs` are the cursors behind the first one, each the data of
the buckets from the cursor on.
-/

open Reasoning

namespace Php53.Zend

namespace HashTable

variable {α : Type}

/-- The bytes of a `Bucket *`, the lowest one first. -/
def pointerBytes : Nat → BucketPtr → List UInt8
  | 0, _ => []
  | n + 1, p => UInt8.ofNat p :: pointerBytes n (p / 256)

def pointerOf : List UInt8 → BucketPtr
  | [] => 0
  | b :: bytes => b.toNat + 256 * pointerOf bytes

/-- `lists[i]`: the buckets in the order in which `zend_qsort` leaves them, none if it fails. -/
def sortedBuckets (compareData : α → α → Int) (hash : HashTable α) : Option (List BucketPtr) :=
  (hash.listFrom hash.live.length hash.pListHead).bind fun list =>
    let compareBuckets := fun a b (_ : Unit) =>
      (compareData (hash.pData (pointerOf a)) (hash.pData (pointerOf b)), ())
    match zendQsort sizeofVoidPtr compareBuckets hash.nNumOfElements
      ⟨(list.map (pointerBytes sizeofVoidPtr)).flatten, ()⟩ with
    | (.ok _, s) => some ((List.range list.length).map fun i =>
        pointerOf (element sizeofVoidPtr s.mem (sizeofVoidPtr * i : Nat)))
    | (.error _, _) => none

/-- `ptrs[1]` and on, at the start. -/
def sortedData (compareData : α → α → Int) : List (HashTable α) → Option (List (List α))
  | [] => some []
  | hash :: args =>
    (sortedBuckets compareData hash).bind fun list =>
      (sortedData compareData args).map fun ptrs => list.map hash.pData :: ptrs

/-- `while (*ptrs[i] && (0 < (c = compare(ptrs[0], ptrs[i])))) ptrs[i]++` -/
def passLower (compareData : α → α → Int) (x : α) : List α → Int → Int × List α
  | [], c => (c, [])
  | y :: ys, _ =>
    let c := compareData x y
    if 0 < c then passLower compareData x ys c else (c, y :: ys)

def deleteKeyOf (args0 : HashTable α) (p : BucketPtr) (ret : HashTable α) : Option (HashTable α) :=
  if args0.nKeyLength p = 0 then
    (ret.zendHashDelKeyOrIndex [] (args0.h p) .delIndex).map Outcome.table
  else
    (ret.zendHashDelKeyOrIndex (args0.arKey p) (args0.h p) .delKeyQuick).map Outcome.table

def deleteAll (args0 : HashTable α) : List BucketPtr → HashTable α → Option (HashTable α)
  | [], ret => some ret
  | p :: ptr0, ret => (deleteKeyOf args0 p ret).bind (deleteAll args0 ptr0)

/-- `for (;;)` with a deletion: it ends with the list, or where `stops` says so of a bucket and of
    the next one. -/
def deleteUntil (stops : BucketPtr → BucketPtr → Bool) (args0 : HashTable α) :
    BucketPtr → List BucketPtr → HashTable α → Option (List BucketPtr × HashTable α)
  | p, [], ret => (deleteKeyOf args0 p ret).map fun ret => ([], ret)
  | p, q :: ptr0, ret =>
    (deleteKeyOf args0 p ret).bind fun ret =>
      if stops p q then some (q :: ptr0, ret) else deleteUntil stops args0 q ptr0 ret

/-- `for (;;)` without one. -/
def skipUntil (stops : BucketPtr → BucketPtr → Bool) : BucketPtr → List BucketPtr → List BucketPtr
  | _, [] => []
  | p, q :: ptr0 => if stops p q then q :: ptr0 else skipUntil stops q ptr0

/-- `compare(ptrs[0] - 1, ptrs[0])` -/
def differs (compareData : α → α → Int) (args0 : HashTable α) (p q : BucketPtr) : Bool :=
  compareData (args0.pData p) (args0.pData q) ≠ 0

inductive IntersectFor (α : Type) where
  | ended  -- *ptrs[i] is NULL
  | broken (y : α)  -- left by the break, *ptrs[i] has the data y
  | through

/-- `for (i = 1; i < arr_argc; i++)`, with the value of `c` and the cursors that it leaves. -/
def intersectFor (compareData : α → α → Int) (x : α) :
    List (List α) → Int → IntersectFor α × Int × List (List α)
  | [], c => (.through, c, [])
  | ys :: ptrs, c =>
    match passLower compareData x ys c with
    | (c, []) => (.ended, c, [] :: ptrs)
    | (c, y :: ys) =>
      if c ≠ 0 then (.broken y, c, (y :: ys) :: ptrs)
      else
        let (result, c, ptrs) := intersectFor compareData x ptrs c
        (result, c, ys :: ptrs)

/-- `while (*ptrs[0])`.  Without the break, a `c` other than 0 would have `ptrs[arr_argc]` read. -/
def intersectLoop (compareData : α → α → Int) (args0 : HashTable α) :
    Nat → List BucketPtr → List (List α) → Int → HashTable α → Option (HashTable α)
  | _, [], _, _, ret => some ret
  | 0, _ :: _, _, _, _ => none
  | n + 1, p :: ptr0, ptrs, c, ret =>
    match intersectFor compareData (args0.pData p) ptrs c with
    | (.ended, _, _) => deleteAll args0 (p :: ptr0) ret
    | (.broken y, c, ptrs) =>
      (deleteUntil (fun _ q => 0 ≤ compareData (args0.pData q) y) args0 p ptr0 ret).bind
        fun (ptr0, ret) => intersectLoop compareData args0 n ptr0 ptrs c ret
    | (.through, c, ptrs) =>
      if c ≠ 0 then none
      else
        intersectLoop compareData args0 n (skipUntil (differs compareData args0) p ptr0) ptrs c ret

def copyOf [Inhabited α] (args0 : HashTable α) : Option (HashTable α) :=
  zendHashCopy (zendHashInit α args0.nNumOfElements true false) args0

def phpArrayIntersect [Inhabited α] (compareData : α → α → Int) (args0 : HashTable α)
    (args : List (HashTable α)) : Option (HashTable α) :=
  (sortedBuckets compareData args0).bind fun ptr0 =>
    (sortedData compareData args).bind fun ptrs =>
      (copyOf args0).bind (intersectLoop compareData args0 ptr0.length ptr0 ptrs 0)

/-- `for (i = 1; i < arr_argc; i++)` -/
def diffFor (compareData : α → α → Int) (x : α) : List (List α) → Int → Int × List (List α)
  | [], c => (c, [])
  | ys :: ptrs, c =>
    let (c, ys) := passLower compareData x ys c
    -- a list that has ended stays as it is
    if c = 0 then (c, ys.tail :: ptrs)
    else
      let (c, ptrs) := diffFor compareData x ptrs c
      (c, ys :: ptrs)

def diffLoop (compareData : α → α → Int) (args0 : HashTable α) :
    Nat → List BucketPtr → List (List α) → HashTable α → Option (HashTable α)
  | _, [], _, ret => some ret
  | 0, _ :: _, _, _ => none
  | n + 1, p :: ptr0, ptrs, ret =>
    let (c, ptrs) := diffFor compareData (args0.pData p) ptrs 1
    if c = 0 then
      (deleteUntil (differs compareData args0) args0 p ptr0 ret).bind
        fun (ptr0, ret) => diffLoop compareData args0 n ptr0 ptrs ret
    else diffLoop compareData args0 n (skipUntil (differs compareData args0) p ptr0) ptrs ret

def phpArrayDiff [Inhabited α] (compareData : α → α → Int) (args0 : HashTable α)
    (args : List (HashTable α)) : Option (HashTable α) :=
  (sortedBuckets compareData args0).bind fun ptr0 =>
    (sortedData compareData args).bind fun ptrs =>
      (copyOf args0).bind (diffLoop compareData args0 ptr0.length ptr0 ptrs)

end HashTable

end Php53.Zend
