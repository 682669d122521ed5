import Php53.Zend.Hash.Runs
import Php53.Zend.Hash.Symtable

/-!
# ArrayObject — the position of `ext/spl/spl_array.c`

An `spl_array_object` iterates over a hash table that it finds through its flags and its `array`
zval, and remembers where it is by a bare bucket pointer.  A `Store` holds what such objects share:
zvals, tables and objects, each named by its index.  Every function that follows the pointer goes
through `follow`, which fails with `Fault.stale` unless the bucket is on the list of the table the
object iterates over at that moment.

Only the storage is modelled: what a script sees of the engine's reference counts is left to the
caller, who hands `spl_array_set_array` the zval that `SEPARATE_ZVAL_IF_NOT_REF` leaves.
-/

open Reasoning Php53.Zend

namespace Php53.Spl

def splArrayStdPropList : BitVec 32 := 0x00000001
def splArrayOverloadedRewind : BitVec 32 := 0x00010000
def splArrayOverloadedValid : BitVec 32 := 0x00020000
def splArrayOverloadedKey : BitVec 32 := 0x00040000
def splArrayOverloadedCurrent : BitVec 32 := 0x00080000
def splArrayOverloadedNext : BitVec 32 := 0x00100000
def splArrayIsRef : BitVec 32 := 0x01000000
def splArrayIsSelf : BitVec 32 := 0x02000000
def splArrayUseOther : BitVec 32 := 0x04000000
def splArrayIntMask : BitVec 32 := 0xFFFF0000
def splArrayCloneMask : BitVec 32 := 0x0300FFFF

/-- The five `SPL_ARRAY_OVERLOADED_*` flags together. -/
def splArrayOverloaded : BitVec 32 :=
  splArrayOverloadedRewind ||| splArrayOverloadedValid ||| splArrayOverloadedKey |||
    splArrayOverloadedCurrent ||| splArrayOverloadedNext

/-- `(flags & mask) != 0` -/
def anyFlag (flags mask : BitVec 32) : Bool := flags &&& mask != 0

/-- Why a call has no result: it follows a position that is not on the list, or runs into other
undefined behaviour (a `NULL` table, a recursion without end, a plain object taken for an
`spl_array_object`). -/
inductive Fault where
  | stale
  | undefined
deriving DecidableEq, Repr

inductive Zval where
  | array (ht : Nat)
  | object (handle : Nat)
  | other
deriving DecidableEq, Repr

structure SplArrayObject where
  /-- `std.properties` -/
  properties : Nat
  array : ZvalPtr
  pos : Option BucketPtr
  posH : BitVec 64
  arFlags : BitVec 32
deriving DecidableEq, Repr

inductive ZendObject where
  | std (properties : Nat)
  | spl (intern : SplArrayObject)
deriving DecidableEq, Repr

structure Store where
  zvals : List Zval
  tables : List (HashTable ZvalPtr)
  objects : List ZendObject
  /-- `EG(symbol_table)` -/
  symbolTable : Nat

namespace Store

def setTable (s : Store) (t : Nat) (ht : HashTable ZvalPtr) : Store :=
  { s with tables := s.tables.set t ht }

def setObject (s : Store) (handle : Nat) (intern : SplArrayObject) : Store :=
  { s with objects := s.objects.set handle (.spl intern) }

def table (s : Store) (t : Nat) : Except Fault (HashTable ZvalPtr) :=
  match s.tables[t]? with
  | some ht => .ok ht
  | none => .error .undefined

/-- `Z_TYPE_P(intern->array) == IS_OBJECT` -/
def arrayIsObject (s : Store) (intern : SplArrayObject) : Bool :=
  match s.zvals[intern.array]? with
  | some (.object _) => true
  | _ => false

/-- `spl_array_get_hash_table`, with `HASH_OF` and `spl_array_get_properties` unfolded; `none` is a
`NULL` table. -/
def splArrayGetHashTable (s : Store) : Nat → SplArrayObject → Bool → Except Fault (Option Nat)
  | 0, _, _ => .error .undefined
  | n + 1, intern, checkStdProps =>
    let stdPropList := checkStdProps && anyFlag intern.arFlags splArrayStdPropList
    if anyFlag intern.arFlags splArrayIsSelf then .ok (some intern.properties)
    else if anyFlag intern.arFlags splArrayUseOther && !stdPropList && s.arrayIsObject intern then
      match s.zvals[intern.array]? with
      | some (.object handle) =>
        match s.objects[handle]? with
        | some (.spl other) => s.splArrayGetHashTable n other checkStdProps
        -- the cast to `spl_array_object *` is wrong here
        | _ => .error .undefined
      | _ => .error .undefined
    else if stdPropList then .ok (some intern.properties)
    else
      match s.zvals[intern.array]? with
      | some (.array ht) => .ok (some ht)
      | some (.object handle) =>
        match s.objects[handle]? with
        | some (.std properties) => .ok (some properties)
        | some (.spl other) => s.splArrayGetHashTable n other true
        | none => .error .undefined
      | some .other => .ok none
      | none => .error .undefined

/-- `spl_array_get_hash_table(intern, 0)`: an object is visited at most once for each value of
`check_std_props` unless the recursion has no end. -/
def hashTable (s : Store) (intern : SplArrayObject) : Except Fault (Option Nat) :=
  s.splArrayGetHashTable (2 * s.objects.length + 2) intern false

end Store

/-- `p->…` for a bucket that is expected to be on the list of `ht`. -/
def follow (ht : HashTable ZvalPtr) (p : BucketPtr) : Except Fault Unit :=
  if p ∈ ht.buckets then .ok () else .error .stale

/-- `zend_hash_get_current_key_ex`; `none` is `HASH_KEY_NON_EXISTANT`. -/
def zendHashGetCurrentKeyEx (ht : HashTable ZvalPtr) (pos : Option BucketPtr) :
    Except Fault (Option HashKey) :=
  match pos with
  | none => .ok none
  | some p => do
    follow ht p
    return some (ht.key p)

def zendHashGetCurrentDataEx (ht : HashTable ZvalPtr) (pos : Option BucketPtr) :
    Except Fault (Option ZvalPtr) :=
  match pos with
  | none => .ok none
  | some p => do
    follow ht p
    return some (ht.pData p)

def zendHashHasMoreElementsEx (ht : HashTable ZvalPtr) (pos : Option BucketPtr) :
    Except Fault ZendResult := do
  match ← zendHashGetCurrentKeyEx ht pos with
  | none => return .failure
  | some _ => return .success

def zendHashMoveForwardEx (ht : HashTable ZvalPtr) (pos : Option BucketPtr) :
    Except Fault (Option BucketPtr) :=
  match pos with
  | none => .ok none
  | some p => do
    follow ht p
    return ht.pListNext p

namespace SplArrayObject

def splArrayUpdatePos (intern : SplArrayObject) (ht : HashTable ZvalPtr) :
    Except Fault SplArrayObject :=
  match intern.pos with
  | none => .ok intern
  | some p => do
    follow ht p
    return { intern with posH := ht.h p }

/-- `string_length && !string_key[0]`: the key of a private or protected property. -/
def mangled (stringKey : List UInt8) : Bool := stringKey.length != 0 && stringKey.headD 0 == 0

/-- The loop of `spl_array_skip_protected`. -/
def skipLoop (ht : HashTable ZvalPtr) :
    Nat → SplArrayObject → Except Fault (SplArrayObject × ZendResult)
  | 0, _ => .error .undefined
  | n + 1, intern => do
    match ← zendHashGetCurrentKeyEx ht intern.pos with
    | some (.str stringKey) =>
      if mangled stringKey then
        match ← zendHashHasMoreElementsEx ht intern.pos with
        | .failure => return (intern, .failure)
        | .success =>
          let pos ← zendHashMoveForwardEx ht intern.pos
          let intern ← { intern with pos := pos }.splArrayUpdatePos ht
          skipLoop ht n intern
      else return (intern, .success)
    | _ => return (intern, .success)

def splArraySkipProtected (intern : SplArrayObject) (s : Store) (aht : HashTable ZvalPtr) :
    Except Fault (SplArrayObject × ZendResult) :=
  if s.arrayIsObject intern then skipLoop aht (aht.live.length + 1) intern
  else .ok (intern, .failure)

def splArrayRewindEx (intern : SplArrayObject) (s : Store) (aht : HashTable ZvalPtr) :
    Except Fault SplArrayObject := do
  let intern ← { intern with pos := aht.pListHead }.splArrayUpdatePos aht
  return (← intern.splArraySkipProtected s aht).1

def splArrayRewind (intern : SplArrayObject) (s : Store) : Except Fault SplArrayObject := do
  match ← s.hashTable intern with
  | none => return intern
  | some t => intern.splArrayRewindEx s (← s.table t)

/-- The loop of `spl_hash_verify_pos_ex`: is the position in the chain of `pos_h`? -/
def inChain (intern : SplArrayObject) (ht : HashTable ZvalPtr) : Option Bool :=
  (ht.chainFind (fun p => some p == intern.pos) ht.live.length
    (ht.arBuckets (ht.index intern.posH))).map Option.isSome

def splHashVerifyPosEx (intern : SplArrayObject) (s : Store) (ht : HashTable ZvalPtr) :
    Except Fault (SplArrayObject × ZendResult) :=
  match intern.inChain ht with
  | none => .error .undefined
  | some true => .ok (intern, .success)
  | some false => do
    return (← intern.splArrayRewind s, .failure)

def splArrayNextNoVerify (intern : SplArrayObject) (s : Store) (aht : HashTable ZvalPtr) :
    Except Fault (SplArrayObject × ZendResult) := do
  let pos ← zendHashMoveForwardEx aht intern.pos
  let intern ← { intern with pos := pos }.splArrayUpdatePos aht
  if s.arrayIsObject intern then intern.splArraySkipProtected s aht
  else return (intern, ← zendHashHasMoreElementsEx aht intern.pos)

/-- `(intern->ar_flags & SPL_ARRAY_IS_REF) && spl_hash_verify_pos_ex(…) == FAILURE`, negated. -/
def verifyIfRef (intern : SplArrayObject) (s : Store) (aht : HashTable ZvalPtr) :
    Except Fault (SplArrayObject × ZendResult) :=
  if anyFlag intern.arFlags splArrayIsRef then intern.splHashVerifyPosEx s aht
  else .ok (intern, .success)

/-- The same with `intern->pos &&` in front. -/
def verifyIfPos (intern : SplArrayObject) (s : Store) (aht : HashTable ZvalPtr) :
    Except Fault (SplArrayObject × ZendResult) :=
  if intern.pos.isSome then intern.verifyIfRef s aht else .ok (intern, .success)

/-! ## 5. The methods and the iterator functions

Each of them returns the object and what it answers.  Without a table they raise a notice and leave
the object alone.  The iterator functions of a class that overrides the method call that method,
which then makes calls of its own. -/

/-- The table to work on, or `answer` with a notice. -/
def withTable {β : Type} (intern : SplArrayObject) (s : Store) (answer : β)
    (body : HashTable ZvalPtr → Except Fault (SplArrayObject × β)) :
    Except Fault (SplArrayObject × β) := do
  match ← s.hashTable intern with
  | none => return (intern, answer)
  | some t => body (← s.table t)

def valid (intern : SplArrayObject) (s : Store) : Except Fault (SplArrayObject × Bool) :=
  intern.withTable s false fun aht => do
    let (intern, result) ← intern.verifyIfPos s aht
    match result with
    | .failure => return (intern, false)
    | .success => return (intern, (← zendHashHasMoreElementsEx aht intern.pos) = .success)

def current (intern : SplArrayObject) (s : Store) :
    Except Fault (SplArrayObject × Option ZvalPtr) :=
  intern.withTable s none fun aht => do
    let (intern, result) ← intern.verifyIfRef s aht
    match result with
    | .failure => return (intern, none)
    | .success => return (intern, ← zendHashGetCurrentDataEx aht intern.pos)

/-- `spl_array_iterator_key`, which is `ArrayIterator::key` -/
def key (intern : SplArrayObject) (s : Store) : Except Fault (SplArrayObject × Option HashKey) :=
  intern.withTable s none fun aht => do
    let (intern, result) ← intern.verifyIfRef s aht
    match result with
    | .failure => return (intern, none)
    | .success => return (intern, ← zendHashGetCurrentKeyEx aht intern.pos)

/-- `spl_array_next_ex` on the table of the object, which is `ArrayIterator::next` -/
def next (intern : SplArrayObject) (s : Store) : Except Fault (SplArrayObject × ZendResult) :=
  intern.withTable s .failure fun aht => do
    let (intern, result) ← intern.verifyIfRef s aht
    match result with
    | .failure => return (intern, .failure)
    | .success => intern.splArrayNextNoVerify s aht

def splArrayItValid (intern : SplArrayObject) (s : Store) : Except Fault (SplArrayObject × Bool) :=
  if anyFlag intern.arFlags splArrayOverloadedValid then .ok (intern, false) else intern.valid s

/-- `spl_array_it_get_current_data`; unlike `current` it has neither a check for a `NULL` table nor
one of the position. -/
def splArrayItGetCurrentData (intern : SplArrayObject) (s : Store) :
    Except Fault (SplArrayObject × Option ZvalPtr) := do
  let aht ← s.hashTable intern
  if anyFlag intern.arFlags splArrayOverloadedCurrent then return (intern, none)
  else
    match aht with
    | none => .error .undefined
    | some t => return (intern, ← zendHashGetCurrentDataEx (← s.table t) intern.pos)

def splArrayItGetCurrentKey (intern : SplArrayObject) (s : Store) :
    Except Fault (SplArrayObject × Option HashKey) :=
  if anyFlag intern.arFlags splArrayOverloadedKey then .ok (intern, none) else intern.key s

def splArrayItMoveForward (intern : SplArrayObject) (s : Store) :
    Except Fault (SplArrayObject × ZendResult) :=
  if anyFlag intern.arFlags splArrayOverloadedNext then .ok (intern, .success) else intern.next s

def splArrayItRewind (intern : SplArrayObject) (s : Store) : Except Fault SplArrayObject :=
  if anyFlag intern.arFlags splArrayOverloadedRewind then .ok intern else intern.splArrayRewind s

end SplArrayObject

/-- The types of an offset: a `NULL` pointer or `IS_NULL`, a string, a number, anything else. -/
inductive Offset where
  | null
  | string (key : List UInt8)
  | long (index : BitVec 64)
  | illegal
deriving DecidableEq, Repr

/-- `zend_delete_global_variable`, without the compiled variables of running functions. -/
def zendDeleteGlobalVariable (ht : HashTable ZvalPtr) (name : List UInt8) :
    Option (Outcome ZvalPtr) :=
  let hashValue := zendInlineHashFunc name
  match ht.zendHashQuickFind name hashValue with
  | none => none
  | some none => some { table := ht, result := .failure }
  | some (some _) => ht.zendHashDelKeyOrIndex name hashValue .delKeyQuick

/-- What `spl_array_write_dimension_ex` writes; `none` for an offset of an illegal type. -/
def writeDimension (ht : HashTable ZvalPtr) (value : ZvalPtr) (mem : Pemalloc) :
    Offset → Option (Option (Outcome ZvalPtr))
  | .null => some (ht.zendHashIndexUpdateOrNextInsert 0 value sizeofVoidPtr hashNextInsert mem)
  | .string key => some (ht.zendSymtableUpdate (key ++ [0]) value sizeofVoidPtr mem)
  | .long index =>
      some (ht.zendHashIndexUpdateOrNextInsert index value sizeofVoidPtr hashUpdate mem)
  | .illegal => none

/-- What `spl_array_unset_dimension_ex` deletes; here `NULL` is an illegal type as well. -/
def unsetDimension (ht : HashTable ZvalPtr) (isSymbolTable : Bool) :
    Offset → Option (Option (Outcome ZvalPtr))
  | .string key =>
      some (if isSymbolTable then zendDeleteGlobalVariable ht (key ++ [0])
        else ht.zendSymtableDel (key ++ [0]))
  | .long index => some (ht.zendHashDelKeyOrIndex [] index .delIndex)
  | _ => none

namespace Store

/-- `spl_array_get_hash_table` for writing: a `NULL` table is not checked for. -/
def tableOf (s : Store) (intern : SplArrayObject) :
    Except Fault (Nat × HashTable ZvalPtr) := do
  match ← s.hashTable intern with
  | none => .error .undefined
  | some t => return (t, ← s.table t)

/-- `spl_array_write_dimension_ex` with `check_inherited` off -/
def splArrayWriteDimensionEx (s : Store) (intern : SplArrayObject) (offset : Offset)
    (value : ZvalPtr) (mem : Pemalloc) : Except Fault Store :=
  if offset = .illegal then .ok s
  else do
    let (t, ht) ← s.tableOf intern
    -- a table that is being sorted is left alone
    if ht.nApplyCount > 0 then return s
    else
      match writeDimension ht value mem offset with
      | some (some o) => return s.setTable t o.table
      | some none => .error .undefined
      | none => return s

/-- `spl_array_unset_dimension_ex` with `check_inherited` off -/
def splArrayUnsetDimensionEx (s : Store) (handle : Nat) (intern : SplArrayObject)
    (offset : Offset) : Except Fault Store :=
  if offset = .illegal ∨ offset = .null then .ok s
  else do
    let (t, ht) ← s.tableOf intern
    if ht.nApplyCount > 0 then return s
    else
      match unsetDimension ht (t = s.symbolTable) offset with
      | some (some o) =>
        let s := s.setTable t o.table
        return s.setObject handle (← intern.splHashVerifyPosEx s o.table).1
      | some none => .error .undefined
      | none => return s

/-- The object as `spl_array_set_array` leaves it before it rewinds; `none` where it throws and
returns. -/
def withArray (s : Store) (object : ZvalPtr) (intern : SplArrayObject) (array : ZvalPtr)
    (arFlags : BitVec 32) (justArray : Bool) : Except Fault (Option SplArrayObject) :=
  let stored (arFlags : BitVec 32) : SplArrayObject :=
    { intern with
      array := array
      arFlags :=
        (if object = array then (intern.arFlags ||| splArrayIsSelf) &&& ~~~splArrayUseOther
          else intern.arFlags &&& ~~~splArrayIsSelf) ||| arFlags }
  match s.zvals[array]? with
  | some (.array _) => .ok (some (stored arFlags))
  | some (.object handle) =>
    match s.objects[handle]? with
    | some (.spl other) =>
      .ok (some (stored ((if justArray then other.arFlags &&& ~~~splArrayIntMask else arFlags) |||
        splArrayUseOther)))
    | some (.std _) => .ok (some (stored arFlags))
    | none => .error .undefined
  | some .other => .ok none
  | none => .error .undefined

def splArraySetArray (s : Store) (object : ZvalPtr) (handle : Nat) (intern : SplArrayObject)
    (array : ZvalPtr) (arFlags : BitVec 32) (justArray : Bool) : Except Fault Store := do
  match ← s.withArray object intern array arFlags justArray with
  | none => return s
  | some intern =>
    let s := s.setObject handle intern
    return s.setObject handle (← intern.splArrayRewind s)

/-- `spl_array_object_new_ex` without `orig`: an empty private array.  `overloaded` is what the
class overrides. -/
def splArrayObjectNew (s : Store) (properties : Nat) (overloaded : BitVec 32) :
    Except Fault Store := do
  let s := { s with
    zvals := s.zvals ++ [.array s.tables.length]
    tables := s.tables ++ [zendHashInit ZvalPtr 0 true false] }
  let intern : SplArrayObject :=
    { properties := properties
      array := s.zvals.length - 1
      pos := none
      posH := 0
      arFlags := overloaded &&& splArrayOverloaded }
  let intern ← intern.splArrayRewind s
  return { s with
    objects := s.objects ++ [.spl intern]
    zvals := s.zvals ++ [.object s.objects.length] }

/-- `ArrayObject::getIterator`: `spl_array_object_new_ex` with `orig` and without `clone_orig`. -/
def getIterator (s : Store) (object : ZvalPtr) (other : SplArrayObject) (properties : Nat)
    (overloaded : BitVec 32) : Except Fault Store := do
  match ← s.hashTable other with
  | none => return s
  | some _ =>
    let intern : SplArrayObject :=
      { properties := properties
        array := object
        pos := none
        posH := 0
        arFlags := (other.arFlags &&& splArrayCloneMask) ||| (splArrayIsRef ||| splArrayUseOther) |||
          (overloaded &&& splArrayOverloaded) }
    let intern ← intern.splArrayRewind s
    return { s with
      objects := s.objects ++ [.spl intern]
      zvals := s.zvals ++ [.object s.objects.length] }

end Store

/-- The calls of one object. -/
inductive ArrayCall where
  | rewind
  | valid
  | current
  | key
  | next
  | itRewind
  | itValid
  | itGetCurrentData
  | itGetCurrentKey
  | itMoveForward
  | offsetSet (offset : Offset) (value : ZvalPtr) (mem : Pemalloc)
  | offsetUnset (offset : Offset)
  | exchangeArray (array : ZvalPtr)
  /-- `__construct`; `justArray` if there is only one argument. -/
  | construct (array : ZvalPtr) (arFlags : BitVec 32) (justArray : Bool)
  | getIterator (properties : Nat) (overloaded : BitVec 32)

inductive ArrayOp where
  /-- A new table, such as the engine makes for an array or the properties of an object. -/
  | newTable (nSize : Nat)
  | newZval (zval : Zval)
  /-- A plain object with the given table of properties, and a zval for it. -/
  | newObject (properties : Nat)
  | newArrayObject (properties : Nat) (overloaded : BitVec 32)
  /-- An operation made directly on a table. -/
  | table (t : Nat) (op : HashOp ZvalPtr)
  /-- A call with `$this` in the zval `object`. -/
  | call (object : ZvalPtr) (c : ArrayCall)

namespace Store

/-- The `spl_array_object` behind a zval. -/
def receiver (s : Store) (object : ZvalPtr) : Option (Nat × SplArrayObject) :=
  match s.zvals[object]? with
  | some (.object handle) =>
    match s.objects[handle]? with
    | some (.spl intern) => some (handle, intern)
    | _ => none
  | _ => none

def apply (s : Store) (object : ZvalPtr) (handle : Nat) (intern : SplArrayObject) :
    ArrayCall → Except Fault Store
  | .rewind => do return s.setObject handle (← intern.splArrayRewind s)
  | .valid => do return s.setObject handle (← intern.valid s).1
  | .current => do return s.setObject handle (← intern.current s).1
  | .key => do return s.setObject handle (← intern.key s).1
  | .next => do return s.setObject handle (← intern.next s).1
  | .itRewind => do return s.setObject handle (← intern.splArrayItRewind s)
  | .itValid => do return s.setObject handle (← intern.splArrayItValid s).1
  | .itGetCurrentData => do return s.setObject handle (← intern.splArrayItGetCurrentData s).1
  | .itGetCurrentKey => do return s.setObject handle (← intern.splArrayItGetCurrentKey s).1
  | .itMoveForward => do return s.setObject handle (← intern.splArrayItMoveForward s).1
  | .offsetSet offset value mem => s.splArrayWriteDimensionEx intern offset value mem
  | .offsetUnset offset => s.splArrayUnsetDimensionEx handle intern offset
  | .exchangeArray array => do
      -- the old table is copied first
      let _ ← s.tableOf intern
      s.splArraySetArray object handle intern array 0 true
  | .construct array arFlags justArray =>
      s.splArraySetArray object handle intern array (arFlags &&& ~~~splArrayIntMask) justArray
  | .getIterator properties overloaded => s.getIterator object intern properties overloaded

def step (s : Store) : ArrayOp → Except Fault Store
  | .newTable nSize => .ok { s with tables := s.tables ++ [zendHashInit ZvalPtr nSize true false] }
  | .newZval zval => .ok { s with zvals := s.zvals ++ [zval] }
  | .newObject properties =>
      .ok { s with
        objects := s.objects ++ [.std properties]
        zvals := s.zvals ++ [.object s.objects.length] }
  | .newArrayObject properties overloaded => s.splArrayObjectNew properties overloaded
  | .table t op => do
      let ht ← s.table t
      match ht.step op with
      | some ht => return s.setTable t ht
      | none => .error .undefined
  | .call object c =>
      match s.receiver object with
      | some (handle, intern) => s.apply object handle intern c
      | none => .error .undefined

end Store

end Php53.Spl
