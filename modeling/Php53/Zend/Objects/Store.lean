import Php53.Reasoning.LinkedList
import Php53.Reasoning.Run

/-!
# Store — the object store of `zend_objects_API.c`

The functions of the store call back into the engine: `dtor`, `free_storage` and `clone` may use
the store themselves.  `Machine` is the store together with the calls that wait for such a
callback, so that one operation is what happens between two points where other code runs.
-/

namespace Php53.Zend

abbrev FnPtr := Nat

def zendObjectsDestroyObject : FnPtr := 0

structure ObjectStoreBucket where
  destructorCalled : Bool
  valid : Bool
  object : BitVec 64
  dtor : Option FnPtr
  freeStorage : Option FnPtr
  clone : Option FnPtr
  handlers : Option FnPtr
  refcount : BitVec 32

namespace ObjectStoreBucket

/-- `bucket.free_list.next`: the union puts it where `object` begins. -/
def next (b : ObjectStoreBucket) : BitVec 32 := b.object.setWidth 32

def setNext (b : ObjectStoreBucket) (next : BitVec 32) : ObjectStoreBucket :=
  { b with object := b.object.extractLsb' 32 32 ++ next }

@[simp] theorem next_setNext (b : ObjectStoreBucket) (n : BitVec 32) : (b.setNext n).next = n := by
  rw [next, setNext, BitVec.setWidth_append, dif_pos (Nat.le_refl 32), BitVec.setWidth_eq]

end ObjectStoreBucket

/-- `zend_objects_store`; `object_buckets` has `size` elements. -/
structure ObjectsStore where
  objectBuckets : BitVec 32 → ObjectStoreBucket
  top : BitVec 32
  size : BitVec 32
  freeListHead : BitVec 32

namespace ObjectsStore

def set (s : ObjectsStore) (handle : BitVec 32) (b : ObjectStoreBucket) : ObjectsStore :=
  { s with objectBuckets := Function.update s.objectBuckets handle b }

/-- `zend_objects_store_init`; `memory` is what `emalloc` returns. -/
def init (memory : BitVec 32 → ObjectStoreBucket) (initSize : BitVec 32) : ObjectsStore :=
  { objectBuckets := Function.update memory 0
      { destructorCalled := false, valid := false, object := 0, dtor := none, freeStorage := none
        clone := none, handlers := none, refcount := 0 }
    top := 1
    size := initSize
    freeListHead := -1 }

/-- Where `zend_objects_store_put` puts an object, and whether it called `erealloc`. -/
structure Place where
  store : ObjectsStore
  handle : BitVec 32
  grown : Bool

def place (s : ObjectsStore) : Place :=
  if s.freeListHead ≠ -1 then
    { store := { s with freeListHead := (s.objectBuckets s.freeListHead).next }
      handle := s.freeListHead, grown := false }
  else if s.top = s.size then
    { store := { s with size := s.size <<< 1, top := s.top + 1 }, handle := s.top, grown := true }
  else { store := { s with top := s.top + 1 }, handle := s.top, grown := false }

/-- `zend_objects_store_put`; `none` is a write outside of the array. -/
def put (s : ObjectsStore) (object : BitVec 64) (dtor freeStorage clone : Option FnPtr) :
    Option Place :=
  let p := s.place
  let b : ObjectStoreBucket :=
    { destructorCalled := false
      valid := true
      object
      dtor := some (dtor.getD zendObjectsDestroyObject)
      freeStorage
      clone
      handlers := none
      refcount := 1 }
  if p.handle < p.store.size then some { p with store := p.store.set p.handle b } else none

def addRef (s : ObjectsStore) (handle : BitVec 32) : ObjectsStore :=
  let b := s.objectBuckets handle
  s.set handle { b with refcount := b.refcount + 1 }

def addToFreeList (s : ObjectsStore) (handle : BitVec 32) : ObjectsStore :=
  let b := (s.objectBuckets handle).setNext s.freeListHead
  { s.set handle { b with valid := false } with freeListHead := handle }

def markDestructed (s : ObjectsStore) : ObjectsStore :=
  { s with objectBuckets := fun i =>
      let b := s.objectBuckets i
      if 1 ≤ i ∧ i < s.top ∧ b.valid then { b with destructorCalled := true } else b }

end ObjectsStore

inductive Frame where
  /-- `zend_objects_store_del_ref_by_handle_ex` in `obj->dtor`. -/
  | destructing (handle : BitVec 32)
  /-- The same function in `obj->free_storage`.  `inPlace`: the array is still where it was when
  `obj` was computed. -/
  | freeing (handle : BitVec 32) (failure inPlace : Bool)
  /-- `zend_objects_store_clone_obj` in `obj->clone`. -/
  | cloning (handle : BitVec 32) (handlers : Option FnPtr)
  deriving DecidableEq

/-- `erealloc` has moved the array. -/
def Frame.strand : Frame → Frame
  | .freeing handle failure _ => .freeing handle failure false
  | f => f

/-- What happens to the objects, which are numbered as they are put into the store. -/
inductive ObjectEvent where
  | dtor (i : Nat)
  /-- `if (obj->free_storage)` is reached. -/
  | freeStorage (i : Nat)
  /-- The refcount goes from 1 to 0. -/
  | released (i : Nat)
  deriving DecidableEq

/-- `EG(objects_store)`, the calls that wait, and whether a bailout is on its way.  The last three
fields are history: the number of objects so far, the object of each handle, and the events, the
newest first. -/
structure Machine where
  store : ObjectsStore
  stack : List Frame
  bailout : Bool
  born : Nat
  occupant : BitVec 32 → Nat
  log : List ObjectEvent

namespace Machine

def start (memory : BitVec 32 → ObjectStoreBucket) (initSize : BitVec 32) : Machine :=
  { store := .init memory initSize, stack := [], bailout := false, born := 0
    occupant := fun _ => 0, log := [] }

def bucket (m : Machine) (handle : BitVec 32) : ObjectStoreBucket := m.store.objectBuckets handle

/-- `zend_objects_store_put`; `moved` is what `erealloc` does, if it is called. -/
def put (m : Machine) (object : BitVec 64) (dtor freeStorage clone : Option FnPtr) (moved : Bool) :
    Option Machine :=
  (m.store.put object dtor freeStorage clone).map fun p =>
    { m with
      store := p.store
      stack := if p.grown && moved then m.stack.map Frame.strand else m.stack
      born := m.born + 1
      occupant := Function.update m.occupant p.handle m.born }

/-- `obj->refcount--`, and `zend_bailout()` if there was a failure. -/
def decref (m : Machine) (handle : BitVec 32) (failure : Bool) : Machine :=
  let b := m.bucket handle
  { m with
    store := m.store.set handle { b with refcount := b.refcount - 1 }
    log := if b.refcount = 1 then .released (m.occupant handle) :: m.log else m.log
    bailout := failure }

/-- From behind `obj->free_storage` on. -/
def release (m : Machine) (handle : BitVec 32) (failure : Bool) : Machine :=
  { m with store := m.store.addToFreeList handle }.decref handle failure

/-- From behind `obj->dtor` on. -/
def dropStorage (m : Machine) (handle : BitVec 32) (failure : Bool) : Machine :=
  let b := m.bucket handle
  if b.refcount = 1 then
    let m := { m with log := .freeStorage (m.occupant handle) :: m.log }
    if b.freeStorage.isSome then { m with stack := .freeing handle failure true :: m.stack }
    else m.release handle failure
  else m.decref handle failure

/-- `zend_objects_store_del_ref_by_handle_ex`.  `object_buckets` is not `NULL`. -/
def delRefByHandleEx (m : Machine) (handle : BitVec 32) (handlers : Option FnPtr) : Machine :=
  let b := m.bucket handle
  if b.valid then
    if b.refcount = 1 then
      if b.destructorCalled = false then
        let b := { b with destructorCalled := true }
        if b.dtor.isSome then
          { m with
            store := m.store.set handle { b with handlers := b.handlers.or handlers }
            stack := .destructing handle :: m.stack
            log := .dtor (m.occupant handle) :: m.log }
        else { m with store := m.store.set handle b }.dropStorage handle false
      else m.dropStorage handle false
    else m.decref handle false
  else m.decref handle false

/-- `zend_objects_store_clone_obj`, as far as `obj->clone`; `handlers` is `Z_OBJ_HT_P(zobject)`.
`E_CORE_ERROR` marks the objects as destructed and bails out. -/
def cloneObj (m : Machine) (handle : BitVec 32) (handlers : Option FnPtr) : Machine :=
  if (m.bucket handle).clone.isSome then { m with stack := .cloning handle handlers :: m.stack }
  else { m with store := m.store.markDestructed, bailout := true }

/-- From behind `obj->clone` on. -/
def finishClone (m : Machine) (handle : BitVec 32) (handlers : Option FnPtr) (newObject : BitVec 64)
    (moved : Bool) : Option Machine :=
  let b := m.bucket handle
  (m.put newObject b.dtor b.freeStorage b.clone moved).map fun m =>
    { m with store := m.store.set handle { m.bucket handle with handlers } }

/-- A callback returns, or bails out.  `none` is the write of `obj->refcount--` to memory that
`erealloc` has given back: `obj` is not computed again behind `obj->free_storage`. -/
def ret (m : Machine) (failed : Bool) (newObject : BitVec 64) (moved : Bool) : Option Machine :=
  match m.stack with
  | [] => none
  | .destructing handle :: stack =>
    some ({ m with stack, bailout := false }.dropStorage handle failed)
  | .freeing handle failure inPlace :: stack =>
    if inPlace then some ({ m with stack, bailout := false }.release handle (failure || failed))
    else none
  | .cloning handle handlers :: stack =>
    if failed then some { m with stack, bailout := true }
    else { m with stack }.finishClone handle handlers newObject moved

end Machine

inductive StoreOp where
  | put (object : BitVec 64) (dtor freeStorage clone : Option FnPtr) (moved : Bool)
  | addRef (handle : BitVec 32)
  | delRefByHandleEx (handle : BitVec 32) (handlers : Option FnPtr)
  | cloneObj (handle : BitVec 32) (handlers : Option FnPtr)
  | markDestructed
  /-- The callback at the top of the stack returns, or bails out. -/
  | ret (failed : Bool) (newObject : BitVec 64) (moved : Bool)
  /-- The bailout reaches the outermost `zend_try`. -/
  | caught

namespace Machine

/-- One operation; `none` is undefined behaviour. -/
def step (m : Machine) : StoreOp → Option Machine
  | .put object dtor freeStorage clone moved => m.put object dtor freeStorage clone moved
  | .addRef handle => some { m with store := m.store.addRef handle }
  | .delRefByHandleEx handle handlers => some (m.delRefByHandleEx handle handlers)
  | .cloneObj handle handlers => some (m.cloneObj handle handlers)
  | .markDestructed => some { m with store := m.store.markDestructed }
  | .ret failed newObject moved => m.ret failed newObject moved
  | .caught => some { m with bailout := false }

/-- `handle` is that of an object in the store. -/
def Valid (m : Machine) (handle : BitVec 32) : Prop :=
  handle ≠ 0 ∧ handle < m.store.top ∧ (m.bucket handle).valid = true

def Freeing (m : Machine) (handle : BitVec 32) : Prop :=
  ∃ failure inPlace, Frame.freeing handle failure inPlace ∈ m.stack

/-- What may happen next: other code, be it in a callback or not, uses live handles, and a bailout
ends the callback that it leaves. -/
def OpOk (m : Machine) : StoreOp → Prop
  | .put .. => m.bailout = false
  | .addRef handle => m.bailout = false ∧ m.Valid handle ∧ ¬ m.Freeing handle
  | .delRefByHandleEx handle _ => m.bailout = false ∧ m.Valid handle ∧ ¬ m.Freeing handle
  | .cloneObj handle _ => m.bailout = false ∧ m.Valid handle ∧ ¬ m.Freeing handle
  | .markDestructed => True
  | .ret failed _ _ => m.stack ≠ [] ∧ (m.bailout = true → failed = true)
  | .caught => m.stack = []

end Machine

end Php53.Zend
