import Php53.Zend.Hash.Invariant

/-!
# Zval — the values that serialization reads and builds

A heap of reference-counted zvals and of objects, with the two lists of an unserializer: the slots
that back-references go through, which borrow their zvals, and the list that keeps replaced zvals
alive until the end.  Addresses are never handed out twice, so that a dangling pointer stays
visible as a pointer to a zval with refcount `0`.  An array is the list of its keys and elements;
keys are without the NUL that ends every string key.
-/

open Php53.Zend

namespace Php53.Standard

inductive Value where
  | null
  | bool (lval : BitVec 64)
  | long (lval : BitVec 64)
  /-- The digits as they stand in the text. -/
  | double (digits : List UInt8)
  | string (val : List UInt8)
  | array (elements : List (HashKey × ZvalPtr))
  | object (handle : Nat)

def Value.elements : Value → List (HashKey × ZvalPtr)
  | .array elements => elements
  | _ => []

structure Zval where
  refcount : Nat
  isRef : Bool
  value : Value

/-- The address of a `zend_class_entry`. -/
abbrev ClassPtr := Nat

structure ObjectBucket where
  refcount : Nat
  destructorCalled : Bool
  ce : ClassPtr
  properties : List (HashKey × ZvalPtr)

structure Mem where
  zvals : ZvalPtr → Zval
  objects : Nat → ObjectBucket
  nextZval : ZvalPtr
  nextObject : Nat
  /-- `var_hash->first` -/
  slots : List ZvalPtr
  /-- `var_hash->first_dtor` -/
  dtors : List ZvalPtr

structure ClassEntry where
  /-- Whether `ce->unserialize` is set. -/
  hasUnserialize : Bool
  /-- Whether the class has a method `__wakeup`. -/
  hasWakeup : Bool
  defaultProperties : List (HashKey × ZvalPtr)

/-- Classes, and the code of scripts and extensions that unserializing runs. -/
structure Env where
  classes : ClassPtr → ClassEntry
  standardClass : ClassPtr
  incompleteClass : ClassPtr
  /-- Looking up a class, which may load it or call the callback of `unserialize_callback_func`;
  `none` when the class stays unknown. -/
  lookupClass : List UInt8 → Mem → Option ClassPtr × Mem
  /-- `ce->unserialize(rval, ce, p, datalen, var_hash)` -/
  unserialize : ClassPtr → ZvalPtr → List UInt8 → Mem → Bool × Mem
  /-- Calling `__wakeup` on the object. -/
  wakeup : ZvalPtr → Mem → Mem
  /-- `obj->dtor` -/
  destruct : Nat → Mem → Mem

/-- No class but `stdClass` and `__PHP_Incomplete_Class`, and no code of scripts. -/
def Env.bare : Env where
  classes _ := ⟨false, false, []⟩
  standardClass := 0
  incompleteClass := 1
  lookupClass name m :=
    (if name = "stdClass".toList.map fun c => UInt8.ofNat c.toNat then some 0 else none, m)
  unserialize _ _ _ m := (false, m)
  wakeup _ m := m
  destruct _ m := m

/-- A heap with the one zval that `unserialize` returns, at address `0`. -/
def Mem.fresh : Mem where
  zvals z := if z = 0 then ⟨1, false, .null⟩ else ⟨0, false, .null⟩
  objects _ := ⟨0, true, 0, []⟩
  nextZval := 1
  nextObject := 1
  slots := []
  dtors := []

/-- `zend_hash_find` -/
def findKey (elements : List (HashKey × ZvalPtr)) (k : HashKey) : Option ZvalPtr :=
  (elements.find? fun e => e.1 = k).map (·.2)

def storeKey (k : HashKey) (z : ZvalPtr) : List (HashKey × ZvalPtr) → List (HashKey × ZvalPtr)
  | [] => [(k, z)]
  | e :: elements => if e.1 = k then (k, z) :: elements else e :: storeKey k z elements

namespace Mem

def setZval (m : Mem) (z : ZvalPtr) (v : Zval) : Mem :=
  { m with zvals := Function.update m.zvals z v }

def setObject (m : Mem) (handle : Nat) (o : ObjectBucket) : Mem :=
  { m with objects := Function.update m.objects handle o }

/-- `ALLOC_INIT_ZVAL`; the new zval is the one at `nextZval`. -/
def allocInitZval (m : Mem) : Mem :=
  { m.setZval m.nextZval ⟨1, false, .null⟩ with nextZval := m.nextZval + 1 }

/-- `INIT_PZVAL(z)`, then setting type and value. -/
def initZval (m : Mem) (z : ZvalPtr) (v : Value) : Mem := m.setZval z ⟨1, false, v⟩

/-- `INIT_PZVAL(z)` alone. -/
def initPzval (m : Mem) (z : ZvalPtr) : Mem := m.setZval z ⟨1, false, (m.zvals z).value⟩

/-- `Z_ADDREF_P(z)` -/
def addref (m : Mem) (z : ZvalPtr) : Mem :=
  m.setZval z { m.zvals z with refcount := (m.zvals z).refcount + 1 }

/-- `Z_ADDREF_P(z); Z_SET_ISREF_TO_P(z, isref)` -/
def share (m : Mem) (z : ZvalPtr) (isRef : Bool) : Mem :=
  m.setZval z ⟨(m.zvals z).refcount + 1, isRef, (m.zvals z).value⟩

def freeZval (m : Mem) (z : ZvalPtr) : Mem := m.setZval z ⟨0, false, .null⟩

/-- `object_init_ex`: a new object shares the default properties of its class. -/
def objectInit (env : Env) (m : Mem) (z : ZvalPtr) (ce : ClassPtr) : Mem :=
  let properties := (env.classes ce).defaultProperties
  let m := properties.foldl (fun m e => m.addref e.2) m
  let handle := m.nextObject
  { (m.setObject handle ⟨1, false, ce, properties⟩).setZval z
      { m.zvals z with value := .object handle } with
    nextObject := handle + 1 }

/-- `zval_dtor`, up to the zvals whose references it drops: these are returned. -/
def dtorValue (env : Env) (m : Mem) : Value → List ZvalPtr × Mem
  | .array elements => (elements.map (·.2), m)
  | .object handle =>
    let last := (m.objects handle).refcount = 1
    let m :=
      if last ∧ (m.objects handle).destructorCalled = false then
        env.destruct handle
          (m.setObject handle { m.objects handle with destructorCalled := true })
      else m
    let o := m.objects handle
    if last ∧ o.refcount = 1 then
      (o.properties.map (·.2), m.setObject handle { o with refcount := 0, properties := [] })
    else ([], m.setObject handle { o with refcount := o.refcount - 1 })
  | _ => ([], m)

/-- `zval_ptr_dtor` on one zval after the other; those that a destroyed value refers to come
next, as in the recursion of the source. -/
def releaseLoop (env : Env) : Nat → List ZvalPtr → Mem → Mem
  | 0, _, m => m
  | _, [], m => m
  | n + 1, z :: pending, m =>
    let zv := m.zvals z
    if zv.refcount - 1 = 0 then
      let (children, m) := (m.freeZval z).dtorValue env zv.value
      releaseLoop env n (children ++ pending) m
    else
      let isRef := if zv.refcount - 1 = 1 then false else zv.isRef
      releaseLoop env n pending (m.setZval z { zv with refcount := zv.refcount - 1, isRef := isRef })

def references (m : Mem) : Nat :=
  ((List.range m.nextZval).map fun z => (m.zvals z).value.elements.length).sum +
  ((List.range m.nextObject).map fun h => (m.objects h).properties.length).sum

/-- `zval_ptr_dtor(&z)` -/
def zvalPtrDtor (env : Env) (m : Mem) (z : ZvalPtr) : Mem :=
  releaseLoop env (m.references + 1) [z] m

/-- `zval_dtor(z); FREE_ZVAL(z)`, whatever the refcount. -/
def discard (env : Env) (m : Mem) (z : ZvalPtr) : Mem :=
  let (children, m') := (m.freeZval z).dtorValue env (m.zvals z).value
  releaseLoop env (m.references + 1) children m'

def releaseOld (env : Env) (m : Mem) (old : Option ZvalPtr) : Mem :=
  match old with
  | some z => m.zvalPtrDtor env z
  | none => m

def elements (m : Mem) (z : ZvalPtr) : List (HashKey × ZvalPtr) := (m.zvals z).value.elements

/-- `zend_hash_index_update` and `zend_symtable_update` on the array in `z`. -/
def updateArray (env : Env) (m : Mem) (z : ZvalPtr) (k : HashKey) (data : ZvalPtr) : Mem :=
  let m := m.releaseOld env (findKey (m.elements z) k)
  m.setZval z { m.zvals z with value := .array (storeKey k data (m.elements z)) }

/-- `zend_hash_update` on the properties of an object. -/
def updateProperty (env : Env) (m : Mem) (handle : Nat) (k : HashKey) (data : ZvalPtr) : Mem :=
  let m := m.releaseOld env (findKey (m.objects handle).properties k)
  m.setObject handle
    { m.objects handle with properties := storeKey k data (m.objects handle).properties }

def varPush (m : Mem) (z : ZvalPtr) : Mem := { m with slots := m.slots ++ [z] }

def varPushDtor (m : Mem) (z : ZvalPtr) : Mem :=
  let m := m.addref z
  { m with dtors := m.dtors ++ [z] }

def varAccess (m : Mem) (id : BitVec 64) : Option ZvalPtr :=
  if id.toInt < 0 then none else m.slots[id.toNat]?

end Mem

end Php53.Standard
