import Php53.Zend.Hash.Table
import Php53.Zend.Ini.Strings

/-!
# Entry — changing and restoring ini entries (`zend_ini.c`)

The first change of an entry saves its value and its mask and puts the entry on the list of the
modified ones, so that `zend_restore_ini_entry` and the end of the request can bring them back.
-/

namespace Php53.Zend

def iniUser : BitVec 32 := 1
def iniPerdir : BitVec 32 := 2
def iniSystem : BitVec 32 := 4
def iniAll : BitVec 32 := iniUser ||| iniPerdir ||| iniSystem

def iniStageActivate : Int := 4
def iniStageDeactivate : Int := 8
def iniStageRuntime : Int := 16

/-- How an `on_modify` handler ends. -/
inductive Modification where
  | returned (result : ZendResult)
  | bailout
  deriving DecidableEq

/-- `on_modify`: it sees the new value, where it is and what is there, its length and the stage, and
what the module keeps for itself. -/
abbrev OnModify (σ : Type) := StringPtr → Option (List UInt8) → Nat → Int → σ → Modification × σ

structure IniEntry (σ : Type) where
  modifiable : BitVec 32
  onModify : Option (OnModify σ)
  value : StringPtr
  valueLength : Nat
  origValue : StringPtr
  origValueLength : Nat
  origModifiable : BitVec 32
  modified : Bool

abbrev IniName := List UInt8

structure IniState (σ : Type) where
  /-- `EG(ini_directives)` -/
  iniDirectives : IniName → Option (IniEntry σ)
  /-- `EG(modified_ini_directives)` -/
  modifiedIniDirectives : Option (List IniName)
  strings : Strings
  /-- What the modules keep, which their handlers read and write. -/
  globals : σ

variable {σ : Type}

namespace IniState

def setEntry (s : IniState σ) (name : IniName) (e : IniEntry σ) : IniState σ :=
  { s with iniDirectives := Function.update s.iniDirectives name (some e) }

theorem lawfulBEq_iniName : LawfulBEq IniName := inferInstance

/-- `zend_hash_add(EG(modified_ini_directives), …)` -/
def addModified (s : IniState σ) (name : IniName) : IniState σ :=
  haveI := lawfulBEq_iniName
  { s with modifiedIniDirectives := s.modifiedIniDirectives.map fun names =>
      if name ∈ names then names else names ++ [name] }

/-- `zend_hash_del(EG(modified_ini_directives), …)` -/
def delModified (s : IniState σ) (name : IniName) : IniState σ :=
  { s with modifiedIniDirectives := s.modifiedIniDirectives.map (·.erase name) }

def efree (s : IniState σ) (p : StringPtr) : Except IniError (IniState σ) :=
  (s.strings.efree p).map fun strings => { s with strings }

/-- `if (…) efree(…)` -/
def efreeWhen (s : IniState σ) (c : Prop) [Decidable c] (p : StringPtr) :
    Except IniError (IniState σ) :=
  if c then s.efree p else .ok s

end IniState

/-- The call `on_modify(ini_entry, value, length, …, stage)`. -/
def callOnModify (f : OnModify σ) (p : StringPtr) (length : Nat) (stage : Int) (s : IniState σ) :
    Modification × IniState σ :=
  let (m, globals) := f p (s.strings.text p) length stage s.globals
  (m, { s with globals })

/-- What `zend_restore_ini_entry_cb` writes into an entry. -/
def IniEntry.restored (e : IniEntry σ) : IniEntry σ :=
  { e with
    value := e.origValue
    valueLength := e.origValueLength
    modifiable := e.origModifiable
    modified := false
    origValue := none
    origValueLength := 0
    origModifiable := 0 }

/-- The `zend_try` block of `zend_restore_ini_entry_cb` and `result` behind it. -/
def IniEntry.tryRestore (e : IniEntry σ) (stage : Int) (s : IniState σ) : ZendResult × IniState σ :=
  match e.onModify with
  | none => (.failure, s)
  | some f =>
    match callOnModify f e.origValue e.origValueLength stage s with
    | (.returned result, s) => (result, s)
    -- the bailout ends at zend_end_try, before `result` is assigned
    | (.bailout, s) => (.failure, s)

/-- `zend_restore_ini_entry_cb` for the entry `e` that is at `name`: 1 tells that it was not
restored. -/
def restoreIniEntryCb (name : IniName) (e : IniEntry σ) (stage : Int) (s : IniState σ) :
    Except IniError (Nat × IniState σ) :=
  if e.modified then
    let (result, s) := e.tryRestore stage s
    if stage = iniStageRuntime ∧ result = .failure then .ok (1, s)
    else do
      let s ← s.efreeWhen (e.value ≠ e.origValue) e.value
      return (0, s.setEntry name e.restored)
  else .ok (0, s)

def restoreIniEntry (name : IniName) (stage : Int) (s : IniState σ) :
    Except IniError (ZendResult × IniState σ) :=
  match s.iniDirectives name with
  | none => .ok (.failure, s)
  | some e =>
    if stage = iniStageRuntime ∧ e.modifiable &&& iniUser = 0 then .ok (.failure, s)
    else if s.modifiedIniDirectives.isSome then do
      let (r, s) ← restoreIniEntryCb name e stage s
      if r = 0 then return (.success, s.delModified name)
      else return (.failure, s)
    else .ok (.success, s)

/-- `zend_hash_apply(EG(modified_ini_directives), zend_restore_ini_entry_wrapper)`: every element is
removed after the call for it. -/
def restoreAll : List IniName → IniState σ → Except IniError (IniState σ)
  | [], s => .ok s
  | name :: names, s =>
    match s.iniDirectives name with
    | none => .error .badPointer
    | some e => do
      let (_, s) ← restoreIniEntryCb name e iniStageDeactivate s
      restoreAll names (s.delModified name)

def iniDeactivate (s : IniState σ) : Except IniError (IniState σ) :=
  match s.modifiedIniDirectives with
  | none => .ok s
  | some names => do
    let s ← restoreAll names s
    return { s with modifiedIniDirectives := none }

/-- What `zend_alter_ini_entry_ex` keeps of an entry before it is changed for the first time. -/
def IniEntry.saved (e : IniEntry σ) (modifiable : BitVec 8) : IniEntry σ :=
  { e with
    origValue := e.value
    origValueLength := e.valueLength
    origModifiable := modifiable.setWidth 32
    modified := true }

/-- The condition `!ini_entry->on_modify || ini_entry->on_modify(…) == SUCCESS`. -/
def IniEntry.tryModify (e : IniEntry σ) (duplicate : Address) (length : Nat) (stage : Int)
    (s : IniState σ) : Modification × IniState σ :=
  match e.onModify with
  | none => (.returned .success, s)
  | some f => callOnModify f (some duplicate) length stage s

/-- `zend_alter_ini_entry_ex` from `estrndup` on, for the entry `e` that is at `name`; `modified`
tells whether it was modified before. -/
def assignIniEntry (alloc : Allocator) (name : IniName) (e : IniEntry σ) (newValue : List UInt8)
    (stage : Int) (modified : Bool) (s : IniState σ) : Except IniError (ZendResult × IniState σ) :=
  let (duplicate, strings) := s.strings.estrndup alloc newValue
  let (modification, s) := e.tryModify duplicate newValue.length stage { s with strings }
  match modification with
  | .returned .success => do
    let s ← s.efreeWhen (modified ∧ e.origValue ≠ e.value) e.value
    return (.success, s.setEntry name
      { e with value := some duplicate, valueLength := newValue.length })
  | .returned .failure => do
    let s ← s.efree (some duplicate)
    return (.failure, s)
  | .bailout => .error .bailout

/-- `zend_alter_ini_entry_ex`; `newValue` is the `new_value_length` bytes at `new_value`. -/
def alterIniEntryEx (alloc : Allocator) (name : IniName) (newValue : List UInt8)
    (modifyType : BitVec 32) (stage : Int) (forceChange : Bool) (s : IniState σ) :
    Except IniError (ZendResult × IniState σ) :=
  match s.iniDirectives name with
  | none => .ok (.failure, s)
  | some e =>
    -- both locals are of type zend_bool, an unsigned char
    let modifiable := e.modifiable.setWidth 8
    let modified := e.modified
    let e := if stage = iniStageActivate ∧ modifyType = iniSystem then
      { e with modifiable := iniSystem } else e
    let s := s.setEntry name e
    if forceChange = false ∧ e.modifiable &&& modifyType = 0 then .ok (.failure, s)
    else
      let s := { s with modifiedIniDirectives := some (s.modifiedIniDirectives.getD []) }
      let e := if modified then e else e.saved modifiable
      let s := if modified then s else (s.setEntry name e).addModified name
      assignIniEntry alloc name e newValue stage modified s

inductive IniCall where
  | alter (name : IniName) (newValue : List UInt8) (modifyType : BitVec 32) (stage : Int)
    (forceChange : Bool)
  | restore (name : IniName) (stage : Int)

def IniCall.run (alloc : Allocator) (s : IniState σ) : IniCall → Except IniError (IniState σ)
  | .alter name newValue modifyType stage forceChange =>
    (alterIniEntryEx alloc name newValue modifyType stage forceChange s).map (·.2)
  | .restore name stage => (restoreIniEntry name stage s).map (·.2)

def runIniCalls (alloc : Allocator) (calls : List IniCall) (s : IniState σ) :
    Except IniError (IniState σ) :=
  calls.foldlM (IniCall.run alloc) s

end Php53.Zend
