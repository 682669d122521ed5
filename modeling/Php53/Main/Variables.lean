import Php53.Zend.Hash.Symtable

/-!
# Variables — `php_register_variable_ex`

The registrar takes a name apart at its brackets and makes the arrays on the way.  A string that
ends with a NUL is the list of the bytes before it.  `register_globals` and `magic_quotes_gpc` are
off, and the array is not the one of the cookies.
-/

namespace Php53.Main

open Zend

/-- An array is the list of its keys and elements, with `nNextFreeElement`. -/
inductive Zval where
  | string (val : List UInt8)
  | long (lval : BitVec 64)
  | array (elements : List (HashKey × Zval)) (nNextFreeElement : BitVec 64)

structure Table where
  elements : List (HashKey × Zval) := []
  nNextFreeElement : BitVec 64 := 0

namespace Table

/-- `zend_hash_find` and `zend_hash_index_find` -/
def find (t : Table) (k : HashKey) : Option Zval := (t.elements.find? fun e => e.1 = k).map (·.2)

def store (k : HashKey) (z : Zval) : List (HashKey × Zval) → List (HashKey × Zval)
  | [] => [(k, z)]
  | e :: es => if e.1 = k then (k, z) :: es else e :: store k z es

example (k : HashKey) (z : Zval) : store k z [] = [(k, z)] := by rw [store]

def nextFree (next : BitVec 64) : HashKey → BitVec 64
  | .index h => if h.toInt ≥ next.toInt then (if h.toInt < longMax.toInt then h + 1 else longMax) else next
  | .str _ => next

/-- `zend_hash_update` and `zend_hash_index_update` -/
def update (t : Table) (k : HashKey) (z : Zval) : Table :=
  ⟨store k z t.elements, nextFree t.nNextFreeElement k⟩

def assign (t : Table) (k : HashKey) (z : Zval) : Table := { t with elements := store k z t.elements }

/-- `zend_hash_next_index_insert`: none where the index is taken. -/
def nextIndexInsert (t : Table) (z : Zval) : Option Table :=
  if (t.find (.index t.nNextFreeElement)).isSome then none
  else some (t.update (.index t.nNextFreeElement) z)

/-- `zend_hash_del` and `zend_hash_index_del` -/
def del (t : Table) (k : HashKey) : Table :=
  { t with elements := t.elements.filter fun e => e.1 ≠ k }

end Table

def Table.zval (t : Table) : Zval := .array t.elements t.nNextFreeElement

def Zval.table : Zval → Option Table
  | .array elements next => some ⟨elements, next⟩
  | _ => none

/-- What depends on the configuration and on the locale. -/
structure Config where
  maxInputNestingLevel : Nat
  isspace : UInt8 → Bool
  /-- In no locale a printing character of ASCII is white space. -/
  isspace_printing : ∀ c : UInt8, 32 < c.toNat → c.toNat < 127 → isspace c = false

def blankOnly : Config where
  maxInputNestingLevel := 64
  isspace c := c = ch ' '
  isspace_printing c h _ := by
    apply decide_eq_false
    rintro rfl
    exact absurd h (by decide)

def skipBlanks (name : List UInt8) : List UInt8 := name.dropWhile (· = ch ' ')

def varName (name : List UInt8) : List UInt8 :=
  ((skipBlanks name).takeWhile (· ≠ ch '[')).map fun c =>
    if c = ch ' ' ∨ c = ch '.' then ch '_' else c

def brackets (name : List UInt8) : List UInt8 := (skipBlanks name).dropWhile (· ≠ ch '[')

/-- What follows a `[`: the index, none for an append, and the text behind the `]`; nothing if there
is no `]`.  A blank is skipped in the search for the end, but it belongs to the index. -/
def readIndex (isspace : UInt8 → Bool) (text : List UInt8) :
    Option (Option (List UInt8) × List UInt8) :=
  let blank := text.take (if text.head?.any isspace then 1 else 0)
  let ip := text.drop blank.length
  if ip.head? = some (ch ']') then some (none, ip.tail)
  else
    match ip.dropWhile (· ≠ ch ']') with
    | _ :: rest => some (some (blank ++ ip.takeWhile (· ≠ ch ']')), rest)
    | [] => none

def plainVar (index : Option (List UInt8)) (val : Zval) (t : Table) : Table :=
  match index with
  | none => (t.nextIndexInsert val).getD t
  | some index => t.update (symtableKey index) val

/-- The array of an index, found or made, and what is done in it; the result says whether there are
too many levels. -/
def enter (index : Option (List UInt8)) (inside : Table → Table × Bool) (t : Table) : Table × Bool :=
  match index with
  | none =>
    match t.nextIndexInsert (Table.zval {}) with
    | none => (t, false)
    | some t' =>
      let (sub, tooDeep) := inside {}
      (t'.assign (.index t.nNextFreeElement) sub.zval, tooDeep)
  | some index =>
    match (t.find (symtableKey index)).bind Zval.table with
    | some symtable1 =>
      let (sub, tooDeep) := inside symtable1
      (t.assign (symtableKey index) sub.zval, tooDeep)
    | none =>
      let (sub, tooDeep) := inside {}
      (t.update (symtableKey index) sub.zval, tooDeep)

/-- The `while` loop behind the first bracket, from an index and the array that it belongs to.  Where
a `]` is missing the source writes a `_` over the bracket, which makes the whole text a part of the
index if the index is the variable itself. -/
def walk (config : Config) (val : Zval) :
    Nat → Nat → Option (List UInt8) → Bool → List UInt8 → Table → Table × Bool
  | 0, _, _, _, _, t => (t, false)
  | fuel + 1, nestLevel, index, isVar, text, t =>
    if nestLevel + 1 > config.maxInputNestingLevel then (t, true)
    else
      match readIndex config.isspace text with
      | none =>
        (plainVar (index.map fun i => if isVar then i ++ ch '_' :: text else i) val t, false)
      | some (next, rest) =>
        enter index (fun symtable1 =>
          match rest with
          | c :: text =>
            if c = ch '[' then walk config val fuel (nestLevel + 1) next false text symtable1
            else (plainVar next val symtable1, false)
          | [] => (plainVar next val symtable1, false)) t

def phpRegisterVariableEx (config : Config) (name : List UInt8) (val : Zval) (t : Table) : Table :=
  let var := varName name
  if var = [] then t
  else
    match brackets name with
    | [] => plainVar (some var) val t
    | _ :: text =>
      let (t, tooDeep) := walk config val (text.length + 1) 0 (some var) true text t
      if tooDeep then t.del (symtableKey var) else t

def phpRegisterVariableSafe (config : Config) (name strval : List UInt8) (t : Table) : Table :=
  phpRegisterVariableEx config name (.string strval) t

end Php53.Main
