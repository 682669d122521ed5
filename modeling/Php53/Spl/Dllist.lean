import Mathlib.Logic.Function.Basic

/-!
# Dllist — SplDoublyLinkedList, SplStack and SplQueue

Elements are numbered in the order of their allocation, and `live` says which of them have not been
freed.  Reading or writing an element that is not live is undefined: the operation returns none.
The elements of a list are its own, so each object has its own numbering.  A value is whatever the
list stores; code that its destructor may run is not modelled.
-/

namespace Php53.Spl

structure SplPtrLlist (V : Type) where
  prev : Nat → Option Nat
  next : Nat → Option Nat
  rc : Nat → Int
  data : Nat → Option V
  live : Nat → Bool
  fresh : Nat  -- the number of the next element to be allocated
  head : Option Nat
  tail : Option Nat
  count : Nat

namespace SplPtrLlist

variable {V : Type}

def splPtrLlistInit : SplPtrLlist V :=
  { prev := fun _ => none, next := fun _ => none, rc := fun _ => 0, data := fun _ => none,
    live := fun _ => false, fresh := 0, head := none, tail := none, count := 0 }

def delref (l : SplPtrLlist V) (e : Nat) : Option (SplPtrLlist V) :=
  if l.live e then
    if l.rc e - 1 = 0 then
      some { l with rc := Function.update l.rc e 0, live := Function.update l.live e false }
    else some { l with rc := Function.update l.rc e (l.rc e - 1) }
  else none

def checkDelref (l : SplPtrLlist V) : Option Nat → Option (SplPtrLlist V)
  | none => some l
  | some e => l.delref e

def checkAddref (l : SplPtrLlist V) : Option Nat → Option (SplPtrLlist V)
  | none => some l
  | some e => if l.live e then some { l with rc := Function.update l.rc e (l.rc e + 1) } else none

/-- `p->next = e` -/
def setNext (l : SplPtrLlist V) (p : Nat) (e : Option Nat) : Option (SplPtrLlist V) :=
  if l.live p then some { l with next := Function.update l.next p e } else none

/-- `p->prev = e` -/
def setPrev (l : SplPtrLlist V) (p : Nat) (e : Option Nat) : Option (SplPtrLlist V) :=
  if l.live p then some { l with prev := Function.update l.prev p e } else none

/-- A new element with the number `fresh`. -/
def alloc (l : SplPtrLlist V) (v : V) (prev next : Option Nat) : SplPtrLlist V :=
  { l with
    prev := Function.update l.prev l.fresh prev
    next := Function.update l.next l.fresh next
    rc := Function.update l.rc l.fresh 1
    data := Function.update l.data l.fresh (some v)
    live := Function.update l.live l.fresh true
    fresh := l.fresh + 1 }

def unshift (l : SplPtrLlist V) (v : V) : Option (SplPtrLlist V) :=
  let elem := l.fresh
  let l := l.alloc v none l.head
  let linked := match l.head with
    | some head => l.setPrev head (some elem)
    | none => some { l with tail := some elem }
  linked.map fun l => { l with head := some elem, count := l.count + 1 }

def push (l : SplPtrLlist V) (v : V) : Option (SplPtrLlist V) :=
  let elem := l.fresh
  let l := l.alloc v l.tail none
  let linked := match l.tail with
    | some tail => l.setNext tail (some elem)
    | none => some { l with head := some elem }
  linked.map fun l => { l with tail := some elem, count := l.count + 1 }

/-- The value, or none where the function returns NULL, and the list. -/
def pop (l : SplPtrLlist V) : Option (Option V × SplPtrLlist V) :=
  match l.tail with
  | none => some (none, l)
  | some tail =>
    if l.live tail then
      (match l.prev tail with
        | some p => l.setNext p none
        | none => some { l with head := none }).bind fun l =>
          (({ l with
              tail := l.prev tail
              count := l.count - 1
              data := Function.update l.data tail none }).delref tail).map fun l' =>
            (l.data tail, l')
    else none

def shift (l : SplPtrLlist V) : Option (Option V × SplPtrLlist V) :=
  match l.head with
  | none => some (none, l)
  | some head =>
    if l.live head then
      (match l.next head with
        | some n => l.setPrev n none
        | none => some { l with tail := none }).bind fun l =>
          (({ l with
              head := l.next head
              count := l.count - 1
              data := Function.update l.data head none }).delref head).map fun l' =>
            (l.data head, l')
    else none

/-- `while (current && pos < offset)`, for `n` more positions -/
def offsetLoop (l : SplPtrLlist V) (backward : Bool) : Nat → Option Nat → Option (Option Nat)
  | 0, current => some current
  | _ + 1, none => some none
  | n + 1, some e =>
    if l.live e then offsetLoop l backward n (if backward then l.prev e else l.next e) else none

def offset (l : SplPtrLlist V) (offset : Int) (backward : Bool) : Option (Option Nat) :=
  l.offsetLoop backward offset.toNat (if backward then l.tail else l.head)

/-- The part of `SplDoublyLinkedList::offsetUnset` behind the search. -/
def unset (l : SplPtrLlist V) (element : Nat) : Option (SplPtrLlist V) :=
  if l.live element then
    (match l.prev element with
      | some p => l.setNext p (l.next element)
      | none => some l).bind fun l =>
    (match l.next element with
      | some n => l.setPrev n (l.prev element)
      | none => some l).bind fun l =>
    let l := if some element = l.head then { l with head := l.next element } else l
    let l := if some element = l.tail then { l with tail := l.prev element } else l
    ({ l with count := l.count - 1, data := Function.update l.data element none }).delref element
  else none

/-- The loop of `spl_ptr_llist_copy`; `n` elements are left. -/
def copyLoop (source : SplPtrLlist V) : Nat → Option Nat → SplPtrLlist V → Option (SplPtrLlist V)
  | _, none, dest => some dest
  | 0, some _, _ => none
  | n + 1, some current, dest =>
    if source.live current then
      match source.data current with
      | some v => (dest.push v).bind fun dest => copyLoop source n (source.next current) dest
      | none => none  -- the constructor adds a reference to NULL
    else none

def copy (source : SplPtrLlist V) : Option (SplPtrLlist V) :=
  copyLoop source source.count source.head splPtrLlistInit

/-- The elements in the list: `n` of them, from `current` on. -/
def follow (next : Nat → Option Nat) : Nat → Option Nat → List Nat
  | n + 1, some e => e :: follow next n (next e)
  | _, _ => []

def linked (l : SplPtrLlist V) : List Nat := follow l.next l.count l.head

end SplPtrLlist

/-- A class and its parents up to SplDoublyLinkedList. -/
inductive ClassEntry where
  | splDoublyLinkedList
  | splQueue
  | splStack
  | sub (parent : ClassEntry)
  deriving DecidableEq, Repr

def splDllistItDelete : BitVec 32 := 1
def splDllistItLifo : BitVec 32 := 2
def splDllistItMask : BitVec 32 := 3
def splDllistItFix : BitVec 32 := 4

/-- `traverse_pointer` and `traverse_position`, of the object or of an iterator. -/
structure Traverse where
  pointer : Option Nat
  position : Int

/-- `traverses` has the traversal of the object itself first, and then those of its iterators, none
    for an iterator that has been destroyed. -/
structure SplDllistObject (V : Type) where
  ce : ClassEntry
  flags : BitVec 32
  llist : SplPtrLlist V
  traverses : List (Option Traverse)

namespace SplDllistObject

variable {V : Type}

/-- The loop over the parents in `spl_dllist_object_new_ex`. -/
def classFlags : ClassEntry → BitVec 32 → BitVec 32
  | .splDoublyLinkedList, flags => flags
  | .splQueue, flags => flags ||| splDllistItFix
  | .splStack, flags => flags ||| (splDllistItFix ||| splDllistItLifo)
  | .sub parent, flags => classFlags parent flags

/-- `spl_dllist_object_new_ex` without `orig` -/
def splDllistObjectNew (ce : ClassEntry) : SplDllistObject V :=
  { ce := ce, flags := classFlags ce 0, llist := .splPtrLlistInit,
    traverses := [some { pointer := none, position := 0 }] }

/-- `spl_dllist_object_new_ex` with `clone_orig` -/
def splDllistObjectClone (o : SplDllistObject V) : Option (SplDllistObject V) :=
  o.llist.copy.bind fun l => (l.checkAddref l.head).map fun l =>
    { ce := o.ce, flags := classFlags o.ce o.flags, llist := l,
      traverses := [some { pointer := l.head, position := 0 }] }

def lifo (flags : BitVec 32) : Bool := flags &&& splDllistItLifo ≠ 0
def itDelete (flags : BitVec 32) : Bool := flags &&& splDllistItDelete ≠ 0

def setIteratorMode (o : SplDllistObject V) (value : BitVec 64) : SplDllistObject V :=
  if o.flags &&& splDllistItFix ≠ 0 ∧
      (o.flags &&& splDllistItLifo).signExtend 64 ≠ value &&& splDllistItLifo.signExtend 64 then o
  else { o with flags := (value &&& splDllistItMask.signExtend 64).setWidth 32 }

def withLlist (o : SplDllistObject V) (l : SplPtrLlist V) : SplDllistObject V := { o with llist := l }

def push (o : SplDllistObject V) (v : V) : Option (SplDllistObject V) :=
  (o.llist.push v).map o.withLlist

def unshift (o : SplDllistObject V) (v : V) : Option (SplDllistObject V) :=
  (o.llist.unshift v).map o.withLlist

/-- `SplDoublyLinkedList::pop`; NULL is the exception for an empty list. -/
def pop (o : SplDllistObject V) : Option (Option V × SplDllistObject V) :=
  o.llist.pop.map fun (v, l) => (v, o.withLlist l)

def shift (o : SplDllistObject V) : Option (Option V × SplDllistObject V) :=
  o.llist.shift.map fun (v, l) => (v, o.withLlist l)

def elementAt (o : SplDllistObject V) (index : Int) : Option (Option Nat) :=
  if index < 0 ∨ index ≥ o.llist.count then some none
  else o.llist.offset index (lifo o.flags)

def offsetGet (o : SplDllistObject V) (index : Int) : Option (Option V) :=
  (o.elementAt index).bind fun element =>
    match element with
    | some e => if o.llist.live e then some (o.llist.data e) else none
    | none => some none

/-- `$obj[] = ...` where the index is null. -/
def offsetSet (o : SplDllistObject V) (index : Option Int) (v : V) : Option (SplDllistObject V) :=
  match index with
  | none => o.push v
  | some index =>
    (o.elementAt index).bind fun element =>
      match element with
      | some e =>
        if o.llist.live e then
          some (o.withLlist { o.llist with data := Function.update o.llist.data e (some v) })
        else none
      | none => some o

def offsetUnset (o : SplDllistObject V) (index : Int) : Option (SplDllistObject V) :=
  (o.elementAt index).bind fun element =>
    match element with
    | some e => (o.llist.unset e).map o.withLlist
    | none => some o

/-- The traversal number `k`, if its iterator has not been destroyed. -/
def traverse (o : SplDllistObject V) (k : Nat) : Option Traverse := (o.traverses[k]?).getD none

def helperRewind (o : SplDllistObject V) (k : Nat) (flags : BitVec 32) :
    Option (SplDllistObject V) :=
  match o.traverse k with
  | none => some o
  | some t =>
    (o.llist.checkDelref t.pointer).bind fun l =>
      let t : Traverse :=
        if lifo flags then { pointer := l.tail, position := l.count - 1 }
        else { pointer := l.head, position := 0 }
      (l.checkAddref t.pointer).map fun l =>
        { o with llist := l, traverses := o.traverses.set k (some t) }

def helperMoveForward (o : SplDllistObject V) (k : Nat) (flags : BitVec 32) :
    Option (SplDllistObject V) :=
  match o.traverse k with
  | none => some o
  | some t =>
    match t.pointer with
    | none => some o
    | some old =>
      if o.llist.live old then
        let moved : Option (Traverse × SplPtrLlist V) :=
          if lifo flags then
            let t : Traverse := { pointer := o.llist.prev old, position := t.position - 1 }
            if itDelete flags then o.llist.pop.map fun (_, l) => (t, l) else some (t, o.llist)
          else
            let t : Traverse := { t with pointer := o.llist.next old }
            if itDelete flags then o.llist.shift.map fun (_, l) => (t, l)
            else some ({ t with position := t.position + 1 }, o.llist)
        moved.bind fun (t, l) => (l.delref old).bind fun l => (l.checkAddref t.pointer).map fun l =>
          { o with llist := l, traverses := o.traverses.set k (some t) }
      else none

def getIterator (o : SplDllistObject V) : Option (SplDllistObject V) :=
  match o.traverse 0 with
  | none => some o
  | some t => (o.llist.checkAddref t.pointer).map fun l =>
      { o with llist := l, traverses := o.traverses ++ [some t] }

def itDtor (o : SplDllistObject V) (k : Nat) : Option (SplDllistObject V) :=
  match o.traverse k with
  | none => some o
  | some t => (o.llist.checkDelref t.pointer).map fun l =>
      { o with llist := l, traverses := o.traverses.set k none }

end SplDllistObject

/-- A call of a method of an object, or of a function of one of its iterators. -/
inductive DllistCall (V : Type) where
  | push (v : V)
  | unshift (v : V)
  | pop
  | shift
  | offsetSet (index : Option Int) (v : V)
  | offsetUnset (index : Int)
  | setIteratorMode (value : BitVec 64)
  | rewind
  | next
  | prev
  | getIterator
  | itRewind (k : Nat)
  | itMoveForward (k : Nat)
  | itDtor (k : Nat)

/-- The number `k` of an iterator is one more than that of the iterator before it; 0 is the object's
    own traversal, which is no iterator. -/
def SplDllistObject.call {V : Type} (o : SplDllistObject V) :
    DllistCall V → Option (SplDllistObject V)
  | .push v => o.push v
  | .unshift v => o.unshift v
  | .pop => o.pop.map Prod.snd
  | .shift => o.shift.map Prod.snd
  | .offsetSet index v => o.offsetSet index v
  | .offsetUnset index => o.offsetUnset index
  | .setIteratorMode value => some (o.setIteratorMode value)
  | .rewind => o.helperRewind 0 o.flags
  | .next => o.helperMoveForward 0 o.flags
  | .prev => o.helperMoveForward 0 (o.flags ^^^ splDllistItLifo)
  | .getIterator => o.getIterator
  | .itRewind k => o.helperRewind (k + 1) o.flags
  | .itMoveForward k => o.helperMoveForward (k + 1) o.flags
  | .itDtor k => o.itDtor (k + 1)

inductive DllistOp (V : Type) where
  | new (ce : ClassEntry)
  | clone (i : Nat)
  | call (i : Nat) (call : DllistCall V)

/-- The objects, in the order in which they were made. -/
def dllistStep {V : Type} (objects : List (SplDllistObject V)) :
    DllistOp V → Option (List (SplDllistObject V))
  | .new ce => some (objects ++ [.splDllistObjectNew ce])
  | .clone i =>
    match objects[i]? with
    | some o => o.splDllistObjectClone.map fun o' => objects ++ [o']
    | none => some objects
  | .call i c =>
    match objects[i]? with
    | some o => (o.call c).map fun o' => objects.set i o'
    | none => some objects

end Php53.Spl
