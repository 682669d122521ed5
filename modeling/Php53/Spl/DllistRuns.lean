import Php53.Reasoning.Run
import Php53.Spl.DllistInvariant

/-!
# DllistRuns — traversal safety

An element that has been removed keeps its links, and these do not count as references.  So the
calls are safe as long as none of them frees an element that such a link leads to.
-/

namespace Php53.Spl

open Reasoning List

namespace SplDllistObject

variable {V : Type}

def pointersOf (traverses : List (Option Traverse)) : List Nat :=
  traverses.filterMap fun t => t.bind Traverse.pointer

def pointers (o : SplDllistObject V) : List Nat := pointersOf o.traverses

def others (o : SplDllistObject V) (k : Nat) : List Nat := pointersOf (o.traverses.eraseIdx k)

def pointer (o : SplDllistObject V) (k : Nat) : Option Nat := (o.traverse k).bind Traverse.pointer

def movedTo (o : SplDllistObject V) (k : Nat) (flags : BitVec 32) : Option Nat :=
  (o.pointer k).bind fun old => if lifo flags then o.llist.prev old else o.llist.next old

def deletedEnd (o : SplDllistObject V) (flags : BitVec 32) : Option Nat :=
  if itDelete flags then if lifo flags then o.llist.tail else o.llist.head else none

def movedOff (o : SplDllistObject V) (k : Nat) (flags : BitVec 32) : List Nat :=
  match o.pointer k with
  | some old => (o.deletedEnd flags).toList ++ [old]
  | none => []

/-- The elements that lose a reference, each as often as it loses one. -/
def givenUp (o : SplDllistObject V) : DllistCall V → List Nat
  | .pop => o.llist.tail.toList
  | .shift => o.llist.head.toList
  | .offsetUnset index => ((o.elementAt index).join).toList
  | .rewind => (o.pointer 0).toList
  | .next => o.movedOff 0 o.flags
  | .prev => o.movedOff 0 (o.flags ^^^ splDllistItLifo)
  | .itRewind k => (o.pointer (k + 1)).toList
  | .itMoveForward k => o.movedOff (k + 1) o.flags
  | .itDtor k => (o.pointer (k + 1)).toList
  | _ => []

/-- The elements that traverse pointers stand on after the call, other than the ends of the list. -/
def standing (o : SplDllistObject V) : DllistCall V → List Nat
  | .rewind => o.others 0
  | .next => (o.movedTo 0 o.flags).toList ++ o.others 0
  | .prev => (o.movedTo 0 (o.flags ^^^ splDllistItLifo)).toList ++ o.others 0
  | .itRewind k => o.others (k + 1)
  | .itMoveForward k => (o.movedTo (k + 1) o.flags).toList ++ o.others (k + 1)
  | .itDtor k => o.others (k + 1)
  | _ => o.pointers

/-- The call gives up the last reference to no element that a traverse pointer comes to stand on,
    nor to one that is the neighbour of a removed element with such a pointer. -/
def CallOk (o : SplDllistObject V) (c : DllistCall V) : Prop :=
  ∀ q ∈ o.givenUp c, o.llist.rc q = (o.givenUp c).count q →
    ∀ p ∈ o.standing c, o.llist.ClearOf p q

def Counted (o : SplDllistObject V) : Prop := o.llist.Owned o.llist.linked o.pointers

def Anchored (o : SplDllistObject V) : Prop := ∀ p ∈ o.pointers, o.llist.Anchored p

theorem counted_of {o : SplDllistObject V} {s refs : List Nat} (h : o.llist.Owned s refs)
    (hp : refs.Perm o.pointers) : o.Counted := by
  unfold Counted
  rw [h.linked_eq]
  exact h.perm hp

theorem counted_new (ce : ClassEntry) : (splDllistObjectNew ce : SplDllistObject V).Counted :=
  counted_of SplPtrLlist.owned_init (List.Perm.refl _)

theorem pointersOf_append (ts us : List (Option Traverse)) :
    pointersOf (ts ++ us) = pointersOf ts ++ pointersOf us :=
  filterMap_append

theorem pointersOf_cons (t : Option Traverse) (ts : List (Option Traverse)) :
    pointersOf (t :: ts) = (t.bind Traverse.pointer).toList ++ pointersOf ts := by
  unfold pointersOf
  rw [filterMap_cons]
  cases t.bind Traverse.pointer <;> rfl

theorem pointersOf_perm {ts : List (Option Traverse)} {k : Nat} {t : Option Traverse}
    (h : ts[k]? = some t) :
    ((t.bind Traverse.pointer).toList ++ pointersOf (ts.eraseIdx k)).Perm (pointersOf ts) := by
  induction ts generalizing k with
  | nil => exact nomatch h
  | cons u ts ih =>
    cases k with
    | zero =>
      obtain rfl : u = t := by simpa using h
      rw [pointersOf_cons]
      exact List.Perm.refl _
    | succ k =>
      rw [eraseIdx_cons_succ, pointersOf_cons, pointersOf_cons]
      have hk := ih (k := k) (by simpa using h)
      refine List.Perm.trans ?_ (hk.append_left _)
      rw [← append_assoc, ← append_assoc]
      exact perm_append_comm.append_right _

variable {o : SplDllistObject V} {k : Nat} {t : Traverse} {c : DllistCall V} {l : SplPtrLlist V}

theorem traverse_eq_some (h : o.traverse k = some t) : o.traverses[k]? = some (some t) := by
  unfold traverse at h
  cases hk : o.traverses[k]? with
  | none => rw [hk] at h; exact nomatch h
  | some u => rw [hk] at h; rw [show u = some t from h]

theorem pointers_perm (h : o.traverse k = some t) :
    (t.pointer.toList ++ o.others k).Perm o.pointers :=
  pointersOf_perm (t := some t) (traverse_eq_some h)

theorem pointers_set (h : o.traverse k = some t) (u : Option Traverse) :
    ((u.bind Traverse.pointer).toList ++ o.others k).Perm (pointersOf (o.traverses.set k u)) := by
  have hk : k < o.traverses.length :=
    (List.getElem?_eq_some_iff.mp (traverse_eq_some h)).1
  have hset : (o.traverses.set k u)[k]? = some u := by simp [hk]
  have hperm := pointersOf_perm hset
  rwa [eraseIdx_set_eq] at hperm

theorem Counted.owned_at (h : o.Counted) (ht : o.traverse k = some t) :
    o.llist.Owned o.llist.linked (t.pointer.toList ++ o.others k) :=
  h.perm (pointers_perm ht).symm

theorem mem_pointers (ht : o.traverse k = some t) {p : Nat}
    (hp : p ∈ t.pointer.toList ++ o.others k) : p ∈ o.pointers :=
  (pointers_perm ht).mem_iff.mp hp

section

variable (h : o.Counted)

include h

theorem Counted.grow {s : List Nat} (hl : l.Owned s o.pointers) (hs : o.llist.linked ⊆ s)
    (hframe : ∀ p, p ∉ s → l.prev p = o.llist.prev p ∧ l.next p = o.llist.next p) :
    (o.withLlist l).Counted ∧ (o.Anchored → (o.withLlist l).Anchored) := by
  refine ⟨counted_of hl (List.Perm.refl _), fun hanch p hp => ?_⟩
  by_cases hps : p ∈ s
  · exact hl.anchored_of_mem hps
  intro n hn
  obtain ⟨hprev, hnext⟩ := hframe p hps
  change l.prev p = some n ∨ l.next p = some n at hn
  rw [hprev, hnext] at hn
  have hlive := (h.live_iff n).mp (hanch p hp n hn)
  refine (hl.live_iff n).mpr ?_
  rcases mem_append.mp hlive with hm | hm
  · exact mem_append_left _ (hs hm)
  · exact mem_append_right _ hm

theorem Counted.push (v : V) :
    ∃ o', o.push v = some o' ∧ o'.Counted ∧ (o.Anchored → o'.Anchored) := by
  refine ⟨_, by rw [SplDllistObject.push, h.push_eq v]; rfl,
    h.grow (h.pushed v) (subset_append_left _ _) fun p hps => ?_⟩
  have hpf : p ≠ o.llist.fresh := fun he => hps (he ▸ by simp)
  constructor
  · exact Function.update_of_ne hpf _ _
  · show updateAt (Function.update o.llist.next o.llist.fresh none) o.llist.tail _ p = _
    rw [updateAt_of_ne _ _ _ fun ht => hps (mem_append_left _ (h.tail_mem ht)),
      Function.update_of_ne hpf]

theorem Counted.unshift (v : V) :
    ∃ o', o.unshift v = some o' ∧ o'.Counted ∧ (o.Anchored → o'.Anchored) := by
  refine ⟨_, by rw [SplDllistObject.unshift, h.unshift_eq v]; rfl,
    h.grow (h.unshifted v) (subset_cons_self _ _) fun p hps => ?_⟩
  have hpf : p ≠ o.llist.fresh := fun he => hps (he ▸ by simp)
  constructor
  · show updateAt (Function.update o.llist.prev o.llist.fresh none) o.llist.head _ p = _
    rw [updateAt_of_ne _ _ _ fun ht => hps (mem_cons_of_mem _ (h.head_mem ht)),
      Function.update_of_ne hpf]
  · exact Function.update_of_ne hpf _ _

theorem Counted.remove {e : Nat} (he : e ∈ o.llist.linked) (hgiven : o.givenUp c = [e])
    (hstanding : o.standing c = o.pointers) :
    ∃ l, (o.llist.removed e).delref e = some l ∧ (o.withLlist l).Counted ∧
      (o.Anchored → o.CallOk c → (o.withLlist l).Anchored) := by
  have hr := SplPtrLlist.Released.removed h he
  refine ⟨_, SplPtrLlist.delref_eq (h.live_of_mem he),
    counted_of hr.after (List.Perm.refl _), fun hanch hok p hp => ?_⟩
  unfold CallOk at hok
  rw [hgiven, hstanding] at hok
  exact hr.anchored (hanch p hp) fun q hq hlast => hok q hq hlast p hp

theorem Counted.pop :
    ∃ r, o.pop = some r ∧ r.2.Counted ∧ (o.Anchored → o.CallOk .pop → r.2.Anchored) := by
  unfold SplDllistObject.pop
  cases ht : o.llist.tail with
  | none =>
    exact ⟨(none, o.withLlist o.llist), by simp [SplPtrLlist.pop, ht], h, fun hanch _ => hanch⟩
  | some e =>
    obtain ⟨l, hl, hcounted, hanch⟩ :=
      h.remove (h.tail_mem ht) (c := .pop) (by simp [givenUp, ht]) rfl
    exact ⟨_, by rw [h.pop_eq ht, hl]; rfl, hcounted, hanch⟩

theorem Counted.shift :
    ∃ r, o.shift = some r ∧ r.2.Counted ∧ (o.Anchored → o.CallOk .shift → r.2.Anchored) := by
  unfold SplDllistObject.shift
  cases ht : o.llist.head with
  | none =>
    exact ⟨(none, o.withLlist o.llist), by simp [SplPtrLlist.shift, ht], h, fun hanch _ => hanch⟩
  | some e =>
    obtain ⟨l, hl, hcounted, hanch⟩ :=
      h.remove (h.head_mem ht) (c := .shift) (by simp [givenUp, ht]) rfl
    exact ⟨_, by rw [h.shift_eq ht, hl]; rfl, hcounted, hanch⟩

theorem Counted.elementAt_eq (index : Int) :
    o.elementAt index = some (if index < 0 then none else
      (if lifo o.flags then o.llist.linked.reverse else o.llist.linked)[index.toNat]?) := by
  unfold SplDllistObject.elementAt
  have hcount : o.llist.count = o.llist.linked.length := h.count_eq
  by_cases hneg : index < 0
  · rw [if_pos (Or.inl hneg), if_pos hneg]
  · rw [if_neg hneg]
    by_cases hlen : index ≥ o.llist.count
    · rw [if_pos (Or.inr hlen), List.getElem?_eq_none]
      split
      · rw [length_reverse]
        omega
      · omega
    · rw [if_neg (by omega)]
      exact h.offset_eq _ _

theorem Counted.mem_of_elementAt {index : Int} {r : Option Nat}
    (hr : o.elementAt index = some r) : ∀ e ∈ r, e ∈ o.llist.linked := by
  rw [h.elementAt_eq] at hr
  obtain rfl := Option.some.inj hr
  intro e he
  split at he
  · exact nomatch he
  · have hm := mem_of_getElem? he
    split at hm
    · exact mem_reverse.mp hm
    · exact hm

theorem Counted.offsetSet (index : Option Int) (v : V) :
    ∃ o', o.offsetSet index v = some o' ∧ o'.Counted ∧ (o.Anchored → o'.Anchored) := by
  cases index with
  | none => exact h.push v
  | some index =>
    have hr := h.elementAt_eq index
    have hmem := h.mem_of_elementAt hr
    unfold SplDllistObject.offsetSet
    simp only [hr, Option.bind_some]
    split
    · rename_i e he
      have hes := hmem e he
      refine ⟨_, if_pos (h.live_of_mem hes), ?_, fun hanch => hanch⟩
      refine @counted_of V _ o.llist.linked o.pointers ?_ (List.Perm.refl _)
      refine ⟨h.chain, h.count_eq, fun x hx => ?_, h.rc_eq, h.live_iff, h.fresh_lt, h.no_loop⟩
      show (Function.update o.llist.data e (some v) x).isSome = true
      by_cases hxe : x = e
      · subst hxe
        simp
      · rw [Function.update_of_ne hxe]
        exact h.stored x hx
    · exact ⟨o, rfl, h, fun hanch => hanch⟩

theorem Counted.offsetUnset (index : Int) :
    ∃ o', o.offsetUnset index = some o' ∧ o'.Counted ∧
      (o.Anchored → o.CallOk (.offsetUnset index) → o'.Anchored) := by
  obtain ⟨r, hr⟩ : ∃ r, o.elementAt index = some r := ⟨_, h.elementAt_eq index⟩
  have hmem := h.mem_of_elementAt hr
  unfold SplDllistObject.offsetUnset
  simp only [hr, Option.bind_some]
  cases r with
  | none => exact ⟨o, rfl, h, fun hanch _ => hanch⟩
  | some e =>
    have hes := hmem e rfl
    obtain ⟨l, hl, hcounted, hanch⟩ :=
      h.remove hes (c := .offsetUnset index) (by simp [givenUp, hr]) rfl
    exact ⟨_, by simp only [h.unset_eq hes, hl]; rfl, hcounted, hanch⟩

theorem Counted.clone :
    ∃ o', o.splDllistObjectClone = some o' ∧ o'.Counted ∧ o'.Anchored := by
  obtain ⟨l, s, hcopy, hl⟩ := h.copy
  have hhead : ∀ e ∈ l.head, e ∈ s := fun e he => hl.head_mem he
  obtain ⟨l', hadd, hl', -, -, hhead'⟩ :=
    hl.checkAddref (p := l.head) fun e he => by simp [hhead e he]
  have hpointers : ∀ flags, (l.head.toList ++ []).Perm (pointers
      { ce := o.ce, flags := flags, llist := l',
        traverses := [some { pointer := l'.head, position := 0 }] }) := fun flags => by
    unfold pointers
    rw [pointersOf_cons, ← hhead']
    exact List.Perm.refl _
  unfold splDllistObjectClone
  simp only [hcopy, hadd, Option.bind_some, Option.map_some]
  refine ⟨_, rfl, counted_of hl' (hpointers _), fun p hp => hl'.anchored_of_mem ?_⟩
  exact hhead p (by simpa using (hpointers _).mem_iff.mpr hp)

end

theorem retarget {s : List Nat} {u : Traverse} (ht : o.traverse k = some t)
    (hl : l.Owned s (o.others k)) (hu : ∀ e ∈ u.pointer, e ∈ s ++ o.others k) :
    ∃ l', l.checkAddref u.pointer = some l' ∧
      Counted { o with llist := l', traverses := o.traverses.set k (some u) } ∧
      ((∀ p ∈ u.pointer.toList ++ o.others k, l.Anchored p) →
        Anchored { o with llist := l', traverses := o.traverses.set k (some u) }) := by
  obtain ⟨l', hadd, hl', hprev, hnext, -⟩ := hl.checkAddref hu
  have hperm := pointers_set ht (some u)
  refine ⟨l', hadd, counted_of hl' hperm, fun hanch p hp n hn => ?_⟩
  have hn' : l.prev p = some n ∨ l.next p = some n := by rwa [hprev, hnext] at hn
  have hlive := (hl.live_iff n).mp (hanch p (hperm.mem_iff.mpr hp) n hn')
  refine (hl'.live_iff n).mpr ?_
  rcases mem_append.mp hlive with hm | hm <;> simp [hm]

theorem Counted.leave (h : o.Counted) (ht : o.traverse k = some t) :
    ∃ l, o.llist.checkDelref t.pointer = some l ∧
      SplPtrLlist.Released o.llist l o.llist.linked o.llist.linked
        (t.pointer.toList ++ o.others k) (o.others k) (o.pointer k).toList ∧
      l.head = o.llist.head ∧ l.tail = o.llist.tail := by
  have hptr : o.pointer k = t.pointer := by simp [pointer, ht]
  have hown := h.owned_at ht
  obtain ⟨l, hl, hl', hprev, hnext, hhead, htail⟩ := hown.checkDelref
  refine ⟨l, hl, ⟨hown, hl', ?_, fun p _ => by rw [hprev, hnext]; exact ⟨rfl, rfl⟩,
    fun p hp hnp => (hnp hp).elim⟩, hhead, htail⟩
  rw [hptr, ← append_assoc, ← append_assoc]
  exact perm_append_comm.append_right _

theorem anchored_others {s refs given standing : List Nat}
    (hr : SplPtrLlist.Released o.llist l o.llist.linked s refs (o.others k) given)
    (ht : o.traverse k = some t) (hanch : o.Anchored)
    (hok : ∀ q ∈ given, o.llist.rc q = given.count q → ∀ p ∈ standing, o.llist.ClearOf p q)
    (hsub : o.others k ⊆ standing) : ∀ p ∈ o.others k, l.Anchored p := fun p hp =>
  hr.anchored (hanch p (mem_pointers ht (mem_append_right _ hp)))
    fun q hq hlast => hok q hq hlast p (hsub hp)

theorem Counted.helperRewind (h : o.Counted) (flags : BitVec 32)
    (hgiven : o.givenUp c = (o.pointer k).toList) (hstanding : o.standing c = o.others k) :
    ∃ o', o.helperRewind k flags = some o' ∧ o'.Counted ∧
      (o.Anchored → o.CallOk c → o'.Anchored) := by
  unfold SplDllistObject.helperRewind CallOk
  rw [hgiven, hstanding]
  cases ht : o.traverse k with
  | none => exact ⟨o, rfl, h, fun hanch _ => hanch⟩
  | some t =>
    obtain ⟨l, hl, hr, hhead, htail⟩ := h.leave ht
    simp only [hl, Option.bind_some]
    have hend : ∀ e ∈ (if lifo flags then { pointer := l.tail, position := l.count - 1 }
        else { pointer := l.head, position := 0 } : Traverse).pointer, e ∈ o.llist.linked := by
      intro e he
      split at he
      · exact h.tail_mem (htail ▸ he)
      · exact h.head_mem (hhead ▸ he)
    obtain ⟨l', hl', hcounted, hanch'⟩ :=
      retarget ht hr.after fun e he => mem_append_left _ (hend e he)
    refine ⟨_, by rw [hl']; rfl, hcounted, fun hanch hok => hanch' fun p hp => ?_⟩
    rcases mem_append.mp hp with hp | hp
    · exact hr.after.anchored_of_mem (hend p (Option.mem_toList.mp hp))
    · exact anchored_others hr ht hanch hok (List.Subset.refl _) p hp

theorem Counted.itDtor (h : o.Counted) (hgiven : o.givenUp c = (o.pointer k).toList)
    (hstanding : o.standing c = o.others k) :
    ∃ o', o.itDtor k = some o' ∧ o'.Counted ∧ (o.Anchored → o.CallOk c → o'.Anchored) := by
  unfold SplDllistObject.itDtor CallOk
  rw [hgiven, hstanding]
  cases ht : o.traverse k with
  | none => exact ⟨o, rfl, h, fun hanch _ => hanch⟩
  | some t =>
    obtain ⟨l, hl, hr, -, -⟩ := h.leave ht
    have hperm := pointers_set ht none
    refine ⟨_, by simp only [hl]; rfl, counted_of hr.after hperm, fun hanch hok p hp => ?_⟩
    exact anchored_others hr ht hanch hok (List.Subset.refl _) p (hperm.mem_iff.mpr hp)

theorem Counted.getIterator (h : o.Counted) :
    ∃ o', o.getIterator = some o' ∧ o'.Counted ∧ (o.Anchored → o'.Anchored) := by
  unfold SplDllistObject.getIterator
  cases ht : o.traverse 0 with
  | none => exact ⟨o, rfl, h, fun hanch => hanch⟩
  | some t =>
    have hmem : ∀ e ∈ t.pointer, e ∈ o.pointers := fun e he =>
      mem_pointers ht (by simp [show t.pointer = some e from he])
    obtain ⟨l, hl, hown, hprev, hnext, -⟩ :=
      h.checkAddref (p := t.pointer) fun e he => mem_append_right _ (hmem e he)
    have hperm : (t.pointer.toList ++ o.pointers).Perm (pointersOf (o.traverses ++ [some t])) := by
      rw [pointersOf_append, pointersOf_cons]
      simp only [pointersOf, filterMap_nil, List.append_nil, Option.bind_some]
      exact perm_append_comm
    refine ⟨_, by simp only [hl]; rfl, counted_of hown hperm, fun hanch p hp n hn => ?_⟩
    have hp' : p ∈ o.pointers := by
      rcases mem_append.mp (hperm.mem_iff.mpr hp) with hp | hp
      · exact hmem p (by simpa using hp)
      · exact hp
    have hn' : o.llist.prev p = some n ∨ o.llist.next p = some n := by
      rwa [hprev, hnext] at hn
    refine (hown.live_iff n).mpr ?_
    rcases mem_append.mp ((h.live_iff n).mp (hanch p hp' n hn')) with hm | hm <;> simp [hm]

theorem Counted.depart (h : o.Counted) (flags : BitVec 32) {old : Nat} (ht : o.traverse k = some t)
    (hold : t.pointer = some old) :
    ∃ v l s, (if itDelete flags then if lifo flags then o.llist.pop else o.llist.shift
        else some (none, o.llist)) = some (v, l) ∧ l.live old = true ∧
      SplPtrLlist.Released o.llist (l.dropRef old) o.llist.linked s (old :: o.others k)
        (o.others k) (o.movedOff k flags) := by
  have hown := h.owned_at ht
  rw [hold] at hown
  have hoff : o.movedOff k flags = (o.deletedEnd flags).toList ++ [old] := by
    simp [movedOff, pointer, ht, hold]
  rw [hoff]
  have hremoved : ∀ e ∈ o.llist.linked, ∃ s,
      (o.llist.removed e).delref e = some ((o.llist.removed e).dropRef e) ∧
      ((o.llist.removed e).dropRef e).live old = true ∧
      SplPtrLlist.Released o.llist (((o.llist.removed e).dropRef e).dropRef old) o.llist.linked s
        (old :: o.others k) (o.others k) ((some e).toList ++ [old]) := fun e he => by
    have hr := SplPtrLlist.Released.removed hown he
    exact ⟨_, SplPtrLlist.delref_eq (hown.live_of_mem he),
      (hr.after.live_iff old).mpr (by simp), hr.dropRef⟩
  have hkept : ∃ s, o.llist.live old = true ∧
      SplPtrLlist.Released o.llist (o.llist.dropRef old) o.llist.linked s
        (old :: o.others k) (o.others k) ((none : Option Nat).toList ++ [old]) :=
    ⟨_, (hown.live_iff old).mpr (by simp), (SplPtrLlist.Released.refl hown).dropRef⟩
  unfold deletedEnd
  by_cases hdel : itDelete flags = true
  · rw [if_pos hdel, if_pos hdel]
    by_cases hlifo : lifo flags = true
    · rw [if_pos hlifo, if_pos hlifo]
      cases htail : o.llist.tail with
      | none =>
        obtain ⟨s, hlive, hr⟩ := hkept
        exact ⟨none, o.llist, s, by simp [SplPtrLlist.pop, htail], hlive, hr⟩
      | some e =>
        have he := h.tail_mem htail
        obtain ⟨s, hdrop, hlive, hr⟩ := hremoved e he
        refine ⟨o.llist.data e, _, s, ?_, hlive, hr⟩
        rw [h.pop_eq htail, hdrop]
        rfl
    · rw [if_neg hlifo, if_neg hlifo]
      cases hhead : o.llist.head with
      | none =>
        obtain ⟨s, hlive, hr⟩ := hkept
        exact ⟨none, o.llist, s, by simp [SplPtrLlist.shift, hhead], hlive, hr⟩
      | some e =>
        have he := h.head_mem hhead
        obtain ⟨s, hdrop, hlive, hr⟩ := hremoved e he
        refine ⟨o.llist.data e, _, s, ?_, hlive, hr⟩
        rw [h.shift_eq hhead, hdrop]
        rfl
  · rw [if_neg hdel, if_neg hdel]
    obtain ⟨s, hlive, hr⟩ := hkept
    exact ⟨none, o.llist, s, rfl, hlive, hr⟩

theorem helperMoveForward_eq (flags : BitVec 32) {old : Nat} (ht : o.traverse k = some t)
    (hold : t.pointer = some old) (hlive : o.llist.live old = true) :
    ∃ position, o.helperMoveForward k flags =
      (if itDelete flags then if lifo flags then o.llist.pop else o.llist.shift
        else some (none, o.llist)).bind fun r => (r.2.delref old).bind fun l =>
          (l.checkAddref (o.movedTo k flags)).map fun l =>
            { o with
              llist := l
              traverses := o.traverses.set k
                (some { pointer := o.movedTo k flags, position := position }) } := by
  have hto : o.movedTo k flags =
      if lifo flags then o.llist.prev old else o.llist.next old := by
    simp [movedTo, pointer, ht, hold]
  unfold helperMoveForward
  simp only [ht, hold, hlive, if_true]
  by_cases hlifo : lifo flags = true
  · rw [if_pos hlifo] at hto
    refine ⟨t.position - 1, ?_⟩
    rw [hto, if_pos hlifo]
    by_cases hdel : itDelete flags = true
    · rw [if_pos hdel, if_pos hdel, if_pos hlifo]
      cases o.llist.pop <;> rfl
    · rw [if_neg hdel, if_neg hdel]
      rfl
  · rw [if_neg hlifo] at hto
    rw [hto, if_neg hlifo]
    by_cases hdel : itDelete flags = true
    · refine ⟨t.position, ?_⟩
      rw [if_pos hdel, if_pos hdel, if_neg hlifo]
      cases o.llist.shift <;> rfl
    · refine ⟨t.position + 1, ?_⟩
      rw [if_neg hdel, if_neg hdel]
      rfl

theorem Counted.helperMoveForward (h : o.Counted) (flags : BitVec 32)
    (hgiven : o.givenUp c = o.movedOff k flags)
    (hstanding : o.standing c = (o.movedTo k flags).toList ++ o.others k) :
    (∀ o', o.helperMoveForward k flags = some o' →
      o'.Counted ∧ (o.Anchored → o.CallOk c → o'.Anchored)) ∧
      (o.Anchored → o.CallOk c → (o.helperMoveForward k flags).isSome) := by
  unfold CallOk
  rw [hgiven, hstanding]
  cases ht : o.traverse k with
  | none =>
    have hnone : o.helperMoveForward k flags = some o := by
      simp [SplDllistObject.helperMoveForward, ht]
    rw [hnone]
    exact ⟨fun o' ho' => Option.some.inj ho' ▸ ⟨h, fun hanch _ => hanch⟩, fun _ _ => rfl⟩
  | some t =>
    cases hold : t.pointer with
    | none =>
      have hnone : o.helperMoveForward k flags = some o := by
        simp [SplDllistObject.helperMoveForward, ht, hold]
      rw [hnone]
      exact ⟨fun o' ho' => Option.some.inj ho' ▸ ⟨h, fun hanch _ => hanch⟩, fun _ _ => rfl⟩
    | some old =>
      have holdp : old ∈ o.pointers := mem_pointers ht (by simp [hold])
      have hlive : o.llist.live old = true :=
        (h.live_iff old).mpr (mem_append_right _ holdp)
      obtain ⟨position, heq⟩ := helperMoveForward_eq flags ht hold hlive
      obtain ⟨v, l, s, hl, hl', hr⟩ := h.depart flags ht hold
      rw [heq, hl]
      simp only [Option.bind_some, SplPtrLlist.delref_eq hl']
      have hlink : ∀ n ∈ o.movedTo k flags,
          o.llist.prev old = some n ∨ o.llist.next old = some n := fun n hn => by
        have hn' : (if lifo flags then o.llist.prev old else o.llist.next old) = some n := by
          simpa [movedTo, pointer, ht, hold] using hn
        split at hn'
        · exact Or.inl hn'
        · exact Or.inr hn'
      constructor
      · intro o' ho'
        obtain ⟨l', hadd, rfl⟩ := Option.map_eq_some_iff.mp ho'
        -- the element moved to took a reference, so it was alive
        have hto : ∀ n ∈ o.movedTo k flags, n ∈ s ++ o.others k := fun n hn => by
          rw [show o.movedTo k flags = some n from hn] at hadd
          by_contra hnot
          have hdead : ¬ (l.dropRef old).live n = true := fun hlv =>
            hnot ((hr.after.live_iff n).mp hlv)
          rw [SplPtrLlist.checkAddref, if_neg hdead] at hadd
          exact nomatch hadd
        obtain ⟨l'', hadd', hcounted, hanch'⟩ := retarget ht
          (u := { pointer := o.movedTo k flags, position := position }) hr.after hto
        obtain rfl := Option.some.inj (hadd'.symm.trans hadd)
        refine ⟨hcounted, fun hanch hok => hanch' fun p hp => ?_⟩
        refine hr.anchored ?_ fun q hq hlast => hok q hq hlast p hp
        rcases mem_append.mp hp with hp | hp
        · have hplive := hanch old holdp p (hlink p (Option.mem_toList.mp hp))
          rcases mem_append.mp ((h.live_iff p).mp hplive) with hm | hm
          · exact h.anchored_of_mem hm
          · exact hanch p hm
        · exact hanch p (mem_pointers ht (mem_append_right _ hp))
      · intro hanch hok
        have hto : ∀ n ∈ o.movedTo k flags, n ∈ s ++ o.others k := fun n hn =>
          hr.live (hanch old holdp n (hlink n hn)) fun q hq hlast =>
            ((hok q hq hlast n (by simp [show o.movedTo k flags = some n from hn])).1).symm
        obtain ⟨l', hadd, -⟩ := hr.after.checkAddref hto
        rw [hadd]
        rfl

theorem Counted.call (h : o.Counted) (c : DllistCall V) :
    (∀ o', o.call c = some o' → o'.Counted ∧ (o.Anchored → o.CallOk c → o'.Anchored)) ∧
      (o.Anchored → o.CallOk c → (o.call c).isSome) := by
  have htotal : (∃ o', o.call c = some o' ∧ o'.Counted ∧
      (o.Anchored → o.CallOk c → o'.Anchored)) →
      (∀ o', o.call c = some o' → o'.Counted ∧ (o.Anchored → o.CallOk c → o'.Anchored)) ∧
        (o.Anchored → o.CallOk c → (o.call c).isSome) := by
    rintro ⟨o', ho', hkeeps⟩
    rw [ho']
    exact ⟨fun x hx => Option.some.inj hx ▸ hkeeps, fun _ _ => rfl⟩
  cases c with
  | push v =>
    obtain ⟨o', ho', hcounted, hanch⟩ := h.push v
    exact htotal ⟨o', ho', hcounted, fun ha _ => hanch ha⟩
  | unshift v =>
    obtain ⟨o', ho', hcounted, hanch⟩ := h.unshift v
    exact htotal ⟨o', ho', hcounted, fun ha _ => hanch ha⟩
  | pop =>
    obtain ⟨r, hr, hkeeps⟩ := h.pop
    exact htotal ⟨r.2, by simp [SplDllistObject.call, hr], hkeeps⟩
  | shift =>
    obtain ⟨r, hr, hkeeps⟩ := h.shift
    exact htotal ⟨r.2, by simp [SplDllistObject.call, hr], hkeeps⟩
  | offsetSet index v =>
    obtain ⟨o', ho', hcounted, hanch⟩ := h.offsetSet index v
    exact htotal ⟨o', ho', hcounted, fun ha _ => hanch ha⟩
  | offsetUnset index => exact htotal (h.offsetUnset index)
  | setIteratorMode value =>
    refine htotal ⟨_, rfl, ?_⟩
    unfold setIteratorMode
    split <;> exact ⟨h, fun ha _ => ha⟩
  | rewind => exact htotal (h.helperRewind o.flags rfl rfl)
  | next => exact h.helperMoveForward o.flags rfl rfl
  | prev => exact h.helperMoveForward (o.flags ^^^ splDllistItLifo) rfl rfl
  | getIterator =>
    obtain ⟨o', ho', hcounted, hanch⟩ := h.getIterator
    exact htotal ⟨o', ho', hcounted, fun ha _ => hanch ha⟩
  | itRewind k => exact htotal (h.helperRewind o.flags rfl rfl)
  | itMoveForward k => exact h.helperMoveForward o.flags rfl rfl
  | itDtor k => exact htotal (h.itDtor rfl rfl)

/-- Every pointer of a traversal stands on a live element whose links do not lead to a freed one,
    and the references are counted. -/
structure Traversable (o : SplDllistObject V) : Prop where
  pointer_live : ∀ p ∈ o.pointers, o.llist.live p = true
  links_live : ∀ p ∈ o.pointers, ∀ n,
    o.llist.prev p = some n ∨ o.llist.next p = some n → o.llist.live n = true
  rc_eq : ∀ e, o.llist.live e = true →
    o.llist.rc e = (if e ∈ o.llist.linked then 1 else 0) + o.pointers.count e

theorem Counted.traversable (h : o.Counted) (hanch : o.Anchored) : o.Traversable where
  pointer_live p hp := (h.live_iff p).mpr (mem_append_right _ hp)
  links_live := hanch
  rc_eq e _ := by
    rw [h.rc_eq, count_append, h.chain.nodup.count]
    split <;> simp

end SplDllistObject

variable {V : Type} {objects : List (SplDllistObject V)}

def DllistOk (objects : List (SplDllistObject V)) : DllistOp V → Prop
  | .call i c => ∀ o ∈ objects[i]?.toList, o.CallOk c
  | _ => True

instance (l : SplPtrLlist V) (p q : Nat) : Decidable (l.ClearOf p q) :=
  inferInstanceAs (Decidable (_ ∧ _))

instance (o : SplDllistObject V) (c : DllistCall V) : Decidable (o.CallOk c) :=
  inferInstanceAs (Decidable (∀ q ∈ o.givenUp c, _ → ∀ p ∈ o.standing c, _))

instance (objects : List (SplDllistObject V)) (op : DllistOp V) : Decidable (DllistOk objects op) :=
  match op with
  | .call i c => inferInstanceAs (Decidable (∀ o ∈ objects[i]?.toList, o.CallOk c))
  | .new _ => .isTrue trivial
  | .clone _ => .isTrue trivial

theorem dllistStep_counted {objects' : List (SplDllistObject V)} {op : DllistOp V}
    (h : ∀ o ∈ objects, o.Counted) (hstep : dllistStep objects op = some objects') :
    (∀ o ∈ objects', o.Counted) ∧
      ((∀ o ∈ objects, o.Anchored) → DllistOk objects op → ∀ o ∈ objects', o.Anchored) := by
  have hadd : ∀ (P : SplDllistObject V → Prop) (o : SplDllistObject V),
      (∀ x ∈ objects, P x) → P o → ∀ x ∈ objects ++ [o], P x := fun P o hP ho x hx => by
    rcases mem_append.mp hx with hm | hm
    · exact hP x hm
    · exact mem_singleton.mp hm ▸ ho
  have hset : ∀ (P : SplDllistObject V → Prop) (o : SplDllistObject V) (i : Nat),
      (∀ x ∈ objects, P x) → P o → ∀ x ∈ objects.set i o, P x := fun P o i hP ho x hx => by
    rcases mem_or_eq_of_mem_set hx with hm | rfl
    · exact hP x hm
    · exact ho
  cases op with
  | new ce =>
    obtain rfl := Option.some.inj hstep
    exact ⟨hadd _ _ h (SplDllistObject.counted_new ce),
      fun ha _ => hadd _ _ ha fun _ hp => nomatch hp⟩
  | clone i =>
    cases hi : objects[i]? with
    | none =>
      obtain rfl : objects = objects' := by simpa [dllistStep, hi] using hstep
      exact ⟨h, fun ha _ => ha⟩
    | some o =>
      obtain ⟨o', ho', hcounted, hanch⟩ := (h o (mem_of_getElem? hi)).clone
      obtain rfl : objects ++ [o'] = objects' := by simpa [dllistStep, hi, ho'] using hstep
      exact ⟨hadd _ _ h hcounted, fun ha _ => hadd _ _ ha hanch⟩
  | call i c =>
    cases hi : objects[i]? with
    | none =>
      obtain rfl : objects = objects' := by simpa [dllistStep, hi] using hstep
      exact ⟨h, fun ha _ => ha⟩
    | some o =>
      have hmem := mem_of_getElem? hi
      obtain ⟨o', ho', rfl⟩ : ∃ o', o.call c = some o' ∧ objects.set i o' = objects' := by
        simpa [dllistStep, hi] using hstep
      obtain ⟨hcounted, hanch⟩ := ((h o hmem).call c).1 o' ho'
      exact ⟨hset _ _ _ h hcounted, fun ha hok =>
        hset _ _ _ ha (hanch (ha o hmem) (hok o (by simp [hi])))⟩

theorem dllistStep_isSome {op : DllistOp V} (h : ∀ o ∈ objects, o.Counted)
    (hanch : ∀ o ∈ objects, o.Anchored)
    (hok : DllistOk objects op) : (dllistStep objects op).isSome := by
  cases op with
  | new ce => rfl
  | clone i =>
    cases hi : objects[i]? with
    | none => simp [dllistStep, hi]
    | some o =>
      obtain ⟨o', ho', -⟩ := (h o (mem_of_getElem? hi)).clone
      simp [dllistStep, hi, ho']
  | call i c =>
    cases hi : objects[i]? with
    | none => simp [dllistStep, hi]
    | some o =>
      have hmem := mem_of_getElem? hi
      simpa [dllistStep, hi] using
        ((h o hmem).call c).2 (hanch o hmem) (hok o (by simp [hi]))

theorem dllist_counted {ok : List (SplDllistObject V) → DllistOp V → Prop} {ops : List (DllistOp V)}
    (hrun : Run dllistStep ok [] ops objects) : ∀ o ∈ objects, o.Counted :=
  hrun.invariant (I := fun s => ∀ o ∈ s, o.Counted) (by simp)
    fun _ _ _ h _ hstep => (dllistStep_counted h hstep).1

/-- In a run whose calls all respect `DllistOk`, every pointer of a traversal stands on a live
    element and can move from it, every element is counted, and the next such call touches no freed
    element. -/
theorem dllist_traversal_safety {objects : List (SplDllistObject V)} {ops : List (DllistOp V)}
    (hrun : Run dllistStep DllistOk [] ops objects) :
    (∀ o ∈ objects, o.Traversable) ∧
      ∀ op, DllistOk objects op → (dllistStep objects op).isSome := by
  have hkept : (∀ o ∈ objects, o.Counted) ∧ ∀ o ∈ objects, o.Anchored :=
    hrun.invariant (I := fun s => (∀ o ∈ s, o.Counted) ∧ ∀ o ∈ s, o.Anchored) (by simp)
      fun s op t hs hok hstep => by
        obtain ⟨hcounted, hanch⟩ := dllistStep_counted hs.1 hstep
        exact ⟨hcounted, hanch hs.2 hok⟩
  exact ⟨fun o ho => (hkept.1 o ho).traversable (hkept.2 o ho),
    fun op hok => dllistStep_isSome hkept.1 hkept.2 hok⟩

def unsetUnderIterator : List (DllistOp Nat) :=
  [.new .splDoublyLinkedList, .call 0 (.push 10), .call 0 (.push 20), .call 0 (.push 30),
    .call 0 .getIterator, .call 0 (.itRewind 0), .call 0 (.itMoveForward 0),
    .call 0 (.offsetUnset 1), .call 0 (.itMoveForward 0)]

def popBelowPointer : List (DllistOp Nat) :=
  [.new .splDoublyLinkedList, .call 0 (.push 10), .call 0 (.push 20), .call 0 .rewind,
    .call 0 .next, .call 0 .pop, .call 0 .pop]

/-- An iterator stands on an element that is unset, and moves on. -/
theorem dllist_traversal_safety_unset :
    ∃ objects : List (SplDllistObject Nat),
      exec dllistStep DllistOk [] unsetUnderIterator = some objects ∧
        (∀ o ∈ objects, o.Traversable) ∧
          ∀ op, DllistOk objects op → (dllistStep objects op).isSome := by
  have hexec : (exec dllistStep DllistOk [] unsetUnderIterator).isSome = true := by decide
  obtain ⟨objects, hobjects⟩ := Option.isSome_iff_exists.mp hexec
  exact ⟨objects, hobjects, dllist_traversal_safety (Run.append_exec (Run.nil []) hobjects)⟩

/-- Without the condition: the pointer stands on the second element, both are popped, and the link
    of the second one leads to the freed first one. -/
theorem dllist_traversal_unsafe :
    ¬ ∀ (ops : List (DllistOp Nat)) (objects : List (SplDllistObject Nat)),
      Run dllistStep (fun _ _ => True) [] ops objects →
        (∀ o ∈ objects, o.Traversable) ∧ ∀ op, (dllistStep objects op).isSome := by
  intro h
  have hexec : ((exec dllistStep (fun _ _ => True) [] popBelowPointer).all fun objects =>
      (dllistStep objects (.call 0 .prev)).isNone) = true := by decide
  have hsome : (exec dllistStep (fun _ _ => True) [] popBelowPointer).isSome = true := by decide
  obtain ⟨objects, hobjects⟩ := Option.isSome_iff_exists.mp hsome
  rw [hobjects] at hexec
  have hmove := (h _ objects (Run.append_exec (Run.nil []) hobjects)).2 (.call 0 .prev)
  rw [Option.isNone_iff_eq_none.mp hexec] at hmove
  exact nomatch hmove

end Php53.Spl
