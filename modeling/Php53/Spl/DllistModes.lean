import Php53.Spl.DllistRuns

/-!
# DllistModes — the direction of SplStack and SplQueue

The classes SplStack and SplQueue freeze the direction of traversal by the bit
`SPL_DLLIST_IT_FIX`, which `setIteratorMode` does not keep.
-/

namespace Php53.Spl

open Reasoning

def ClassEntry.direction : ClassEntry → Option Bool
  | .splDoublyLinkedList => none
  | .splQueue => some false
  | .splStack => some true
  | .sub parent => parent.direction

namespace SplDllistObject

variable {V : Type} {flags : BitVec 32}

theorem lifo_eq (flags : BitVec 32) : lifo flags = flags.getLsbD 1 := by
  have htwo : splDllistItLifo = BitVec.twoPow 32 1 := by decide
  unfold lifo
  rw [htwo, BitVec.and_twoPow]
  cases flags.getLsbD 1 <;> decide

theorem sameDirection_iff (flags : BitVec 32) (value : BitVec 64) :
    (flags &&& splDllistItLifo).signExtend 64 = value &&& splDllistItLifo.signExtend 64 ↔
      flags.getLsbD 1 = value.getLsbD 1 := by
  have htwo : splDllistItLifo = BitVec.twoPow 32 1 := by decide
  have hext : (BitVec.twoPow 32 1).signExtend 64 = BitVec.twoPow 64 1 := by decide
  rw [htwo, hext, BitVec.and_twoPow, BitVec.and_twoPow]
  cases flags.getLsbD 1 <;> cases value.getLsbD 1 <;> decide

theorem lifo_masked (value : BitVec 64) :
    lifo ((value &&& splDllistItMask.signExtend 64).setWidth 32) = value.getLsbD 1 := by
  have hmask : (splDllistItMask.signExtend 64).getLsbD 1 = true := by decide
  rw [lifo_eq, BitVec.getLsbD_setWidth, BitVec.getLsbD_and, hmask]
  simp

theorem lifo_classFlags {ce : ClassEntry} {dir : Bool} (hce : ce.direction = some dir)
    (hflags : flags = 0 ∨ lifo flags = dir) :
    lifo (classFlags ce flags) = dir := by
  induction ce with
  | splDoublyLinkedList => exact nomatch hce
  | splQueue =>
    obtain rfl := Option.some.inj hce
    have hfix : splDllistItFix.getLsbD 1 = false := by decide
    rw [classFlags, lifo_eq, BitVec.getLsbD_or, hfix, Bool.or_false]
    rcases hflags with rfl | hflags
    · decide
    · rwa [← lifo_eq]
  | splStack =>
    obtain rfl := Option.some.inj hce
    have hbits : (splDllistItFix ||| splDllistItLifo).getLsbD 1 = true := by decide
    rw [classFlags, lifo_eq, BitVec.getLsbD_or, hbits, Bool.or_true]
  | sub parent ih => exact ih hce

theorem lifo_setIteratorMode (o : SplDllistObject V) (value : BitVec 64) :
    lifo (o.setIteratorMode value).flags =
      if o.flags &&& splDllistItFix ≠ 0 then lifo o.flags else value.getLsbD 1 := by
  unfold setIteratorMode
  have hsame := sameDirection_iff o.flags value
  by_cases hfix : o.flags &&& splDllistItFix ≠ 0
  · rw [if_pos hfix]
    by_cases hdir : o.flags.getLsbD 1 = value.getLsbD 1
    · rw [if_neg fun hn => hn.2 (hsame.mpr hdir)]
      show lifo ((value &&& _).setWidth 32) = _
      rw [lifo_masked, lifo_eq, hdir]
    · rw [if_pos ⟨hfix, fun he => hdir (hsame.mp he)⟩]
  · rw [if_neg hfix, if_neg fun hn => hfix hn.1]
    exact lifo_masked value

variable {o o' : SplDllistObject V}

theorem helperRewind_ce {k : Nat} (h : o.helperRewind k flags = some o') :
    o'.ce = o.ce ∧ o'.flags = o.flags := by
  unfold helperRewind at h
  split at h
  · obtain rfl := Option.some.inj h
    exact ⟨rfl, rfl⟩
  · obtain ⟨l, -, h⟩ := Option.bind_eq_some_iff.mp h
    obtain ⟨l', -, rfl⟩ := Option.map_eq_some_iff.mp h
    exact ⟨rfl, rfl⟩

theorem helperMoveForward_ce {k : Nat}
    (h : o.helperMoveForward k flags = some o') : o'.ce = o.ce ∧ o'.flags = o.flags := by
  unfold helperMoveForward at h
  split at h
  · obtain rfl := Option.some.inj h
    exact ⟨rfl, rfl⟩
  · split at h
    · obtain rfl := Option.some.inj h
      exact ⟨rfl, rfl⟩
    · split at h
      · obtain ⟨r, -, h⟩ := Option.bind_eq_some_iff.mp h
        obtain ⟨l, -, h⟩ := Option.bind_eq_some_iff.mp h
        obtain ⟨l', -, rfl⟩ := Option.map_eq_some_iff.mp h
        exact ⟨rfl, rfl⟩
      · exact nomatch h

theorem withLlist_ce {l : Option (SplPtrLlist V)} (h : l.map o.withLlist = some o') :
    o'.ce = o.ce ∧ o'.flags = o.flags := by
  obtain ⟨l, -, rfl⟩ := Option.map_eq_some_iff.mp h
  exact ⟨rfl, rfl⟩

theorem call_ce {c : DllistCall V} (h : o.call c = some o') :
    o'.ce = o.ce ∧ (o'.flags = o.flags ∨ ∃ value, c = .setIteratorMode value ∧
      o' = o.setIteratorMode value) := by
  have hkeep : o'.ce = o.ce ∧ o'.flags = o.flags → o'.ce = o.ce ∧ (o'.flags = o.flags ∨
      ∃ value, c = .setIteratorMode value ∧ o' = o.setIteratorMode value) :=
    fun hk => ⟨hk.1, Or.inl hk.2⟩
  cases c with
  | push v => exact hkeep (withLlist_ce h)
  | unshift v => exact hkeep (withLlist_ce h)
  | pop =>
    obtain ⟨r, hr, rfl⟩ := Option.map_eq_some_iff.mp h
    obtain ⟨p, -, rfl⟩ := Option.map_eq_some_iff.mp hr
    exact hkeep ⟨rfl, rfl⟩
  | shift =>
    obtain ⟨r, hr, rfl⟩ := Option.map_eq_some_iff.mp h
    obtain ⟨p, -, rfl⟩ := Option.map_eq_some_iff.mp hr
    exact hkeep ⟨rfl, rfl⟩
  | offsetSet index v =>
    cases index with
    | none => exact hkeep (withLlist_ce h)
    | some index =>
      obtain ⟨e, -, h⟩ := Option.bind_eq_some_iff.mp h
      split at h
      · split at h
        · obtain rfl := Option.some.inj h
          exact hkeep ⟨rfl, rfl⟩
        · exact nomatch h
      · obtain rfl := Option.some.inj h
        exact hkeep ⟨rfl, rfl⟩
  | offsetUnset index =>
    obtain ⟨e, -, h⟩ := Option.bind_eq_some_iff.mp h
    split at h
    · exact hkeep (withLlist_ce h)
    · obtain rfl := Option.some.inj h
      exact hkeep ⟨rfl, rfl⟩
  | setIteratorMode value =>
    obtain rfl := Option.some.inj h
    refine ⟨?_, Or.inr ⟨value, rfl, rfl⟩⟩
    unfold setIteratorMode
    split <;> rfl
  | rewind => exact hkeep (helperRewind_ce h)
  | next => exact hkeep (helperMoveForward_ce h)
  | prev => exact hkeep (helperMoveForward_ce h)
  | getIterator =>
    change o.getIterator = some o' at h
    unfold getIterator at h
    split at h
    · obtain rfl := Option.some.inj h
      exact hkeep ⟨rfl, rfl⟩
    · obtain ⟨l, -, rfl⟩ := Option.map_eq_some_iff.mp h
      exact hkeep ⟨rfl, rfl⟩
  | itRewind k => exact hkeep (helperRewind_ce h)
  | itMoveForward k => exact hkeep (helperMoveForward_ce h)
  | itDtor k =>
    change o.itDtor (k + 1) = some o' at h
    unfold itDtor at h
    split at h
    · obtain rfl := Option.some.inj h
      exact hkeep ⟨rfl, rfl⟩
    · obtain ⟨l, -, rfl⟩ := Option.map_eq_some_iff.mp h
      exact hkeep ⟨rfl, rfl⟩

def directed (o : SplDllistObject V) (dir : Bool) : List Nat :=
  if dir then o.llist.linked.reverse else o.llist.linked

/-- Offsets and traversals go through the list in the given direction. -/
structure Directed (o : SplDllistObject V) (dir : Bool) : Prop where
  lifo_eq : lifo o.flags = dir
  elementAt_eq : ∀ index : Int, o.elementAt index =
    some (if index < 0 then none else (o.directed dir)[index.toNat]?)
  rewind_eq : ∀ k, (o.traverse k).isSome →
    ∃ o', o.helperRewind k o.flags = some o' ∧ o'.pointer k = (o.directed dir).head?
  move_eq : ∀ k i old, o.pointer k = some old → (o.directed dir)[i]? = some old →
    o.movedTo k o.flags = (o.directed dir)[i + 1]?

theorem Counted.neighbours (h : o.Counted) {i e : Nat}
    (hi : o.llist.linked[i]? = some e) : o.llist.next e = o.llist.linked[i + 1]? ∧
      o.llist.prev e = if i = 0 then none else o.llist.linked[i - 1]? := by
  have hlt : i < o.llist.linked.length := (List.getElem?_eq_some_iff.mp hi).1
  have hsplit : o.llist.linked =
      o.llist.linked.take i ++ e :: o.llist.linked.drop (i + 1) := by
    rw [← List.getElem_eq_iff hlt |>.mpr hi, List.getElem_cons_drop, List.take_append_drop]
  have hchain := h.chain.linked
  rw [hsplit] at hchain
  constructor
  · rw [hchain.next_mid, Option.or_none, List.head?_drop]
  · rw [hchain.last_mid, Option.or_none]
    by_cases hz : i = 0
    · subst hz
      simp
    · rw [if_neg hz, List.getLast?_eq_getElem?, List.length_take, Nat.min_eq_left (by omega),
        List.getElem?_take_of_lt (by omega)]

theorem Counted.directed_of_lifo (h : o.Counted) {dir : Bool} (hdir : lifo o.flags = dir) :
    o.Directed dir := by
  subst hdir
  refine ⟨rfl, h.elementAt_eq, fun k hk => ?_, fun k i old hold hi => ?_⟩
  · obtain ⟨t, ht⟩ := Option.isSome_iff_exists.mp hk
    have hlt : k < o.traverses.length := (List.getElem?_eq_some_iff.mp (traverse_eq_some ht)).1
    obtain ⟨l, hl, hr, hhead, htail⟩ := h.leave ht
    have hnew : ∃ u : Traverse, u.pointer = (o.directed (lifo o.flags)).head? ∧
        u = if lifo o.flags then { pointer := l.tail, position := l.count - 1 }
          else { pointer := l.head, position := 0 } := by
      refine ⟨_, ?_, rfl⟩
      unfold directed
      split
      · rw [List.head?_reverse, htail, h.chain.tail_eq]
      · rw [hhead, h.chain.head_eq]
    obtain ⟨u, hu, heq⟩ := hnew
    obtain ⟨l', hadd, -⟩ := retarget (u := u) ht hr.after fun e he => by
      have hm := List.mem_of_head? (hu ▸ he)
      unfold directed at hm
      split at hm
      · exact List.mem_append_left _ (List.mem_reverse.mp hm)
      · exact List.mem_append_left _ hm
    refine ⟨{ o with llist := l', traverses := o.traverses.set k (some u) }, ?_, ?_⟩
    · unfold SplDllistObject.helperRewind
      simp only [ht, hl, Option.bind_some, ← heq, hadd]
      rfl
    · rw [← hu]
      simp [pointer, traverse, hlt]
  · have hmoved : o.movedTo k o.flags =
        if lifo o.flags then o.llist.prev old else o.llist.next old := by
      simp [movedTo, hold]
    rw [hmoved]
    unfold directed at hi ⊢
    by_cases hlifo : lifo o.flags = true
    · rw [if_pos hlifo] at hi ⊢
      rw [if_pos hlifo]
      have hlt : i < o.llist.linked.length := by
        rw [← List.length_reverse]
        exact (List.getElem?_eq_some_iff.mp hi).1
      rw [List.getElem?_reverse hlt] at hi
      rw [(h.neighbours hi).2]
      by_cases hz : o.llist.linked.length - 1 - i = 0
      · rw [if_pos hz, List.getElem?_eq_none]
        rw [List.length_reverse]
        omega
      · rw [if_neg hz, List.getElem?_reverse (by omega)]
        congr 1
    · rw [if_neg hlifo] at hi ⊢
      rw [if_neg hlifo]
      exact (h.neighbours hi).1

end SplDllistObject

variable {V : Type}

/-- An object that has lost the bit `SPL_DLLIST_IT_FIX` is not asked for the other direction. -/
def ModeOk (objects : List (SplDllistObject V)) : DllistOp V → Prop
  | .call i (.setIteratorMode value) => ∀ o ∈ objects[i]?.toList, ∀ dir ∈ o.ce.direction,
      o.flags &&& splDllistItFix ≠ 0 ∨ value.getLsbD 1 = dir
  | _ => True

def SplDllistObject.Frozen (o : SplDllistObject V) : Prop :=
  ∀ dir ∈ o.ce.direction, SplDllistObject.lifo o.flags = dir

theorem dllistStep_frozen {objects objects' : List (SplDllistObject V)} {op : DllistOp V}
    (h : ∀ o ∈ objects, o.Frozen) (hok : ModeOk objects op)
    (hstep : dllistStep objects op = some objects') : ∀ o ∈ objects', o.Frozen := by
  cases op with
  | new ce =>
    obtain rfl := Option.some.inj hstep
    intro o ho
    rcases List.mem_append.mp ho with hm | hm
    · exact h o hm
    · obtain rfl := List.mem_singleton.mp hm
      exact fun dir hdir => SplDllistObject.lifo_classFlags hdir (Or.inl rfl)
  | clone i =>
    cases hi : objects[i]? with
    | none =>
      obtain rfl : objects = objects' := by simpa [dllistStep, hi] using hstep
      exact h
    | some o =>
      obtain ⟨o', ho', rfl⟩ :
          ∃ o', o.splDllistObjectClone = some o' ∧ objects ++ [o'] = objects' := by
        simpa [dllistStep, hi] using hstep
      obtain ⟨l, -, ho'⟩ := Option.bind_eq_some_iff.mp ho'
      obtain ⟨l', -, rfl⟩ := Option.map_eq_some_iff.mp ho'
      intro x hx
      rcases List.mem_append.mp hx with hm | hm
      · exact h x hm
      · obtain rfl := List.mem_singleton.mp hm
        exact fun dir hdir => SplDllistObject.lifo_classFlags hdir
          (Or.inr (h o (List.mem_of_getElem? hi) dir hdir))
  | call i c =>
    cases hi : objects[i]? with
    | none =>
      obtain rfl : objects = objects' := by simpa [dllistStep, hi] using hstep
      exact h
    | some o =>
      have ho := h o (List.mem_of_getElem? hi)
      obtain ⟨o', ho', rfl⟩ : ∃ o', o.call c = some o' ∧ objects.set i o' = objects' := by
        simpa [dllistStep, hi] using hstep
      intro x hx
      rcases List.mem_or_eq_of_mem_set hx with hm | rfl
      · exact h x hm
      intro dir hdir
      obtain ⟨hce, hflags | ⟨value, rfl, rfl⟩⟩ := SplDllistObject.call_ce ho'
      · rw [hflags]
        exact ho dir (hce ▸ hdir)
      · rw [SplDllistObject.lifo_setIteratorMode]
        rw [hce] at hdir
        split
        · exact ho dir hdir
        · rename_i hfix
          exact (hok o (by simp [hi]) dir hdir).resolve_left hfix

/-- In a run in which no SplStack or SplQueue that has lost its FIX bit is asked for the other
    direction, each of them counts and traverses in the direction of its class. -/
theorem frozen_direction {objects : List (SplDllistObject V)} {ops : List (DllistOp V)}
    (hrun : Run dllistStep ModeOk [] ops objects) :
    ∀ o ∈ objects, ∀ dir ∈ o.ce.direction, o.Directed dir := by
  have hfrozen : ∀ o ∈ objects, o.Frozen :=
    hrun.invariant (I := fun s => ∀ o ∈ s, o.Frozen) (by simp)
      fun _ _ _ h hok hstep => dllistStep_frozen h hok hstep
  exact fun o ho dir hdir => (dllist_counted hrun o ho).directed_of_lifo (hfrozen o ho dir hdir)

instance (objects : List (SplDllistObject V)) (op : DllistOp V) : Decidable (ModeOk objects op) := by
  unfold ModeOk
  split <;> infer_instance

def stackModes : List (DllistOp Nat) :=
  [.new (.sub .splStack), .call 0 (.push 10), .call 0 (.push 20), .call 0 (.setIteratorMode 3),
    .call 0 (.setIteratorMode 2), .clone 0, .call 1 (.setIteratorMode 0)]

theorem frozen_direction_stack :
    ∃ objects : List (SplDllistObject Nat), exec dllistStep ModeOk [] stackModes = some objects ∧
      ∀ o ∈ objects, ∀ dir ∈ o.ce.direction, o.Directed dir := by
  have hexec : (exec dllistStep ModeOk [] stackModes).isSome = true := by decide
  obtain ⟨objects, hobjects⟩ := Option.isSome_iff_exists.mp hexec
  exact ⟨objects, hobjects, frozen_direction (Run.append_exec (Run.nil []) hobjects)⟩

/-- The first call of `setIteratorMode` clears the bit that guards against the second one. -/
theorem direction_not_frozen :
    ¬ ∀ (ops : List (DllistOp Nat)) (objects : List (SplDllistObject Nat)),
      Run dllistStep (fun _ _ => True) [] ops objects → ∀ o ∈ objects, o.Frozen := by
  intro h
  have hexec : ((exec dllistStep (fun _ _ => True) [] [.new .splStack,
      .call 0 (.setIteratorMode 2), .call 0 (.setIteratorMode 0)]).map fun objects =>
        objects.map fun o : SplDllistObject Nat => (o.ce, SplDllistObject.lifo o.flags)) =
      some [(.splStack, false)] := by decide
  obtain ⟨objects, hobjects, hflags⟩ := Option.map_eq_some_iff.mp hexec
  have hfrozen := h _ objects (Run.append_exec (Run.nil []) hobjects)
  obtain ⟨o, rfl, ho⟩ := List.map_eq_singleton_iff.mp hflags
  obtain ⟨hce, hlifo⟩ := Prod.mk.inj ho
  have hdir := hfrozen o (by simp) true (by rw [hce]; rfl)
  rw [hlifo] at hdir
  exact nomatch hdir

end Php53.Spl
