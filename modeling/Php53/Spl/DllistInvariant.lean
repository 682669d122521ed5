import Mathlib.Data.List.Perm.Basic
import Mathlib.Data.List.Count
import Php53.Reasoning.LinkedList
import Php53.Spl.Dllist

/-!
# DllistInvariant — which elements of a list are alive

`Owned l s refs` says that `l` links the elements `s` and that its elements are held by the list
and by the pointers `refs`, every element by as many as its `rc` says.
-/

namespace Php53.Spl

open Reasoning List

namespace SplPtrLlist

variable {V : Type}

structure Owned (l : SplPtrLlist V) (s refs : List Nat) : Prop where
  chain : DList l.next l.prev l.head l.tail s
  count_eq : l.count = s.length
  stored : ∀ e ∈ s, (l.data e).isSome
  rc_eq : ∀ e, l.rc e = (s ++ refs).count e
  live_iff : ∀ e, l.live e = true ↔ e ∈ s ++ refs
  fresh_lt : ∀ e ∈ s ++ refs, e < l.fresh
  no_loop : ∀ e, l.prev e ≠ some e ∧ l.next e ≠ some e

variable {l : SplPtrLlist V} {s refs : List Nat} {e : Nat} {p : Option Nat}

theorem owned_init : Owned (splPtrLlistInit : SplPtrLlist V) [] [] :=
  ⟨DList.nil _ _, rfl, by simp, by simp [splPtrLlistInit], by simp [splPtrLlistInit], by simp,
    by simp [splPtrLlistInit]⟩

theorem follow_eq {next : Nat → Option Nat} (h : Walk next p s) :
    follow next s.length p = s := by
  induction s generalizing p with
  | nil => rfl
  | cons x s ih =>
    obtain ⟨rfl, h⟩ := h
    rw [length_cons, follow, ih h]

section

variable (h : Owned l s refs)

include h

theorem Owned.linked_eq : l.linked = s := by
  unfold linked
  rw [h.count_eq, h.chain.head_eq]
  exact follow_eq h.chain.linked.walk

theorem Owned.perm {refs' : List Nat} (hp : refs.Perm refs') :
    Owned l s refs' where
  chain := h.chain
  count_eq := h.count_eq
  stored := h.stored
  rc_eq e := by rw [h.rc_eq, (hp.append_left s).count_eq]
  live_iff e := by rw [h.live_iff, (hp.append_left s).mem_iff]
  fresh_lt e he := h.fresh_lt e ((hp.append_left s).mem_iff.mpr he)
  no_loop := h.no_loop

theorem Owned.live_of_mem (he : e ∈ s) : l.live e = true :=
  (h.live_iff e).mpr (mem_append_left _ he)

theorem Owned.fresh_not_mem : l.fresh ∉ s ++ refs :=
  fun hm => Nat.lt_irrefl _ (h.fresh_lt _ hm)

theorem Owned.prev_mem {p : Nat} (hp : p ∈ s) (he : l.prev p = some e) :
    e ∈ s :=
  h.chain.last_mem hp he

theorem Owned.next_mem {p : Nat} (hp : p ∈ s) (he : l.next p = some e) :
    e ∈ s :=
  (h.chain.next_mem hp he).1

theorem Owned.head_mem (he : l.head = some e) : e ∈ s :=
  mem_of_head? (h.chain.head_eq ▸ he)

theorem Owned.tail_mem (he : l.tail = some e) : e ∈ s :=
  mem_of_getLast? (h.chain.tail_eq ▸ he)

end

def dropRef (l : SplPtrLlist V) (e : Nat) : SplPtrLlist V :=
  { l with
    rc := Function.update l.rc e (l.rc e - 1)
    live := Function.update l.live e (decide (l.rc e - 1 ≠ 0)) }

def takeRef (l : SplPtrLlist V) (e : Nat) : SplPtrLlist V :=
  { l with rc := Function.update l.rc e (l.rc e + 1) }

theorem delref_eq (h : l.live e = true) : l.delref e = some (l.dropRef e) := by
  unfold delref dropRef
  rw [if_pos h]
  split
  · rename_i hz
    simp [hz]
  · rename_i hz
    simp [hz, ← h]

theorem checkAddref_eq (h : l.live e = true) : l.checkAddref (some e) = some (l.takeRef e) :=
  if_pos h

theorem Owned.dropRef (h : Owned l s (e :: refs)) : Owned (l.dropRef e) s refs := by
  have hrc : ∀ x, (l.dropRef e).rc x = (s ++ refs).count x := fun x => by
    have hx := h.rc_eq x
    rw [count_append, count_cons] at hx
    by_cases hxe : x = e
    · subst hxe
      simp only [SplPtrLlist.dropRef, Function.update_self, count_append]
      simp only [beq_self_eq_true, if_true] at hx
      omega
    · have hex : (e == x) = false := by simp [Ne.symm hxe]
      simp only [SplPtrLlist.dropRef, Function.update_of_ne hxe, count_append]
      rw [hex] at hx
      simpa using hx
  have hsub : ∀ x, x ∈ s ++ refs → x ∈ s ++ e :: refs := fun x hx => by
    rcases mem_append.mp hx with hx | hx <;> simp [hx]
  refine ⟨h.chain, h.count_eq, h.stored, hrc, fun x => ?_, fun x hx => h.fresh_lt x (hsub x hx),
    h.no_loop⟩
  rw [← count_pos_iff]
  have hx := hrc x
  by_cases hxe : x = e
  · subst hxe
    simp only [SplPtrLlist.dropRef, Function.update_self] at hx ⊢
    rw [hx, decide_eq_true_iff]
    omega
  · simp only [SplPtrLlist.dropRef, Function.update_of_ne hxe]
    rw [h.live_iff, count_pos_iff]
    simp [hxe]

theorem Owned.takeRef (h : Owned l s refs) (he : e ∈ s ++ refs) :
    Owned (l.takeRef e) s (e :: refs) := by
  have hmem : ∀ x, x ∈ s ++ e :: refs ↔ x ∈ s ++ refs := fun x => by
    constructor
    · intro hx
      rcases mem_append.mp hx with hx | hx
      · simp [hx]
      · rcases mem_cons.mp hx with rfl | hx
        · exact he
        · simp [hx]
    · intro hx
      rcases mem_append.mp hx with hx | hx <;> simp [hx]
  refine ⟨h.chain, h.count_eq, h.stored, fun x => ?_, fun x => (h.live_iff x).trans (hmem x).symm,
    fun x hx => h.fresh_lt x ((hmem x).mp hx), h.no_loop⟩
  rw [count_append, count_cons]
  have hx := h.rc_eq x
  rw [count_append] at hx
  by_cases hxe : x = e
  · subst hxe
    simp only [SplPtrLlist.takeRef, Function.update_self, beq_self_eq_true, if_true]
    omega
  · have hex : (e == x) = false := by simp [Ne.symm hxe]
    simp only [SplPtrLlist.takeRef, Function.update_of_ne hxe]
    rw [hex]
    simpa using hx

theorem Owned.checkAddref (h : Owned l s refs) (hp : ∀ e ∈ p, e ∈ s ++ refs) :
    ∃ l', l.checkAddref p = some l' ∧ Owned l' s (p.toList ++ refs) ∧ l'.prev = l.prev ∧
      l'.next = l.next ∧ l'.head = l.head := by
  cases p with
  | none => exact ⟨l, rfl, h, rfl, rfl, rfl⟩
  | some e =>
    have he : e ∈ s ++ refs := hp e rfl
    exact ⟨l.takeRef e, checkAddref_eq ((h.live_iff e).mpr he), h.takeRef he, rfl, rfl,
      rfl⟩

theorem Owned.checkDelref (h : Owned l s (p.toList ++ refs)) :
    ∃ l', l.checkDelref p = some l' ∧ Owned l' s refs ∧ l'.prev = l.prev ∧ l'.next = l.next ∧
      l'.head = l.head ∧ l'.tail = l.tail := by
  cases p with
  | none => exact ⟨l, rfl, h, rfl, rfl, rfl, rfl⟩
  | some e =>
    have hlive : l.live e = true := (h.live_iff e).mpr (by simp)
    exact ⟨l.dropRef e, delref_eq hlive, h.dropRef, rfl, rfl, rfl, rfl⟩

/-- The list with the new element `fresh` at its end. -/
def pushed (l : SplPtrLlist V) (v : V) : SplPtrLlist V :=
  { l.alloc v l.tail none with
    next := updateAt (Function.update l.next l.fresh none) l.tail (some l.fresh)
    head := l.head.or (some l.fresh)
    tail := some l.fresh
    count := l.count + 1 }

def unshifted (l : SplPtrLlist V) (v : V) : SplPtrLlist V :=
  { l.alloc v none l.head with
    prev := updateAt (Function.update l.prev l.fresh none) l.head (some l.fresh)
    head := some l.fresh
    tail := l.tail.or (some l.fresh)
    count := l.count + 1 }

theorem Owned.push_eq (h : Owned l s refs) (v : V) : l.push v = some (l.pushed v) := by
  unfold push pushed
  cases ht : l.tail with
  | none =>
    have hs : s = [] := by
      have := h.chain.tail_eq
      rw [ht] at this
      exact List.getLast?_eq_none_iff.mp this.symm
    have hh : l.head = none := by rw [h.chain.head_eq, hs]; rfl
    simp [alloc, ht, hh]
  | some t =>
    have htm := h.tail_mem ht
    have hne : t ≠ l.fresh := fun he => h.fresh_not_mem (he ▸ mem_append_left _ htm)
    have hlive : (l.alloc v (some t) none).live t = true := by
      simp [alloc, Function.update_of_ne hne, h.live_of_mem htm]
    have hh : l.head ≠ none := by
      rw [h.chain.head_eq]
      intro he
      rw [List.head?_eq_none_iff.mp he] at htm
      cases htm
    obtain ⟨x, hx⟩ := Option.ne_none_iff_exists'.mp hh
    simp only [alloc] at hlive
    simp [alloc, setNext, ht, hx, hlive]

theorem Owned.unshift_eq (h : Owned l s refs) (v : V) : l.unshift v = some (l.unshifted v) := by
  unfold unshift unshifted
  cases hh : l.head with
  | none =>
    have hs : s = [] := by
      have := h.chain.head_eq
      rw [hh] at this
      exact List.head?_eq_none_iff.mp this.symm
    have ht : l.tail = none := by rw [h.chain.tail_eq, hs]; rfl
    simp [alloc, hh, ht]
  | some t =>
    have htm := h.head_mem hh
    have hne : t ≠ l.fresh := fun he => h.fresh_not_mem (he ▸ mem_append_left _ htm)
    have hlive : (l.alloc v none (some t)).live t = true := by
      simp [alloc, Function.update_of_ne hne, h.live_of_mem htm]
    have ht : l.tail ≠ none := by
      rw [h.chain.tail_eq]
      intro he
      rw [List.getLast?_eq_none_iff.mp he] at htm
      cases htm
    obtain ⟨x, hx⟩ := Option.ne_none_iff_exists'.mp ht
    simp only [alloc] at hlive
    simp [alloc, setPrev, hh, hx, hlive]

theorem Owned.link {l' : SplPtrLlist V} {s' : List Nat} {v : V} (h : Owned l s refs)
    (hs : s'.Perm (l.fresh :: s)) (hchain : DList l'.next l'.prev l'.head l'.tail s')
    (hcount : l'.count = l.count + 1) (hrc : l'.rc = Function.update l.rc l.fresh 1)
    (hdata : l'.data = Function.update l.data l.fresh (some v))
    (hlive : l'.live = Function.update l.live l.fresh true) (hfresh : l'.fresh = l.fresh + 1)
    (hloop : ∀ e, l'.prev e ≠ some e ∧ l'.next e ≠ some e) : Owned l' s' refs := by
  have hp : (s' ++ refs).Perm (l.fresh :: (s ++ refs)) := hs.append_right refs
  have hmem : ∀ x, x ∈ s' ++ refs ↔ x = l.fresh ∨ x ∈ s ++ refs := fun x => by
    rw [hp.mem_iff, mem_cons]
  have hz : (s ++ refs).count l.fresh = 0 := count_eq_zero.mpr h.fresh_not_mem
  refine ⟨hchain, ?_, fun x hx => ?_, fun x => ?_, fun x => ?_, fun x hx => ?_, hloop⟩
  · rw [hcount, h.count_eq, hs.length_eq, length_cons]
  · rw [hdata]
    by_cases hxf : x = l.fresh
    · subst hxf
      simp
    · rw [Function.update_of_ne hxf]
      rcases mem_cons.mp (hs.mem_iff.mp hx) with hx | hx
      · exact (hxf hx).elim
      · exact h.stored x hx
  · rw [hrc, hp.count_eq]
    by_cases hxf : x = l.fresh
    · subst hxf
      simp [hz]
    · have hfx : (l.fresh == x) = false := by simp [Ne.symm hxf]
      rw [Function.update_of_ne hxf, h.rc_eq, count_cons, hfx]
      simp
  · rw [hlive, hmem]
    by_cases hxf : x = l.fresh
    · subst hxf
      simp
    · rw [Function.update_of_ne hxf, h.live_iff]
      simp [hxf]
  · rw [hfresh]
    rcases (hmem x).mp hx with rfl | hx
    · omega
    · have := h.fresh_lt x hx
      omega

theorem Owned.pushed (h : Owned l s refs) (v : V) : Owned (l.pushed v) (s ++ [l.fresh]) refs := by
  have hf : l.fresh ∉ s := fun hm => h.fresh_not_mem (mem_append_left _ hm)
  refine h.link (perm_append_singleton _ _) (h.chain.push_back hf) rfl rfl rfl rfl rfl
    fun e => ⟨?_, ?_⟩
  · exact updateAt_ne_self (o := some l.fresh)
      (fun he ht => hf (Option.some.inj he ▸ h.tail_mem ht)) (h.no_loop e).1
  · exact updateAt_ne_self (fun ht he => hf (Option.some.inj he ▸ h.tail_mem ht))
      (updateAt_ne_self (o := some l.fresh) (fun _ => (Option.some_ne_none e).symm) (h.no_loop e).2)

theorem Owned.unshifted (h : Owned l s refs) (v : V) :
    Owned (l.unshifted v) (l.fresh :: s) refs := by
  have hf : l.fresh ∉ s := fun hm => h.fresh_not_mem (mem_append_left _ hm)
  refine h.link (List.Perm.refl _) (h.chain.push_front hf) rfl rfl rfl rfl rfl
    fun e => ⟨?_, ?_⟩
  · exact updateAt_ne_self (fun ht he => hf (Option.some.inj he ▸ h.head_mem ht))
      (updateAt_ne_self (o := some l.fresh) (fun _ => (Option.some_ne_none e).symm) (h.no_loop e).1)
  · exact updateAt_ne_self (o := some l.fresh)
      (fun he ht => hf (Option.some.inj he ▸ h.head_mem ht)) (h.no_loop e).2

/-- The list without `e`, which keeps its own links and its reference. -/
def removed (l : SplPtrLlist V) (e : Nat) : SplPtrLlist V :=
  { l with
    next := updateAt l.next (l.prev e) (l.next e)
    prev := updateAt l.prev (l.next e) (l.prev e)
    head := if l.prev e = none then l.next e else l.head
    tail := if l.next e = none then l.prev e else l.tail
    count := l.count - 1
    data := Function.update l.data e none }

section

variable (h : Owned l s refs)

include h

theorem Owned.removed (he : e ∈ s) :
    Owned (l.removed e) (s.erase e) (e :: refs) := by
  have hp : (s ++ refs).Perm (s.erase e ++ e :: refs) :=
    ((perm_cons_erase he).append_right refs).trans perm_middle.symm
  refine ⟨h.chain.unlink he, ?_, fun x hx => ?_, fun x => ?_, fun x => ?_, fun x hx => ?_,
    fun x => ⟨?_, ?_⟩⟩
  · show l.count - 1 = _
    rw [h.count_eq, length_erase_of_mem he]
  · have hx' := (h.chain.nodup.mem_erase_iff).mp hx
    show (Function.update l.data e none x).isSome = true
    rw [Function.update_of_ne hx'.1]
    exact h.stored x hx'.2
  · rw [← hp.count_eq]
    exact h.rc_eq x
  · rw [← hp.mem_iff]
    exact h.live_iff x
  · exact h.fresh_lt x (hp.mem_iff.mpr hx)
  · -- the predecessor of `e` is no successor of `e`
    exact updateAt_ne_self (fun hn hpx => h.chain.prev_ne_next he hpx hn) (h.no_loop x).1
  · exact updateAt_ne_self (h.chain.prev_ne_next he) (h.no_loop x).2

theorem Owned.pop_eq (he : l.tail = some e) :
    l.pop = ((l.removed e).delref e).map fun l' => (l.data e, l') := by
  have hes := h.tail_mem he
  have hn : l.next e = none := (h.chain.tail_iff hes).mp he
  unfold pop SplPtrLlist.removed
  rw [he]
  simp only [h.live_of_mem hes, if_true, hn, updateAt_none]
  cases hp : l.prev e with
  | none => simp [hp]
  | some p =>
    have hpl := h.live_of_mem (h.prev_mem hes hp)
    simp [setNext, hp, hpl]

theorem Owned.shift_eq (he : l.head = some e) :
    l.shift = ((l.removed e).delref e).map fun l' => (l.data e, l') := by
  have hes := h.head_mem he
  have hp : l.prev e = none := (h.chain.head_iff hes).mp he
  unfold shift SplPtrLlist.removed
  rw [he]
  simp only [h.live_of_mem hes, if_true, hp, updateAt_none]
  cases hn : l.next e with
  | none => simp [hn]
  | some n =>
    have hnl := h.live_of_mem (h.next_mem hes hn)
    simp [setPrev, hn, hnl]

theorem Owned.unset_eq (hes : e ∈ s) :
    l.unset e = (l.removed e).delref e := by
  have hloop := h.no_loop e
  have hhead : (some e = l.head) = (l.prev e = none) :=
    propext (eq_comm.trans (h.chain.head_iff hes))
  have htail : (some e = l.tail) = (l.next e = none) :=
    propext (eq_comm.trans (h.chain.tail_iff hes))
  unfold unset SplPtrLlist.removed
  simp only [h.live_of_mem hes, if_true]
  cases hp : l.prev e with
  | none =>
    cases hn : l.next e with
    | none => simp [hp, hn, hhead, htail]
    | some n =>
      have hnl := h.live_of_mem (h.next_mem hes hn)
      simp [setPrev, hp, hn, hnl, hhead, htail]
  | some p =>
    have hpl := h.live_of_mem (h.prev_mem hes hp)
    have hpe : p ≠ e := fun hpe => hloop.1 (hpe ▸ hp)
    cases hn : l.next e with
    | none =>
      simp [setNext, hp, hn, hpl, hhead, htail, Function.update_of_ne (Ne.symm hpe)]
    | some n =>
      have hnl := h.live_of_mem (h.next_mem hes hn)
      simp [setNext, setPrev, hp, hn, hpl, hnl, hhead, htail,
        Function.update_of_ne (Ne.symm hpe)]

theorem Owned.offsetLoop_eq (backward : Bool) {t : List Nat}
    (hw : Walk (fun e => if backward then l.prev e else l.next e) p t) (ht : ∀ x ∈ t, x ∈ s)
    (n : Nat) : l.offsetLoop backward n p = some t[n]? := by
  induction n generalizing p t with
  | zero =>
    cases t with
    | nil => rw [show p = none from hw]; rfl
    | cons x t => rw [hw.1]; rfl
  | succ n ih =>
    cases t with
    | nil => rw [show p = none from hw]; rfl
    | cons x t =>
      obtain ⟨rfl, hw⟩ := hw
      rw [offsetLoop, if_pos (h.live_of_mem (ht x (by simp)))]
      exact ih hw fun y hy => ht y (by simp [hy])

theorem Owned.offset_eq (i : Int) (backward : Bool) :
    l.offset i backward = some (if backward then s.reverse else s)[i.toNat]? := by
  unfold offset
  cases backward with
  | true =>
    refine h.offsetLoop_eq true ?_ (fun x hx => mem_reverse.mp hx) _
    rw [if_pos rfl, h.chain.tail_eq]
    exact h.chain.linked.walk_reverse
  | false =>
    refine h.offsetLoop_eq false ?_ (fun x hx => hx) _
    rw [if_neg Bool.false_ne_true, h.chain.head_eq]
    exact h.chain.linked.walk

end

theorem copyLoop_owned {source dest : SplPtrLlist V} {u t : List Nat} (hw : Walk source.next p t)
    (hlive : ∀ x ∈ t, source.live x = true) (hstored : ∀ x ∈ t, (source.data x).isSome)
    (hdest : Owned dest u []) :
    ∃ dest' u', source.copyLoop t.length p dest = some dest' ∧ Owned dest' u' [] := by
  induction t generalizing p dest u with
  | nil =>
    rw [show p = none from hw]
    exact ⟨dest, u, by simp [copyLoop], hdest⟩
  | cons x t ih =>
    obtain ⟨rfl, hw⟩ := hw
    obtain ⟨v, hv⟩ := Option.isSome_iff_exists.mp (hstored x (by simp))
    obtain ⟨dest', u', hcopy, hdest'⟩ := ih hw (fun y hy => hlive y (by simp [hy]))
      (fun y hy => hstored y (by simp [hy])) (hdest.pushed v)
    refine ⟨dest', u', ?_, hdest'⟩
    rw [length_cons, copyLoop, if_pos (hlive x (by simp)), hv]
    simp only [hdest.push_eq v, Option.bind_some]
    exact hcopy

theorem Owned.copy (h : Owned l s refs) : ∃ l' s', l.copy = some l' ∧ Owned l' s' [] := by
  unfold SplPtrLlist.copy
  rw [h.count_eq, h.chain.head_eq]
  exact copyLoop_owned h.chain.linked.walk (fun x hx => h.live_of_mem hx) h.stored owned_init

/-- The links of `p` do not lead to a freed element. -/
def Anchored (l : SplPtrLlist V) (p : Nat) : Prop :=
  ∀ n, l.prev p = some n ∨ l.next p = some n → l.live n = true

theorem Owned.anchored_of_mem (h : Owned l s refs) {p : Nat} (hp : p ∈ s) : l.Anchored p := by
  rintro n (hn | hn)
  · exact h.live_of_mem (h.prev_mem hp hn)
  · exact h.live_of_mem (h.next_mem hp hn)

/-- `p` does not stand for `q`: neither is `p` the element `q`, nor, where `p` has been removed,
    does a link of `p` lead to `q`. -/
def ClearOf (l : SplPtrLlist V) (p q : Nat) : Prop :=
  p ≠ q ∧ (p ∈ l.linked ∨ (l.prev p ≠ some q ∧ l.next p ≠ some q))

/-- The references `given` are given up, and of the elements of the list at most one is removed. -/
structure Released (l l' : SplPtrLlist V) (s s' refs refs' given : List Nat) : Prop where
  before : Owned l s refs
  after : Owned l' s' refs'
  perm : (s ++ refs).Perm (given ++ (s' ++ refs'))
  frame : ∀ p, p ∉ s' → l'.prev p = l.prev p ∧ l'.next p = l.next p
  one : ∀ p ∈ s, p ∉ s' → ∀ n ∈ s, n ≠ p → n ∈ s'

variable {l' : SplPtrLlist V} {s' refs' given : List Nat}

theorem Released.live (h : Released l l' s s' refs refs' given) {n : Nat}
    (hn : l.live n = true) (hkept : ∀ q ∈ given, l.rc q = given.count q → q ≠ n) :
    n ∈ s' ++ refs' := by
  by_contra hnot
  have hcount : (s ++ refs).count n = given.count n := by
    rw [h.perm.count_eq, count_append, count_eq_zero.mpr hnot, Nat.add_zero]
  have hpos : 0 < (s ++ refs).count n := count_pos_iff.mpr ((h.before.live_iff n).mp hn)
  have hgiven : n ∈ given := count_pos_iff.mp (hcount ▸ hpos)
  refine hkept n hgiven ?_ rfl
  rw [h.before.rc_eq, hcount]

theorem Released.anchored (h : Released l l' s s' refs refs' given) {p : Nat} (hp : l.Anchored p)
    (hclear : ∀ q ∈ given, l.rc q = given.count q → l.ClearOf p q) : l'.Anchored p := by
  by_cases hps' : p ∈ s'
  · exact h.after.anchored_of_mem hps'
  intro n hn
  obtain ⟨hprev, hnext⟩ := h.frame p hps'
  rw [hprev, hnext] at hn
  rw [h.after.live_iff]
  by_cases hps : p ∈ s
  · -- removed by this step: its neighbours stay in the list
    have hne : n ≠ p := by
      rintro rfl
      exact hn.elim (h.before.no_loop n).1 (h.before.no_loop n).2
    have hns : n ∈ s := hn.elim (h.before.prev_mem hps) (h.before.next_mem hps)
    exact mem_append_left _ (h.one p hps hps' n hns hne)
  · refine h.live (hp n hn) fun q hq hlast hqn => ?_
    subst hqn
    obtain ⟨-, hmem | hlinks⟩ := hclear q hq hlast
    · exact hps (h.before.linked_eq ▸ hmem)
    · exact hn.elim hlinks.1 hlinks.2

theorem Released.refl (h : Owned l s refs) : Released l l s s refs refs [] :=
  ⟨h, h, List.Perm.refl _, fun _ _ => ⟨rfl, rfl⟩, fun _ hp hnp => (hnp hp).elim⟩

theorem Released.removed (h : Owned l s refs) (he : e ∈ s) :
    Released l ((l.removed e).dropRef e) s (s.erase e) refs refs [e] := by
  refine ⟨h, (h.removed he).dropRef, (perm_cons_erase he).append_right refs,
    fun p hp => ⟨?_, ?_⟩, fun p hp hpe n hn hne => ?_⟩
  · refine updateAt_of_ne _ _ _ fun hnp => hp ?_
    refine (h.chain.nodup.mem_erase_iff).mpr ⟨fun hpe => ?_, h.next_mem he hnp⟩
    exact (h.no_loop e).2 (hpe ▸ hnp)
  · refine updateAt_of_ne _ _ _ fun hnp => hp ?_
    refine (h.chain.nodup.mem_erase_iff).mpr ⟨fun hpe => ?_, h.prev_mem he hnp⟩
    exact (h.no_loop e).1 (hpe ▸ hnp)
  · rw [h.chain.nodup.mem_erase_iff] at hpe ⊢
    refine ⟨fun hne' => hpe ⟨fun hpe' => hne (hne'.trans hpe'.symm), hp⟩, hn⟩

theorem Released.dropRef (h : Released l l' s s' refs (e :: refs') given) :
    Released l (l'.dropRef e) s s' refs refs' (given ++ [e]) := by
  refine ⟨h.before, h.after.dropRef, h.perm.trans ?_, h.frame, h.one⟩
  rw [append_assoc]
  exact perm_middle.append_left given

end SplPtrLlist

end Php53.Spl
