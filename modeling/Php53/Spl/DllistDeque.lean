import Php53.Reasoning.Calls
import Php53.Spl.DllistInvariant

/-!
# DllistDeque — SplDoublyLinkedList as a sequence

A list object without iterators behaves as the sequence of its values: the calls at the ends and the
calls with an index return and leave what the sequence says.
-/

namespace Php53.Spl

open Reasoning List

inductive DequeCall (V : Type) where
  | push (v : V)
  | pop
  | unshift (v : V)
  | shift
  | offsetGet (index : Int)
  | offsetSet (index : Option Int) (v : V)  -- no index for `$obj[] = ...`
  | offsetUnset (index : Int)

inductive DequeReply (V : Type) where
  | done
  | value (v : V)
  | exception
  deriving DecidableEq, Repr

variable {V : Type}

def DequeReply.ofOption : Option V → DequeReply V
  | some v => .value v
  | none => .exception

structure Deque (V : Type) where
  values : List V
  lifo : Bool

namespace Deque

def position (q : Deque V) (index : Int) : Option Nat :=
  if 0 ≤ index ∧ index < q.values.length then
    some (if q.lifo then q.values.length - 1 - index.toNat else index.toNat)
  else none

def call (q : Deque V) : DequeCall V → DequeReply V × Deque V
  | .push v => (.done, { q with values := q.values ++ [v] })
  | .pop => (.ofOption q.values.getLast?, { q with values := q.values.dropLast })
  | .unshift v => (.done, { q with values := v :: q.values })
  | .shift => (.ofOption q.values.head?, { q with values := q.values.tail })
  | .offsetGet index => (.ofOption ((q.position index).bind fun k => q.values[k]?), q)
  | .offsetSet none v => (.done, { q with values := q.values ++ [v] })
  | .offsetSet (some index) v =>
    match q.position index with
    | some k => (.done, { q with values := q.values.set k v })
    | none => (.exception, q)
  | .offsetUnset index =>
    match q.position index with
    | some k => (.done, { q with values := q.values.eraseIdx k })
    | none => (.exception, q)

theorem position_lt {q : Deque V} {index : Int} {k : Nat} (h : q.position index = some k) :
    k < q.values.length := by
  unfold position at h
  split at h
  · obtain rfl := Option.some.inj h
    split <;> omega
  · exact nomatch h

end Deque

/-- `offsetSet` and `offsetUnset` throw where they find no element. -/
def SplDllistObject.reply (o : SplDllistObject V) :
    DequeCall V → Option (DequeReply V × SplDllistObject V)
  | .push v => (o.push v).map fun o' => (.done, o')
  | .pop => o.pop.map fun (v, o') => (.ofOption v, o')
  | .unshift v => (o.unshift v).map fun o' => (.done, o')
  | .shift => o.shift.map fun (v, o') => (.ofOption v, o')
  | .offsetGet index => (o.offsetGet index).map fun v => (.ofOption v, o)
  | .offsetSet none v => (o.offsetSet none v).map fun o' => (.done, o')
  | .offsetSet (some index) v =>
    (o.elementAt index).bind fun element => (o.offsetSet (some index) v).map fun o' =>
      (if element.isSome then .done else .exception, o')
  | .offsetUnset index =>
    (o.elementAt index).bind fun element => (o.offsetUnset index).map fun o' =>
      (if element.isSome then .done else .exception, o')

namespace SplPtrLlist

variable {l : SplPtrLlist V} {s refs : List Nat} {e k : Nat} {xs : List V}

/-- The elements `s` of the list store the values `xs`. -/
structure Stores (l : SplPtrLlist V) (s refs : List Nat) (xs : List V) : Prop where
  owned : l.Owned s refs
  data_eq : s.map l.data = xs.map some

theorem Stores.length_eq (h : l.Stores s refs xs) : s.length = xs.length := by
  have hlen := congrArg List.length h.data_eq
  rwa [length_map, length_map] at hlen

theorem Stores.data_at (h : l.Stores s refs xs) (he : s[k]? = some e) : l.data e = xs[k]? := by
  have hk := congrArg (fun t => t[k]?) h.data_eq
  simp only [List.getElem?_map, he, Option.map_some] at hk
  cases hx : xs[k]? with
  | none => rw [hx] at hk; exact nomatch hk
  | some v => rw [hx] at hk; exact Option.some.inj hk

theorem map_update_of_not_mem {data : Nat → Option V} {v : Option V} (he : e ∉ s) :
    s.map (Function.update data e v) = s.map data :=
  map_congr_left fun x hx => Function.update_of_ne (fun hxe : x = e => he (hxe ▸ hx)) _ _

theorem Stores.pushed (h : l.Stores s refs xs) (v : V) :
    (l.pushed v).Stores (s ++ [l.fresh]) refs (xs ++ [v]) := by
  have hf : l.fresh ∉ s := fun hm => h.owned.fresh_not_mem (mem_append_left _ hm)
  refine ⟨h.owned.pushed v, ?_⟩
  show (s ++ [l.fresh]).map (Function.update l.data l.fresh (some v)) = _
  rw [map_append, map_update_of_not_mem hf, h.data_eq]
  simp

theorem Stores.unshifted (h : l.Stores s refs xs) (v : V) :
    (l.unshifted v).Stores (l.fresh :: s) refs (v :: xs) := by
  have hf : l.fresh ∉ s := fun hm => h.owned.fresh_not_mem (mem_append_left _ hm)
  refine ⟨h.owned.unshifted v, ?_⟩
  show (l.fresh :: s).map (Function.update l.data l.fresh (some v)) = _
  rw [map_cons, map_update_of_not_mem hf, h.data_eq]
  simp

theorem Stores.removed (h : l.Stores s refs xs) (he : s[k]? = some e) :
    ∃ l', (l.removed e).delref e = some l' ∧ l'.Stores (s.eraseIdx k) refs (xs.eraseIdx k) := by
  obtain ⟨hk, rfl⟩ := List.getElem?_eq_some_iff.mp he
  have hmem : s[k] ∈ s := getElem_mem hk
  have herase : s.erase s[k] = s.eraseIdx k := h.owned.chain.nodup.erase_getElem k hk
  have hout : s[k] ∉ s.eraseIdx k := by
    rw [← herase, h.owned.chain.nodup.mem_erase_iff]
    exact fun hn => hn.1 rfl
  have hown := (h.owned.removed hmem).dropRef
  rw [herase] at hown
  refine ⟨_, delref_eq (h.owned.live_of_mem hmem), hown, ?_⟩
  show (s.eraseIdx k).map (Function.update l.data s[k] none) = _
  rw [map_update_of_not_mem hout, ← eraseIdx_map, h.data_eq, eraseIdx_map]

theorem Stores.replaced (h : l.Stores s refs xs) (he : s[k]? = some e) (v : V) :
    ({ l with data := Function.update l.data e (some v) } : SplPtrLlist V).Stores s refs
      (xs.set k v) := by
  have howned := h.owned
  refine ⟨⟨howned.chain, howned.count_eq, fun x hx => ?_, howned.rc_eq, howned.live_iff,
    howned.fresh_lt, howned.no_loop⟩, ?_⟩
  · show (Function.update l.data e (some v) x).isSome = true
    by_cases hxe : x = e
    · rw [hxe, Function.update_self]
      rfl
    · rw [Function.update_of_ne hxe]
      exact howned.stored x hx
  · obtain ⟨hk, rfl⟩ := List.getElem?_eq_some_iff.mp he
    have hlen := h.length_eq
    apply ext_getElem
    · simp [hlen]
    intro i hi hi'
    rw [length_map] at hi
    have hdata : l.data s[i] = xs[i]? := h.data_at (List.getElem?_eq_getElem hi)
    rw [List.getElem?_eq_getElem (hlen ▸ hi)] at hdata
    simp only [getElem_map, getElem_set]
    by_cases hki : k = i
    · subst hki
      simp
    · have hne : s[i] ≠ s[k] := fun heq =>
        hki ((howned.chain.nodup.getElem_inj_iff.mp heq).symm)
      rw [if_neg hki, Function.update_of_ne hne, hdata]

theorem Stores.search (h : l.Stores s refs xs) (q : Deque V) (hq : q.values = xs) (index : Int) :
    (if index < 0 ∨ index ≥ l.count then some none else l.offset index q.lifo) =
      some ((q.position index).bind fun k => s[k]?) := by
  have hcount : l.count = xs.length := h.owned.count_eq.trans h.length_eq
  unfold Deque.position
  rw [hq]
  by_cases hin : 0 ≤ index ∧ index < xs.length
  · rw [if_neg (by omega), if_pos hin, h.owned.offset_eq]
    have hlt : index.toNat < s.length := by
      rw [h.length_eq]
      omega
    cases q.lifo with
    | true =>
      show some s.reverse[index.toNat]? = some s[xs.length - 1 - index.toNat]?
      rw [List.getElem?_reverse hlt, h.length_eq]
    | false => rfl
  · rw [if_pos (by omega), if_neg hin]
    rfl

end SplPtrLlist

namespace SplDllistObject

open SplPtrLlist

/-- The object is the sequence `q`; `refs` are the elements that iterators are at. -/
def Represents (refs : List Nat) (o : SplDllistObject V) (q : Deque V) : Prop :=
  lifo o.flags = q.lifo ∧ ∃ s, o.llist.Stores s refs q.values

variable {o : SplDllistObject V} {q : Deque V} {refs : List Nat}

section

variable (h : Represents refs o q)

include h

theorem Represents.withLlist {l : SplPtrLlist V} {s : List Nat} {xs : List V}
    (hl : l.Stores s refs xs) :
    Represents refs (o.withLlist l) { q with values := xs } :=
  ⟨h.1, s, hl⟩

theorem Represents.push (v : V) :
    ∃ o', o.push v = some o' ∧ Represents refs o' { q with values := q.values ++ [v] } := by
  obtain ⟨s, hs⟩ := h.2
  refine ⟨o.withLlist (o.llist.pushed v), ?_, h.withLlist (hs.pushed v)⟩
  unfold SplDllistObject.push
  rw [hs.owned.push_eq]
  rfl

theorem Represents.unshift (v : V) :
    ∃ o', o.unshift v = some o' ∧ Represents refs o' { q with values := v :: q.values } := by
  obtain ⟨s, hs⟩ := h.2
  refine ⟨o.withLlist (o.llist.unshifted v), ?_, h.withLlist (hs.unshifted v)⟩
  unfold SplDllistObject.unshift
  rw [hs.owned.unshift_eq]
  rfl

theorem Represents.pop :
    ∃ o', o.pop = some (q.values.getLast?, o') ∧
      Represents refs o' { q with values := q.values.dropLast } := by
  obtain ⟨s, hs⟩ := h.2
  have htail := hs.owned.chain.tail_eq
  have hlen := hs.length_eq
  unfold SplDllistObject.pop
  cases ht : o.llist.tail with
  | none =>
    have hnil : q.values = [] := by
      rw [ht] at htail
      rw [List.getLast?_eq_none_iff.mp htail.symm] at hlen
      exact length_eq_zero_iff.mp hlen.symm
    refine ⟨o, ?_, h.1, s, ?_⟩
    · simp [SplPtrLlist.pop, ht, hnil, SplDllistObject.withLlist]
    · show o.llist.Stores s refs q.values.dropLast
      rw [hnil] at hs ⊢
      exact hs
  | some e =>
    -- the last element is the one at position `length - 1`
    have he : s[s.length - 1]? = some e := by
      rw [← List.getLast?_eq_getElem?, ← htail, ht]
    obtain ⟨l', hl', hstores⟩ := hs.removed he
    have hdata := hs.data_at he
    rw [hlen, ← List.getLast?_eq_getElem?] at hdata
    rw [hlen, eraseIdx_length_sub_one] at hstores
    refine ⟨o.withLlist l', ?_, h.withLlist hstores⟩
    rw [hs.owned.pop_eq ht, hl', hdata]
    rfl

theorem Represents.shift :
    ∃ o', o.shift = some (q.values.head?, o') ∧
      Represents refs o' { q with values := q.values.tail } := by
  obtain ⟨s, hs⟩ := h.2
  have hhead := hs.owned.chain.head_eq
  have hlen := hs.length_eq
  unfold SplDllistObject.shift
  cases ht : o.llist.head with
  | none =>
    have hnil : q.values = [] := by
      rw [ht] at hhead
      rw [List.head?_eq_none_iff.mp hhead.symm] at hlen
      exact length_eq_zero_iff.mp hlen.symm
    refine ⟨o, ?_, h.1, s, ?_⟩
    · simp [SplPtrLlist.shift, ht, hnil, SplDllistObject.withLlist]
    · show o.llist.Stores s refs q.values.tail
      rw [hnil] at hs ⊢
      exact hs
  | some e =>
    have he : s[0]? = some e := by
      rw [← List.head?_eq_getElem?, ← hhead, ht]
    obtain ⟨l', hl', hstores⟩ := hs.removed he
    have hdata := hs.data_at he
    rw [← List.head?_eq_getElem?] at hdata
    rw [eraseIdx_zero, eraseIdx_zero] at hstores
    refine ⟨o.withLlist l', ?_, h.withLlist hstores⟩
    rw [hs.owned.shift_eq ht, hl', hdata]
    rfl

theorem Represents.elementAt {s : List Nat} (hs : o.llist.Stores s refs q.values) (index : Int) :
    o.elementAt index = some ((q.position index).bind fun k => s[k]?) := by
  unfold SplDllistObject.elementAt
  rw [h.1]
  exact hs.search q rfl index

end

theorem Represents.answers : Answers (reply (V := V)) Deque.call (Represents refs) := by
  intro o q c h
  obtain ⟨s, hs⟩ := h.2
  have hlen := hs.length_eq
  cases c with
  | push v =>
    obtain ⟨o', ho', hrel⟩ := h.push v
    exact ⟨o', by rw [reply, ho']; rfl, hrel⟩
  | pop =>
    obtain ⟨o', ho', hrel⟩ := h.pop
    exact ⟨o', by rw [reply, ho']; rfl, hrel⟩
  | unshift v =>
    obtain ⟨o', ho', hrel⟩ := h.unshift v
    exact ⟨o', by rw [reply, ho']; rfl, hrel⟩
  | shift =>
    obtain ⟨o', ho', hrel⟩ := h.shift
    exact ⟨o', by rw [reply, ho']; rfl, hrel⟩
  | offsetGet index =>
    refine ⟨o, ?_, h⟩
    rw [reply, SplDllistObject.offsetGet, h.elementAt hs]
    cases hk : q.position index with
    | none => simp [Deque.call, hk]
    | some k =>
      have hlt : k < s.length := hlen ▸ Deque.position_lt hk
      have he : s[k]? = some s[k] := List.getElem?_eq_getElem _
      have hlive := hs.owned.live_of_mem (mem_of_getElem? he)
      simp only [Option.bind_some, he, if_pos hlive, hs.data_at he, Option.map_some]
      simp [Deque.call, hk]
  | offsetSet index v =>
    cases index with
    | none =>
      obtain ⟨o', ho', hrel⟩ := h.push v
      exact ⟨o', by rw [reply, SplDllistObject.offsetSet, ho']; rfl, hrel⟩
    | some index =>
      simp only [reply, SplDllistObject.offsetSet, h.elementAt hs, Deque.call, Option.bind_some]
      cases hk : q.position index with
      | none => exact ⟨o, rfl, h⟩
      | some k =>
        have hlt : k < s.length := hlen ▸ Deque.position_lt hk
        have he : s[k]? = some s[k] := List.getElem?_eq_getElem _
        have hlive := hs.owned.live_of_mem (mem_of_getElem? he)
        simp only [Option.bind_some, he, if_pos hlive]
        exact ⟨_, rfl, h.withLlist (hs.replaced he v)⟩
  | offsetUnset index =>
    simp only [reply, SplDllistObject.offsetUnset, h.elementAt hs, Deque.call, Option.bind_some]
    cases hk : q.position index with
    | none => exact ⟨o, rfl, h⟩
    | some k =>
      have hlt : k < s.length := hlen ▸ Deque.position_lt hk
      have he : s[k]? = some s[k] := List.getElem?_eq_getElem _
      obtain ⟨l', hl', hstores⟩ := hs.removed he
      simp only [Option.bind_some, he, hs.owned.unset_eq (mem_of_getElem? he), hl']
      exact ⟨_, rfl, h.withLlist hstores⟩

theorem Represents.exception (h : Represents refs o q) {c : DequeCall V} {o' : SplDllistObject V}
    (hc : o.reply c = some (.exception, o')) : o' = o := by
  obtain ⟨s, hs⟩ := h.2
  have hlen := hs.length_eq
  have hthrown : ∀ r : Option V, DequeReply.ofOption r = .exception → r = none := fun r hr => by
    cases r with
    | none => rfl
    | some v => exact nomatch hr
  cases c with
  | push v =>
    obtain ⟨o'', ho'', _⟩ := h.push v
    rw [reply, ho''] at hc
    exact nomatch hc
  | unshift v =>
    obtain ⟨o'', ho'', _⟩ := h.unshift v
    rw [reply, ho''] at hc
    exact nomatch hc
  | pop =>
    obtain ⟨o'', ho'', _⟩ := h.pop
    rw [reply, ho''] at hc
    obtain ⟨hr, rfl⟩ := Prod.mk.inj (Option.some.inj hc)
    have hnil : q.values = [] := List.getLast?_eq_none_iff.mp (hthrown _ hr)
    have hempty : s = [] := eq_nil_of_length_eq_zero (by rw [hlen, hnil]; rfl)
    have htail : o.llist.tail = none := by
      rw [hs.owned.chain.tail_eq, hempty]
      rfl
    rw [SplDllistObject.pop, SplPtrLlist.pop, htail] at ho''
    exact (Prod.mk.inj (Option.some.inj ho'')).2.symm
  | shift =>
    obtain ⟨o'', ho'', _⟩ := h.shift
    rw [reply, ho''] at hc
    obtain ⟨hr, rfl⟩ := Prod.mk.inj (Option.some.inj hc)
    have hnil : q.values = [] := List.head?_eq_none_iff.mp (hthrown _ hr)
    have hempty : s = [] := eq_nil_of_length_eq_zero (by rw [hlen, hnil]; rfl)
    have hhead : o.llist.head = none := by
      rw [hs.owned.chain.head_eq, hempty]
      rfl
    rw [SplDllistObject.shift, SplPtrLlist.shift, hhead] at ho''
    exact (Prod.mk.inj (Option.some.inj ho'')).2.symm
  | offsetGet index =>
    rw [reply] at hc
    obtain ⟨v, _, hv⟩ := Option.map_eq_some_iff.mp hc
    exact (Prod.mk.inj hv).2.symm
  | offsetSet index v =>
    cases index with
    | none =>
      obtain ⟨o'', ho'', _⟩ := h.push v
      rw [reply, SplDllistObject.offsetSet, ho''] at hc
      exact nomatch hc
    | some index =>
      rw [reply] at hc
      obtain ⟨element, helement, hc⟩ := Option.bind_eq_some_iff.mp hc
      obtain ⟨o'', ho'', hpair⟩ := Option.map_eq_some_iff.mp hc
      obtain ⟨hr, rfl⟩ := Prod.mk.inj hpair
      cases element with
      | some e => exact nomatch hr
      | none =>
        rw [SplDllistObject.offsetSet, helement] at ho''
        exact (Option.some.inj ho'').symm
  | offsetUnset index =>
    rw [reply] at hc
    obtain ⟨element, helement, hc⟩ := Option.bind_eq_some_iff.mp hc
    obtain ⟨o'', ho'', hpair⟩ := Option.map_eq_some_iff.mp hc
    obtain ⟨hr, rfl⟩ := Prod.mk.inj hpair
    cases element with
    | some e => exact nomatch hr
    | none =>
      rw [SplDllistObject.offsetUnset, helement] at ho''
      exact (Option.some.inj ho'').symm

end SplDllistObject

end Php53.Spl
