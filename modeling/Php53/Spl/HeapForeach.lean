import Php53.Spl.Heap

/-!
# HeapForeach — the iterator of `SplHeap`

The iterator always stands on the top, and every step takes the top away.
-/

open Reasoning

namespace Php53.Spl

variable {α σ : Type} {c : SplPtrHeap.Comparator σ α} {h : SplPtrHeap α}

/-- `foreach` over the heap, for so many rounds at most; the body of the loop is code of the user that
leaves the heap alone and throws nothing.  `spl_heap_it_get_current_data` and
`spl_heap_it_move_forward` throw where the heap is corrupted. -/
def splHeapForeach (c : SplPtrHeap.Comparator σ α) (body : α → σ → σ) :
    Nat → SplPtrHeap α → σ → Except HeapError (List α × SplPtrHeap α)
  | 0, h, _ => .ok ([], h)
  | rounds + 1, h, s =>
    if h.count = 0 then .ok ([], h)  -- spl_heap_it_valid
    else if h.corrupted then .ok ([], h)
    else (h.read 0).bind fun data =>
      (SplPtrHeap.splPtrHeapDeleteTop c h (body data s)).bind fun (_, h, s) =>
        (splHeapForeach c body rounds h s).map fun (seen, h) => (data :: seen, h)

/-- What the loop shows and what it leaves is what was stored; elements are left only where the
comparison threw. -/
structure Visited (c : SplPtrHeap.Comparator σ α) (h : SplPtrHeap α) (seen : List α)
    (h' : SplPtrHeap α) : Prop where
  contents : (seen ++ h'.stored).Perm h.stored
  empty : h'.corrupted = false → h'.stored = []
  corrupted : h.corrupted = true → seen = []
  order : ∀ le, IsTrans α le → Std.Total le → c.Orders le → HeapOrdered le h.stored →
    seen.Pairwise fun x y => le y x

theorem Visited.nil (hempty : h.corrupted = false → h.stored = []) :
    Visited c h [] h where
  contents := List.Perm.refl _
  empty := hempty
  corrupted := fun _ => rfl
  order := fun _ _ _ _ _ => List.Pairwise.nil

theorem stored_of_count_zero (h0 : h.count = 0) : h.stored = [] := by
  rw [SplPtrHeap.stored, h0, List.take_zero]

-- A round takes the top, which no element exceeds, and the others take what is left of it.
theorem Visited.cons {h₁ h' : SplPtrHeap α} {data : α} {seen : List α} (hcor : h.corrupted = false)
    (hcalled : SplPtrHeap.Called c h h₁) (hperm : (data :: h₁.stored).Perm h.stored)
    (hfirst : h.stored[0]? = some data)
    (hrest : Visited c h₁ seen h') : Visited c h (data :: seen) h' where
  contents := (hrest.contents.cons data).trans hperm
  empty := hrest.empty
  corrupted := by
    intro hthrown
    rw [hcor] at hthrown
    cases hthrown
  order := by
    intro le htrans htotal hord hheap
    have hrefl : Std.Refl le := ⟨fun x => (htotal.total x x).elim id id⟩
    apply List.Pairwise.cons
    · intro y hy
      have hstored : y ∈ h₁.stored := hrest.contents.subset (List.mem_append_left _ hy)
      exact hheap.le_head hfirst (hperm.subset (List.mem_cons_of_mem data hstored))
    · cases hcor₁ : h₁.corrupted with
      | true =>
        rw [hrest.corrupted hcor₁]
        exact List.Pairwise.nil
      | false => exact hrest.order le htrans htotal hord (hcalled.order le htrans htotal hord hcor₁ hheap)

theorem splHeapForeach_visited (body : α → σ → σ) (rounds : Nat) (hsound : SplPtrHeap.Sound h)
    (hrounds : h.count ≤ rounds) (s : σ) :
    ∃ seen h', splHeapForeach c body rounds h s = .ok (seen, h') ∧ Visited c h seen h' := by
  induction rounds generalizing h s with
  | zero => exact ⟨[], h, rfl, .nil fun _ => stored_of_count_zero (Nat.le_zero.mp hrounds)⟩
  | succ rounds ih =>
    rw [splHeapForeach]
    by_cases h0 : h.count = 0
    · rw [if_pos h0]
      exact ⟨[], h, rfl, .nil fun _ => stored_of_count_zero h0⟩
    · rw [if_neg h0]
      cases hcor : h.corrupted with
      | true =>
        rw [if_pos rfl]
        refine ⟨[], h, rfl, .nil fun hfine => ?_⟩
        rw [hcor] at hfine
        cases hfine
      | false =>
        rw [if_neg Bool.false_ne_true]
        have hle := hsound.count_le
        obtain ⟨data, hdata, hread⟩ := SplPtrHeap.read_eq (h := h) (i := 0) (by omega)
        obtain ⟨top, h₁, s₁, hdelete, hcalled, hperm, hfirst⟩ :=
          SplPtrHeap.splPtrHeapDeleteTop_called (c := c) hsound (body data s)
        -- the element that was shown is the one that is taken away
        have htop : top = some data := by
          rw [← hfirst, SplPtrHeap.stored, List.getElem?_take, if_pos (Nat.pos_of_ne_zero h0), hdata]
        rw [htop] at hperm hfirst
        have hcount : h₁.count ≤ rounds := by
          have hlen := hperm.length_eq
          have hle₁ := hcalled.sound.count_le
          simp only [SplPtrHeap.stored, Option.toList_some, List.length_append, List.length_take,
            List.length_singleton] at hlen
          omega
        obtain ⟨seen, h', hrest, hvisited⟩ := ih hcalled.sound hcount s₁
        refine ⟨data :: seen, h', ?_, hvisited.cons hcor hcalled hperm hfirst⟩
        simp only [hread, hdelete, hrest, Except.bind, Except.map]

/-- After every sequence of calls a `foreach` reads nothing outside of the array and shows every
stored element once, the greatest first; where a comparison throws it ends, and what it has not shown
is still there. -/
theorem heap_foreach_is_sorted {calls : List (HeapCall σ α)} {r : HeapHistory α}
    (hrun : Run (HeapHistory.step c) (fun _ _ => True) .init calls r) (body : α → σ → σ) (s : σ)
    {rounds : Nat} (hrounds : r.heap.count ≤ rounds) :
    ∃ seen h, splHeapForeach c body rounds r.heap s = .ok (seen, h) ∧
      (seen ++ h.stored).Perm r.heap.stored ∧ (h.corrupted = false → h.stored = []) ∧
      ∀ le, IsTrans α le → Std.Total le → c.Orders le → r.heap.corrupted = false →
        seen.Pairwise fun x y => le y x := by
  have hgood : HeapHistory.Good c r :=
    hrun.invariant HeapHistory.good_init fun _ op _ h _ hst => h.step op hst
  obtain ⟨seen, h, hforeach, hvisited⟩ :=
    splHeapForeach_visited (c := c) body rounds hgood.sound hrounds s
  exact ⟨seen, h, hforeach, hvisited.contents, hvisited.empty, fun le htrans htotal hord hcor =>
    hvisited.order le htrans htotal hord (hgood.order le htrans htotal hord hcor)⟩

theorem heap_foreach_is_sorted_ints :
    ∃ r : HeapHistory Int, Multiset.ofList r.heap.stored = {2, 5, 3} ∧ ∃ seen h,
      splHeapForeach HeapHistory.intComparator (fun _ s => s) 3 r.heap () = .ok (seen, h) ∧
      (seen ++ h.stored).Perm r.heap.stored ∧ (h.corrupted = false → h.stored = []) ∧
      ∀ le, IsTrans Int le → Std.Total le → HeapHistory.intComparator.Orders le →
        r.heap.corrupted = false → seen.Pairwise fun x y => le y x := by
  have hexec : ((exec (HeapHistory.step HeapHistory.intComparator) (fun _ _ => True) .init
      [.insert 3 (), .insert 5 (), .insert 2 ()]).map
        fun r => (Multiset.ofList r.heap.stored, r.heap.count)) = some ({2, 5, 3}, 3) := by
    decide +kernel
  obtain ⟨r, hexec, hr⟩ := Option.map_eq_some_iff.mp hexec
  obtain ⟨hstored, hcount⟩ := Prod.mk.inj hr
  have hstart : Run (HeapHistory.step HeapHistory.intComparator) (fun _ _ => True) .init [] .init :=
    Run.nil _
  exact ⟨r, hstored, heap_foreach_is_sorted (Run.append_exec hstart hexec) (fun _ s => s) () hcount.le⟩

end Php53.Spl
