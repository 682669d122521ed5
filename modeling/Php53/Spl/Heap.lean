import Mathlib.Data.Multiset.AddSub
import Php53.Reasoning.BinaryHeap
import Php53.Reasoning.Run

/-!
# Heap — `spl_ptr_heap` of SplHeap and SplPriorityQueue

`elements` holds the slots of the array that have been written, in order; there is room for
`allocated` of them.  Reading a slot that has not been written, or writing one that is not there, is
`HeapError.outside`.
-/

open Reasoning

namespace Php53.Spl

inductive HeapError where
  | outside  -- a slot outside the array, or one that holds nothing yet
  | noMemory  -- safe_erealloc ends the request
  deriving DecidableEq, Repr

structure SplPtrHeap (α : Type) where
  elements : List α
  allocated : Nat
  count : Nat
  maxSize : BitVec 32  -- int max_size
  corrupted : Bool  -- flags & SPL_HEAP_CORRUPTED

namespace SplPtrHeap

variable {α σ : Type}

def ptrHeapBlockSize : Nat := 64

def splPtrHeapInit : SplPtrHeap α :=
  { elements := [], allocated := ptrHeapBlockSize, count := 0,
    maxSize := BitVec.ofNat 32 ptrHeapBlockSize, corrupted := false }

def read (h : SplPtrHeap α) (i : Nat) : Except HeapError α :=
  match h.elements[i]? with
  | some x => .ok x
  | none => .error .outside

def write (h : SplPtrHeap α) (i : Nat) (x : α) : Except HeapError (SplPtrHeap α) :=
  if i < h.elements.length then .ok { h with elements := h.elements.set i x }
  else if i = h.elements.length ∧ i < h.allocated then
    .ok { h with elements := h.elements ++ [x] }
  else .error .outside

/-- `safe_erealloc(elements, sizeof, max_size, sizeof * max_size)` with a 64-bit `size_t`: a
    negative `max_size` is a number of bytes that does not fit, and the request ends. -/
def grow (h : SplPtrHeap α) : Except HeapError (SplPtrHeap α) :=
  if h.maxSize.toInt < 0 then .error .noMemory
  else .ok { h with allocated := 2 * h.maxSize.toNat, maxSize := h.maxSize * 2 }

/-! ## 2. Comparing

A comparator may be code of the user with a state of its own.  Each of the three in the source
returns 0 at once while an exception is pending. -/

structure Comparator (σ α : Type) where
  cmp : α → α → σ → Int × σ
  exception : σ → Bool  -- EG(exception)
  cmp_pending : ∀ a b s, exception s = true → cmp a b s = (0, s)

/-- The loop of `spl_ptr_heap_insert`; the hole is at `i`. -/
def siftUp (c : Comparator σ α) (elem : α) (i : Nat) (h : SplPtrHeap α) (s : σ) :
    Except HeapError (Nat × SplPtrHeap α × σ) :=
  if 0 < i then
    (h.read ((i - 1) / 2)).bind fun above =>
      if (c.cmp above elem s).1 < 0 then
        (h.write i above).bind fun h => siftUp c elem ((i - 1) / 2) h (c.cmp above elem s).2
      else .ok (i, h, (c.cmp above elem s).2)
  else .ok (i, h, s)
termination_by i
decreasing_by omega

def splPtrHeapInsert (c : Comparator σ α) (h : SplPtrHeap α) (elem : α) (s : σ) :
    Except HeapError (SplPtrHeap α × σ) :=
  (if (h.count : Int) + 1 > h.maxSize.toInt then h.grow else .ok h).bind fun h =>
    (siftUp c elem h.count { h with count := h.count + 1 } s).bind fun (i, h, s) =>
      (h.write i elem).bind fun h =>
        .ok ({ h with corrupted := h.corrupted || c.exception s }, s)

/-- `j != heap->count && cmp(elements[j+1], elements[j]) > 0` -/
def nextIsBigger (c : Comparator σ α) (j : Nat) (h : SplPtrHeap α) (s : σ) :
    Except HeapError (Bool × σ) :=
  if j ≠ h.count then
    (h.read (j + 1)).bind fun right => (h.read j).bind fun left =>
      .ok (decide (0 < (c.cmp right left s).1), (c.cmp right left s).2)
  else .ok (false, s)

/-- The loop of `spl_ptr_heap_delete_top`; the hole is at `i`. -/
def siftDown (c : Comparator σ α) (bottom : α) (limit i : Nat) (h : SplPtrHeap α) (s : σ) :
    Except HeapError (Nat × SplPtrHeap α × σ) :=
  if i < limit then
    (nextIsBigger c (i * 2 + 1) h s).bind fun (next, s) =>
      let j := if next then i * 2 + 1 + 1 else i * 2 + 1
      (h.read j).bind fun child =>
        if (c.cmp bottom child s).1 < 0 then
          (h.write i child).bind fun h => siftDown c bottom limit j h (c.cmp bottom child s).2
        else .ok (i, h, (c.cmp bottom child s).2)
  else .ok (i, h, s)
termination_by limit - i
decreasing_by split <;> omega

/-- The element, or none where the function returns NULL. -/
def splPtrHeapDeleteTop (c : Comparator σ α) (h : SplPtrHeap α) (s : σ) :
    Except HeapError (Option α × SplPtrHeap α × σ) :=
  if h.count = 0 then .ok (none, h, s)
  else
    (h.read 0).bind fun top => (h.read (h.count - 1)).bind fun bottom =>
      (siftDown c bottom ((h.count - 1) / 2) 0 { h with count := h.count - 1 } s).bind
        fun (i, h, s) => (h.write i bottom).bind fun h =>
          .ok (some top, { h with corrupted := h.corrupted || c.exception s }, s)

end SplPtrHeap

/-- A call, and the state that the user's code is in when it is made. -/
inductive HeapCall (σ α : Type) where
  | insert (elem : α) (s : σ)
  | deleteTop (s : σ)

/-- A heap, with the elements that were inserted and extracted so far. -/
structure HeapHistory (α : Type) where
  heap : SplPtrHeap α
  inserted : Multiset α
  extracted : Multiset α

namespace HeapHistory

variable {α σ : Type}

def init : HeapHistory α := { heap := .splPtrHeapInit, inserted := 0, extracted := 0 }

def call (c : SplPtrHeap.Comparator σ α) (r : HeapHistory α) :
    HeapCall σ α → Except HeapError (HeapHistory α)
  | .insert elem s => (SplPtrHeap.splPtrHeapInsert c r.heap elem s).map fun (h, _) =>
      { r with heap := h, inserted := elem ::ₘ r.inserted }
  | .deleteTop s => (SplPtrHeap.splPtrHeapDeleteTop c r.heap s).map fun (top, h, _) =>
      { r with heap := h, extracted := Multiset.ofList top.toList + r.extracted }

end HeapHistory

namespace SplPtrHeap

variable {α σ : Type} {c : Comparator σ α}

variable {i n : Nat} {h : SplPtrHeap α} {l : List α}

/-- The comparator follows `le` as long as no exception is pending. -/
def Comparator.Orders (c : Comparator σ α) (le : α → α → Prop) : Prop :=
  ∀ a b s, c.exception (c.cmp a b s).2 = false →
    ((c.cmp a b s).1 < 0 ↔ ¬ le b a) ∧ (0 < (c.cmp a b s).1 ↔ ¬ le a b)

theorem Comparator.exception_stays (c : Comparator σ α) {a b : α} {s : σ}
    (h : c.exception (c.cmp a b s).2 = false) : c.exception s = false := by
  cases hs : c.exception s with
  | false => rfl
  | true =>
    rw [c.cmp_pending a b s hs, hs] at h
    exact h

/-- `h'` is `h` with other elements in the array. -/
structure SameRoom (h h' : SplPtrHeap α) : Prop where
  count : h'.count = h.count
  allocated : h'.allocated = h.allocated
  maxSize : h'.maxSize = h.maxSize
  corrupted : h'.corrupted = h.corrupted

theorem read_eq (hi : i < h.elements.length) :
    ∃ x, h.elements[i]? = some x ∧ h.read i = .ok x := by
  have hx := List.getElem?_eq_getElem hi
  refine ⟨h.elements[i], hx, ?_⟩
  unfold read
  rw [hx]

theorem write_eq (x : α) (hi : i ≤ h.elements.length) (hroom : i < h.allocated) :
    h.write i x = .ok { h with elements := place h.elements i x } := by
  unfold write place
  by_cases hlt : i < h.elements.length
  · rw [if_pos hlt, if_pos hlt]
  · rw [if_neg hlt, if_neg hlt, if_pos ⟨by omega, hroom⟩]

/-- What a loop of the source leaves when the hole was at `i` and `elem` is on its way: the array
    stands for the same elements, and they are in order unless an exception is pending. -/
structure Sifted (c : Comparator σ α) (n : Nat) (elem : α) (i : Nat) (h : SplPtrHeap α) (s : σ)
    (start : (α → α → Prop) → Prop) (i' : Nat) (h' : SplPtrHeap α) (s' : σ) : Prop where
  room : SameRoom h h'
  hole : i' ≤ h'.elements.length ∧ i' < h'.allocated
  length : h.elements.length ≤ h'.elements.length ∧ n ≤ max h'.elements.length (i' + 1)
  fits : h'.elements.length ≤ h'.allocated
  perm : (filled n h'.elements i' elem).Perm (filled n h.elements i elem)
  exception : c.exception s' = false → c.exception s = false
  order : ∀ le, IsTrans α le → Std.Total le → c.Orders le → start le →
    c.exception s' = false → HeapOrdered le (filled n h'.elements i' elem)

section

variable {elem : α} {h h' : SplPtrHeap α} {s s' s₂ : σ} {i' j : Nat} {start start' : (α → α → Prop) → Prop}

/-- The loop stops with the hole where it is. -/
theorem Sifted.stop (hlen : i ≤ h.elements.length) (hi : i < h.allocated)
    (hn : n ≤ max h.elements.length (i + 1)) (hfits : h.elements.length ≤ h.allocated)
    (hexception : c.exception s' = false → c.exception s = false)
    (horder : ∀ le, IsTrans α le → Std.Total le → c.Orders le → start le →
      c.exception s' = false → HeapOrdered le (filled n h.elements i elem)) :
    Sifted c n elem i h s start i h s' where
  room := ⟨rfl, rfl, rfl, rfl⟩
  hole := ⟨hlen, hi⟩
  length := ⟨Nat.le_refl _, hn⟩
  fits := hfits
  perm := List.Perm.refl _
  exception := hexception
  order := horder

/-- The element `x` fills the hole, and the loop goes on with the hole at `j`. -/
theorem Sifted.after {x : α} (hlen : i ≤ h.elements.length)
    (hs : Sifted c n elem j { h with elements := place h.elements i x } s₂ start' i' h' s')
    (hexception : c.exception s₂ = false → c.exception s = false)
    (hperm : (filled n (place h.elements i x) j elem).Perm (filled n h.elements i elem))
    (hstart : ∀ le, IsTrans α le → Std.Total le → c.Orders le → c.exception s₂ = false →
      start le → start' le) :
    Sifted c n elem i h s start i' h' s' where
  room := ⟨hs.room.count, hs.room.allocated, hs.room.maxSize, hs.room.corrupted⟩
  hole := hs.hole
  length := by
    have hplace := hs.length.1
    simp only [length_place hlen] at hplace
    exact ⟨by omega, hs.length.2⟩
  fits := hs.fits
  perm := hs.perm.trans hperm
  exception := fun he => hexception (hs.exception he)
  order := fun le htrans htotal hord h he =>
    hs.order le htrans htotal hord (hstart le htrans htotal hord (hs.exception he) h) he

end

theorem siftUp_sifted (elem : α) (s : σ) (hi : i < n) (hlen : i ≤ h.elements.length)
    (hn : n ≤ max h.elements.length (i + 1)) (hroom : n ≤ h.allocated)
    (hfits : h.elements.length ≤ h.allocated) :
    ∃ i' h' s', siftUp c elem i h s = .ok (i', h', s') ∧
      Sifted c n elem i h s (fun le => Rising le (filled n h.elements i elem) i) i' h' s' := by
  induction i using Nat.strongRecOn generalizing h s with
  | ind i ih =>
    rw [siftUp]
    by_cases hi0 : 0 < i
    · rw [if_pos hi0]
      have hip : IsChild i ((i - 1) / 2) := ⟨hi0, rfl⟩
      obtain ⟨above, habove, hread⟩ := read_eq (h := h) (i := (i - 1) / 2) (by omega)
      have hmove := filled_move (x := elem) hlen hi (by omega) habove (by omega)
      have hvi : (filled n h.elements i elem)[i]? = some elem := by
        rw [getElem?_filled hlen, if_pos hi, if_pos rfl]
      have hvp : (filled n h.elements i elem)[(i - 1) / 2]? = some above := by
        rw [getElem?_filled hlen, if_pos (by omega), if_neg (by omega), habove]
      rw [hread]
      show ∃ i' h' s', (if (c.cmp above elem s).1 < 0 then _ else _) = _ ∧ _
      by_cases hlt : (c.cmp above elem s).1 < 0
      · -- the parent moves down into the hole
        rw [if_pos hlt, write_eq above hlen (by omega)]
        have hlen' := length_place hlen above
        obtain ⟨i', h', s', heq, hs⟩ := ih ((i - 1) / 2) (by omega)
          (h := { h with elements := place h.elements i above }) (c.cmp above elem s).2 (by omega)
          (by simp only [hlen']; omega) (by simp only [hlen']; omega) hroom
          (by simp only [hlen']; omega)
        refine ⟨i', h', s', heq, hs.after hlen c.exception_stays ?_ ?_⟩
        · rw [hmove]
          exact swapped_perm hvi hvp
        · intro le _ htotal hord he hrising
          have hcmp := (hord above elem s he).1.mp hlt
          show Rising le (filled n (place h.elements i above) _ elem) _
          rw [hmove]
          exact hrising.swap hip hvi hvp ((htotal.total above elem).resolve_right hcmp)
      · rw [if_neg hlt]
        refine ⟨i, h, _, rfl, .stop hlen (by omega) hn hfits c.exception_stays ?_⟩
        intro le _ _ hord hrising he
        have hle : le elem above := not_not.mp (mt (hord above elem s he).1.mpr hlt)
        refine hrising.done fun p hp y x hy hx => ?_
        obtain rfl : (i - 1) / 2 = p := hp.2
        rw [hvi] at hy
        rw [hvp] at hx
        rwa [← Option.some.inj hy, ← Option.some.inj hx]
    · rw [if_neg hi0]
      exact ⟨i, h, s, rfl, .stop hlen (by omega) hn hfits id fun le _ _ _ hrising _ =>
        hrising.done fun p hp => absurd hp.1 hi0⟩

theorem isChild_iff {c : Nat} : IsChild c i ↔ c = i * 2 + 1 ∨ c = i * 2 + 1 + 1 := by
  unfold IsChild
  omega

/-- The child `j` that the loop of `spl_ptr_heap_delete_top` picks: no child of `i` exceeds it. -/
structure Picked (c : Comparator σ α) (h : SplPtrHeap α) (i : Nat) (s : σ) (next : Bool) (child : α)
    (s' : σ) : Prop where
  eq : nextIsBigger c (i * 2 + 1) h s = .ok (next, s')
  get : h.elements[if next then i * 2 + 1 + 1 else i * 2 + 1]? = some child
  exception : c.exception s' = false → c.exception s = false
  best : ∀ le : α → α → Prop, Std.Total le → c.Orders le → c.exception s' = false →
    ∀ k, IsChild k i → ∀ z, h.elements[k]? = some z → le z child

theorem exists_picked (s : σ) (hi : i < h.count / 2)
    (hlen : h.count < h.elements.length) : ∃ next child s', Picked c h i s next child s' := by
  obtain ⟨left, hleft, hreadl⟩ := read_eq (h := h) (i := i * 2 + 1) (by omega)
  obtain ⟨right, hright, hreadr⟩ := read_eq (h := h) (i := i * 2 + 1 + 1) (by omega)
  have heq : nextIsBigger c (i * 2 + 1) h s =
      .ok (decide (0 < (c.cmp right left s).1), (c.cmp right left s).2) := by
    unfold nextIsBigger
    rw [if_pos (by omega), hreadr, hreadl]
    rfl
  have hchildren : ∀ (le : α → α → Prop) x, le left x → le right x →
      ∀ k, IsChild k i → ∀ z, h.elements[k]? = some z → le z x := by
    intro le x hl hr k hk z hz
    rcases isChild_iff.mp hk with rfl | rfl
    · rw [hleft] at hz
      rwa [← Option.some.inj hz]
    · rw [hright] at hz
      rwa [← Option.some.inj hz]
  by_cases hbig : 0 < (c.cmp right left s).1
  · refine ⟨true, right, _, by rw [heq, decide_eq_true hbig], hright, c.exception_stays, ?_⟩
    intro le htotal hord he
    have hle := (hord right left s he).2.mp hbig
    exact hchildren le right ((htotal.total left right).resolve_right hle)
      ((htotal.total right right).elim id id)
  · refine ⟨false, left, _, by rw [heq, decide_eq_false hbig], hleft, c.exception_stays, ?_⟩
    intro le htotal hord he
    exact hchildren le left ((htotal.total left left).elim id id)
      (not_not.mp (mt (hord right left s he).2.mpr hbig))

/-- The picked child moves up into the hole: what the array stands for keeps its elements. -/
theorem filled_up {m j : Nat} {bottom child : α} (him : i < m) (hij : i < j) (hjm : j ≤ m)
    (hm : m < l.length) (hbottom : l[m]? = some bottom) (hchild : l[j]? = some child) :
    (filled m (place l i child) j bottom).Perm (filled m l i bottom) := by
  by_cases hjm' : j = m
  · -- the slot behind the last is compared: it still holds `bottom`
    rw [hjm', hbottom] at hchild
    obtain rfl := Option.some.inj hchild
    have hlen' := length_place (l := l) (i := i) (by omega) bottom
    apply List.Perm.of_eq
    apply List.ext_getElem?
    intro k
    rw [getElem?_filled (by omega), getElem?_filled (by omega), getElem?_place (by omega)]
    by_cases hk : k < m
    · rw [if_pos hk, if_pos hk, if_neg (by omega)]
    · rw [if_neg hk, if_neg hk]
  · rw [filled_move (by omega) (by omega) (by omega) hchild (by omega)]
    apply swapped_perm
    · rw [getElem?_filled (by omega), if_pos him, if_pos rfl]
    · rw [getElem?_filled (by omega), if_pos (by omega), if_neg (by omega), hchild]

theorem siftDown_sifted (bottom : α) (s : σ) (hi : i ≤ h.count) (hlen : h.count < h.elements.length)
    (hfits : h.elements.length ≤ h.allocated) (hbottom : h.elements[h.count]? = some bottom) :
    ∃ i' h' s', siftDown c bottom (h.count / 2) i h s = .ok (i', h', s') ∧
      Sifted c h.count bottom i h s
        (fun le => Sinking le (filled h.count h.elements i bottom) i) i' h' s' := by
  generalize hm : h.count = m at *
  induction hk : m / 2 - i using Nat.strongRecOn generalizing i h s with
  | ind k ih =>
    rw [siftDown]
    by_cases hlim : i < m / 2
    · rw [if_pos hlim]
      obtain ⟨next, child, s₂, hpick⟩ :=
        exists_picked (c := c) (h := h) s (hm ▸ hlim) (hm ▸ hlen)
      have hchild := hpick.get
      rw [hpick.eq]
      show ∃ i' h' s', Except.bind (h.read (if next then _ else _)) _ = _ ∧ _
      generalize hj : (if next = true then i * 2 + 1 + 1 else i * 2 + 1) = j at hchild
      have hji : IsChild j i := by
        rw [isChild_iff]
        split at hj <;> omega
      have hij : i < j := by split at hj <;> omega
      have hjm : j ≤ m := by split at hj <;> omega
      have hread : h.read j = .ok child := by
        unfold read
        rw [hchild]
      have hvi : (filled m h.elements i bottom)[i]? = some bottom := by
        rw [getElem?_filled (by omega), if_pos (by omega), if_pos rfl]
      have hbest : ∀ le : α → α → Prop, Std.Total le → c.Orders le → c.exception s₂ = false →
          ∀ k, IsChild k i → ∀ z, (filled m h.elements i bottom)[k]? = some z → le z child := by
        intro le htotal hord he k hk z hz
        rw [getElem?_filled (by omega)] at hz
        split at hz
        · rw [if_neg (by rw [isChild_iff] at hk; omega)] at hz
          exact hpick.best le htotal hord he k hk z hz
        · exact nomatch hz
      rw [hread]
      show ∃ i' h' s', (if (c.cmp bottom child s₂).1 < 0 then _ else _) = _ ∧ _
      have hstays : c.exception (c.cmp bottom child s₂).2 = false → c.exception s = false :=
        fun he => hpick.exception (c.exception_stays he)
      by_cases hlt : (c.cmp bottom child s₂).1 < 0
      · -- the child moves up into the hole
        rw [if_pos hlt, write_eq child (by omega) (by omega)]
        have hlen' := length_place (l := h.elements) (i := i) (by omega) child
        have hget := getElem?_place (l := h.elements) (i := i) (by omega) child
        obtain ⟨i', h', s', heq, hs⟩ := ih (m / 2 - j) (by omega)
          (h := { h with elements := place h.elements i child }) (i := j) (c.cmp bottom child s₂).2
          (by simp only [hlen']; omega) hm hjm (by simp only [hlen']; omega)
          (by simp only [hget, show m ≠ i by omega, if_false]; exact hbottom) rfl
        refine ⟨i', h', s', heq, hs.after (by omega) hstays
          (filled_up (by omega) hij hjm hlen hbottom hchild) ?_⟩
        intro le _ htotal hord he₂ hsinking
        have hcmp := (hord bottom child s₂ he₂).1.mp hlt
        have hle : le bottom child := (htotal.total bottom child).resolve_right hcmp
        have hjm' : j ≠ m := by
          intro hjm'
          rw [hjm', hbottom] at hchild
          rw [← Option.some.inj hchild] at hcmp hle
          exact hcmp hle
        show Sinking le (filled m (place h.elements i child) j bottom) j
        rw [filled_move (by omega) (by omega) (by omega) hchild (by omega)]
        refine hsinking.swap hji hvi ?_ hle (hbest le htotal hord (c.exception_stays he₂))
        rw [getElem?_filled (by omega), if_pos (by omega), if_neg (by omega), hchild]
      · rw [if_neg hlt]
        refine ⟨i, h, _, rfl, .stop (by omega) (by omega) (by omega) hfits hstays ?_⟩
        intro le htrans htotal hord hsinking he
        have hle : le child bottom := not_not.mp (mt (hord bottom child s₂ he).1.mpr hlt)
        refine hsinking.done fun k hk y x hy hx => ?_
        rw [hvi] at hx
        rw [← Option.some.inj hx]
        exact htrans.trans _ _ _ (hbest le htotal hord (c.exception_stays he) k hk y hy) hle
    · rw [if_neg hlim]
      refine ⟨i, h, s, rfl, .stop (by omega) (by omega) (by omega) hfits id ?_⟩
      -- a position from the limit on has no children
      intro le _ _ _ hsinking _
      refine hsinking.done fun c hc y x hy _ => ?_
      rw [getElem?_filled (by omega), if_neg (by rw [isChild_iff] at hc; omega)] at hy
      exact nomatch hy

/-- What every call finds and leaves. -/
structure Sound (h : SplPtrHeap α) : Prop where
  count_le : h.count ≤ h.elements.length
  length_le : h.elements.length ≤ h.allocated
  maxSize : h.maxSize.toNat = h.allocated
  allocated_pos : 0 < h.allocated

def stored (h : SplPtrHeap α) : List α := h.elements.take h.count

theorem sound_init : Sound (splPtrHeapInit : SplPtrHeap α) :=
  ⟨Nat.le_refl _, Nat.zero_le _, rfl, show 0 < 64 by decide⟩

theorem Sound.grow (hs : Sound h) :
    (if (h.count : Int) + 1 > h.maxSize.toInt then h.grow else .ok h) = .error .noMemory ∨
      ∃ h', (if (h.count : Int) + 1 > h.maxSize.toInt then h.grow else .ok h) = .ok h' ∧
        Sound h' ∧ h'.count < h'.allocated ∧ h'.elements = h.elements ∧ h'.count = h.count ∧
        h'.corrupted = h.corrupted := by
  have hint := BitVec.toInt_eq_toNat_cond h.maxSize
  have hle := hs.count_le
  have hlen := hs.length_le
  have hmax := hs.maxSize
  have hpos := hs.allocated_pos
  by_cases hfull : (h.count : Int) + 1 > h.maxSize.toInt
  · rw [if_pos hfull]
    unfold SplPtrHeap.grow
    by_cases hneg : h.maxSize.toInt < 0
    · exact .inl (if_pos hneg)
    · rw [if_neg hneg]
      have hdouble : (h.maxSize * 2).toNat = 2 * h.maxSize.toNat := by
        rw [BitVec.toNat_mul, show (2 : BitVec 32).toNat = 2 from rfl]
        split at hint <;> omega
      refine .inr ⟨_, rfl, ⟨hle, ?_, hdouble, ?_⟩, ?_, rfl, rfl, rfl⟩
      · show h.elements.length ≤ 2 * h.maxSize.toNat
        omega
      · show 0 < 2 * h.maxSize.toNat
        omega
      · show h.count < 2 * h.maxSize.toNat
        omega
  · rw [if_neg hfull]
    refine .inr ⟨h, rfl, hs, ?_, rfl, rfl, rfl⟩
    split at hint <;> omega

theorem Sifted.write {elem : α} {i' : Nat} {h' : SplPtrHeap α} {s s' : σ}
    {start : (α → α → Prop) → Prop} (hs : Sifted c n elem i h s start i' h' s')
    (hmax : h.maxSize.toNat = h.allocated) (hpos : 0 < h.allocated) (hcount : h.count = n) :
    ∃ h'', h'.write i' elem = .ok h'' ∧ h''.corrupted = h.corrupted ∧
      (∀ b, Sound { h'' with corrupted := b }) ∧ h''.stored = filled n h'.elements i' elem := by
  have hplace := length_place hs.hole.1 elem
  refine ⟨_, write_eq elem hs.hole.1 hs.hole.2, hs.room.corrupted, ?_, ?_⟩
  · intro b
    constructor
    · show h'.count ≤ (place h'.elements i' elem).length
      rw [hplace, hs.room.count, hcount]
      exact hs.length.2
    · show (place h'.elements i' elem).length ≤ h'.allocated
      have hhole := hs.hole.2
      have hfits := hs.fits
      omega
    · show h'.maxSize.toNat = h'.allocated
      rw [hs.room.maxSize, hs.room.allocated, hmax]
    · show 0 < h'.allocated
      rw [hs.room.allocated]
      exact hpos
  · show (place h'.elements i' elem).take h'.count = _
    rw [hs.room.count, hcount]
    rfl

/-- The outcome of a call that returns. -/
structure Called (c : Comparator σ α) (h h' : SplPtrHeap α) : Prop where
  sound : Sound h'
  corrupted : h'.corrupted = false → h.corrupted = false
  order : ∀ le, IsTrans α le → Std.Total le → c.Orders le → h'.corrupted = false →
    HeapOrdered le h.stored → HeapOrdered le h'.stored

theorem filled_insert (hn : n ≤ l.length) (x : α) :
    filled (n + 1) l n x = l.take n ++ [x] := by
  have hlen : (l.take n).length = n := by
    rw [List.length_take]
    omega
  apply List.ext_getElem?
  intro k
  rw [getElem?_filled hn, List.getElem?_append, hlen, List.getElem?_take]
  by_cases hk : k < n
  · simp [hk, show k < n + 1 by omega, show k ≠ n by omega]
  · by_cases hkn : k = n
    · simp [hkn]
    · simp [hk, show ¬ k < n + 1 by omega, show k - n ≠ 0 by omega]

theorem splPtrHeapInsert_called (hsound : Sound h) (elem : α) (s : σ) :
    splPtrHeapInsert c h elem s = .error .noMemory ∨
      ∃ h' s', splPtrHeapInsert c h elem s = .ok (h', s') ∧ Called c h h' ∧
        h'.stored.Perm (elem :: h.stored) := by
  unfold splPtrHeapInsert
  rcases hsound.grow with hgrow | ⟨h₁, hgrow, hsound₁, hroom, helems, hcount, hcorrupted⟩
  · rw [hgrow]
    exact .inl rfl
  · rw [hgrow]
    have hle := hsound₁.count_le
    obtain ⟨i, h₂, s₂, hsift, hs⟩ := siftUp_sifted (c := c) elem (n := h₁.count + 1) (i := h₁.count)
      (h := { h₁ with count := h₁.count + 1 }) s (by omega) hle
      (by show _ ≤ max h₁.elements.length _; omega) hroom hsound₁.length_le
    obtain ⟨h₃, hwrite, hcor, hsound₃, hstored⟩ :=
      hs.write hsound₁.maxSize hsound₁.allocated_pos rfl
    have hfilled : filled (h₁.count + 1) h₁.elements h₁.count elem = h.stored ++ [elem] := by
      rw [filled_insert hle, helems, hcount]
      rfl
    have hlen : h.stored.length = h₁.count := by
      rw [stored, List.length_take, hcount]
      exact Nat.min_eq_left hsound.count_le
    refine .inr ⟨{ h₃ with corrupted := h₃.corrupted || c.exception s₂ }, s₂, ?_, ?_, ?_⟩
    · show Except.bind (siftUp c elem h₁.count _ s) _ = _
      rw [hsift]
      show Except.bind (h₂.write i elem) _ = _
      rw [hwrite]
      rfl
    · refine ⟨hsound₃ _, ?_, ?_⟩
      · intro hfalse
        rw [Bool.or_eq_false_iff] at hfalse
        rw [← hcorrupted, ← hfalse.1, hcor]
      · intro le htrans htotal hord hfalse hheap
        rw [Bool.or_eq_false_iff] at hfalse
        show HeapOrdered le h₃.stored
        rw [hstored]
        refine hs.order le htrans htotal hord ?_ hfalse.2
        show Rising le (filled (h₁.count + 1) h₁.elements h₁.count elem) h₁.count
        rw [hfilled, ← hlen]
        exact hheap.append elem
    · show h₃.stored.Perm _
      rw [hstored]
      refine hs.perm.trans ?_
      show (filled (h₁.count + 1) h₁.elements h₁.count elem).Perm _
      rw [hfilled]
      exact List.perm_append_singleton _ _

theorem filled_deleteTop {top bottom : α} (htop : l[0]? = some top)
    (hbottom : l[n]? = some bottom) :
    (top :: filled n l 0 bottom).Perm (l.take (n + 1)) := by
  have hlt := (List.getElem?_eq_some_iff.mp hbottom).1
  have h0 : (l.take (n + 1))[0]? = some top := by
    rw [List.getElem?_take, if_pos (by omega), htop]
  have hn : (l.take (n + 1))[n]? = some bottom := by
    rw [List.getElem?_take, if_pos (by omega), hbottom]
  refine List.Perm.trans ?_ (swapped_perm h0 hn)
  have heq : swapped (l.take (n + 1)) 0 n top bottom = filled n l 0 bottom ++ [top] := by
    have hlen : (filled n l 0 bottom).length = n := by
      rw [filled, List.length_take, length_place (Nat.zero_le _)]
      omega
    apply List.ext_getElem?
    intro k
    rw [getElem?_swapped h0 hn, List.getElem?_append, hlen, getElem?_filled (Nat.zero_le _),
      List.getElem?_take]
    by_cases hk : k < n
    · simp [hk, show k ≠ n by omega, show k < n + 1 by omega]
    · by_cases hkn : k = n
      · simp [hkn]
      · simp [hk, hkn, show ¬ k < n + 1 by omega, show k ≠ 0 by omega, show k - n ≠ 0 by omega]
  rw [heq]
  exact (List.perm_append_singleton _ _).symm

theorem sinking_filled {le : α → α → Prop} (h : HeapOrdered le (l.take (n + 1))) (bottom : α) :
    Sinking le (filled n l 0 bottom) 0 := by
  constructor
  · intro k p hk hp y x hy hx
    rw [getElem?_filled (Nat.zero_le _)] at hy hx
    split at hy
    · rw [if_neg (Nat.ne_of_gt hk.1)] at hy
      split at hx
      · refine h k p hk y x ?_ ?_
        · rw [List.getElem?_take, if_pos (by omega), hy]
        · rw [List.getElem?_take, if_pos (by omega), hx]
      · exact nomatch hx
    · exact nomatch hy
  · intro k p hp _
    exact absurd hp.1 (Nat.lt_irrefl 0)

theorem splPtrHeapDeleteTop_called (hsound : Sound h) (s : σ) :
    ∃ top h' s', splPtrHeapDeleteTop c h s = .ok (top, h', s') ∧ Called c h h' ∧
      (top.toList ++ h'.stored).Perm h.stored ∧ h.stored[0]? = top := by
  unfold splPtrHeapDeleteTop
  have hle := hsound.count_le
  by_cases h0 : h.count = 0
  · rw [if_pos h0]
    refine ⟨none, h, s, rfl, ⟨hsound, id, fun le _ _ _ _ hheap => hheap⟩, List.Perm.refl _, ?_⟩
    rw [stored, h0]
    rfl
  · rw [if_neg h0]
    obtain ⟨top, htop, hreadt⟩ := read_eq (h := h) (i := 0) (by omega)
    obtain ⟨bottom, hbottom, hreadb⟩ := read_eq (h := h) (i := h.count - 1) (by omega)
    obtain ⟨i, h₂, s₂, hsift, hs⟩ := siftDown_sifted (c := c) bottom (i := 0)
      (h := { h with count := h.count - 1 }) s (Nat.zero_le _)
      (by show h.count - 1 < h.elements.length; omega) hsound.length_le hbottom
    obtain ⟨h₃, hwrite, hcor, hsound₃, hstored⟩ :=
      hs.write hsound.maxSize hsound.allocated_pos rfl
    have htake : h.stored = h.elements.take (h.count - 1 + 1) := by
      rw [stored, Nat.sub_add_cancel (by omega)]
    refine ⟨some top, { h₃ with corrupted := h₃.corrupted || c.exception s₂ }, s₂, ?_, ?_, ?_, ?_⟩
    · rw [hreadt]
      show Except.bind (h.read (h.count - 1)) _ = _
      rw [hreadb]
      show Except.bind (siftDown c bottom ((h.count - 1) / 2) 0 _ s) _ = _
      rw [hsift]
      show Except.bind (h₂.write i bottom) _ = _
      rw [hwrite]
      rfl
    · refine ⟨hsound₃ _, ?_, ?_⟩
      · intro hfalse
        rw [Bool.or_eq_false_iff] at hfalse
        rw [← hfalse.1, hcor]
      · intro le htrans htotal hord hfalse hheap
        rw [Bool.or_eq_false_iff] at hfalse
        show HeapOrdered le h₃.stored
        rw [hstored]
        refine hs.order le htrans htotal hord ?_ hfalse.2
        rw [htake] at hheap
        exact sinking_filled hheap bottom
    · show (top :: h₃.stored).Perm _
      rw [hstored, htake]
      exact (hs.perm.cons top).trans (filled_deleteTop htop hbottom)
    · rw [stored, List.getElem?_take, if_pos (by omega), htop]

end SplPtrHeap

namespace HeapHistory

variable {α σ : Type} {c : SplPtrHeap.Comparator σ α}

structure Good (c : SplPtrHeap.Comparator σ α) (r : HeapHistory α) : Prop where
  sound : SplPtrHeap.Sound r.heap
  contents : Multiset.ofList r.heap.stored + r.extracted = r.inserted
  order : ∀ le, IsTrans α le → Std.Total le → c.Orders le → r.heap.corrupted = false →
    HeapOrdered le r.heap.stored

def step (c : SplPtrHeap.Comparator σ α) (r : HeapHistory α) (call : HeapCall σ α) :
    Option (HeapHistory α) := (r.call c call).toOption

theorem good_init : Good c init := by
  refine ⟨SplPtrHeap.sound_init, rfl, ?_⟩
  intro le _ _ _ _ k p _ y x hy
  exact nomatch hy

theorem Good.call_insert {r : HeapHistory α} (h : Good c r) (elem : α) (s : σ) :
    r.call c (.insert elem s) = .error .noMemory ∨
      ∃ r', r.call c (.insert elem s) = .ok r' ∧ Good c r' := by
  rw [call]
  rcases SplPtrHeap.splPtrHeapInsert_called (c := c) h.sound elem s with heq | ⟨h', s', heq, hc, hp⟩
  · rw [heq]
    exact .inl rfl
  · rw [heq]
    refine .inr ⟨_, rfl, hc.sound, ?_, ?_⟩
    · show Multiset.ofList h'.stored + r.extracted = elem ::ₘ r.inserted
      rw [Multiset.coe_eq_coe.mpr hp, ← h.contents, ← Multiset.cons_coe, Multiset.cons_add]
    · intro le htrans htotal hord hcor
      exact hc.order le htrans htotal hord hcor (h.order le htrans htotal hord (hc.corrupted hcor))

theorem Good.call_deleteTop {r : HeapHistory α} (h : Good c r) (s : σ) :
    ∃ top heap s', SplPtrHeap.splPtrHeapDeleteTop c r.heap s = .ok (top, heap, s') ∧
      r.call c (.deleteTop s) =
        .ok { r with heap := heap, extracted := Multiset.ofList top.toList + r.extracted } ∧
      Good c { r with heap := heap, extracted := Multiset.ofList top.toList + r.extracted } ∧
      r.heap.stored[0]? = top ∧
      ∀ le, IsTrans α le → Std.Total le → c.Orders le → heap.corrupted = false →
        ∀ x ∈ top, ∀ y ∈ heap.stored, le y x := by
  obtain ⟨top, heap, s', heq, hc, hp, hfirst⟩ :=
    SplPtrHeap.splPtrHeapDeleteTop_called (c := c) h.sound s
  refine ⟨top, heap, s', heq, ?_, ⟨hc.sound, ?_, ?_⟩, hfirst, ?_⟩
  · rw [call, heq]
    rfl
  · show Multiset.ofList heap.stored + (Multiset.ofList top.toList + r.extracted) = r.inserted
    rw [← h.contents, ← Multiset.coe_eq_coe.mpr hp, ← Multiset.coe_add, ← Multiset.add_assoc]
    rw [Multiset.add_comm (Multiset.ofList heap.stored)]
  · intro le htrans htotal hord hcor
    exact hc.order le htrans htotal hord hcor (h.order le htrans htotal hord (hc.corrupted hcor))
  · intro le htrans htotal hord hcor x hx y hy
    have hheap := h.order le htrans htotal hord (hc.corrupted hcor)
    have hmem : y ∈ r.heap.stored := hp.subset (List.mem_append_right _ hy)
    exact hheap.le_head (hfirst.trans hx) hmem

theorem Good.step {r r' : HeapHistory α} (h : Good c r) (call : HeapCall σ α)
    (hstep : step c r call = some r') : Good c r' := by
  unfold HeapHistory.step at hstep
  cases call with
  | insert elem s =>
    rcases h.call_insert elem s with heq | ⟨r₁, heq, hgood⟩
    · rw [heq] at hstep
      exact nomatch hstep
    · rw [heq] at hstep
      rwa [← Option.some.inj hstep]
  | deleteTop s =>
    obtain ⟨top, heap, s', -, heq, hgood, -⟩ := h.call_deleteTop s
    rw [heq] at hstep
    rwa [← Option.some.inj hstep]

/-- After every sequence of calls: the stored elements are those inserted and not extracted, no call
    reads or writes outside the array, and as long as there was no exception, a comparator that is a
    total preorder makes the next extracted element one that no stored element exceeds. -/
theorem heap_orderAndConservation {calls : List (HeapCall σ α)} {r : HeapHistory α}
    (hrun : Run (step c) (fun _ _ => True) init calls r) :
    Multiset.ofList r.heap.stored + r.extracted = r.inserted ∧
      (∀ call, r.call c call ≠ .error .outside) ∧
      ∀ s, ∃ top heap s', SplPtrHeap.splPtrHeapDeleteTop c r.heap s = .ok (top, heap, s') ∧
        (top = none → r.heap.stored = []) ∧
        ∀ le, IsTrans α le → Std.Total le → c.Orders le → heap.corrupted = false →
          ∀ x ∈ top, ∀ y ∈ heap.stored, le y x := by
  have hgood : Good c r := hrun.invariant good_init fun _ op _ h _ hst => h.step op hst
  refine ⟨hgood.contents, ?_, ?_⟩
  · intro call
    cases call with
    | insert elem s =>
      rcases hgood.call_insert elem s with heq | ⟨r', heq, -⟩
      · rw [heq]
        exact nofun
      · rw [heq]
        exact nofun
    | deleteTop s =>
      obtain ⟨top, heap, s', -, heq, -⟩ := hgood.call_deleteTop s
      rw [heq]
      exact nofun
  · intro s
    obtain ⟨top, heap, s', heq, -, -, hfirst, horder⟩ := hgood.call_deleteTop s
    refine ⟨top, heap, s', heq, ?_, horder⟩
    intro hnone
    rw [hnone] at hfirst
    exact List.eq_nil_of_length_eq_zero (Nat.le_zero.mp (List.getElem?_eq_none_iff.mp hfirst))

def intComparator : SplPtrHeap.Comparator Unit Int :=
  { cmp := fun a b _ => (a - b, ()), exception := fun _ => false, cmp_pending := nofun }

/-- Three insertions and an extraction. -/
theorem heap_orderAndConservation_ints :
    ∃ r : HeapHistory Int, Multiset.ofList r.heap.stored + {5} = {2, 5, 3} ∧
      ∀ s, ∃ top heap s', SplPtrHeap.splPtrHeapDeleteTop intComparator r.heap s =
        .ok (top, heap, s') ∧ (top = none → r.heap.stored = []) ∧
        ∀ le, IsTrans Int le → Std.Total le → intComparator.Orders le → heap.corrupted = false →
          ∀ x ∈ top, ∀ y ∈ heap.stored, le y x := by
  have hexec : ((exec (step intComparator) (fun _ _ => True) init
      [.insert 3 (), .insert 5 (), .insert 2 (), .deleteTop ()]).map
        fun r => (r.inserted, r.extracted)) = some ({2, 5, 3}, {5}) := by decide +kernel
  obtain ⟨r, hexec, hr⟩ := Option.map_eq_some_iff.mp hexec
  obtain ⟨hins, hext⟩ := Prod.mk.inj hr
  have hstart : Run (step intComparator) (fun _ _ => True) init [] init := Run.nil init
  have hrun := Run.append_exec hstart hexec
  obtain ⟨hcontents, -, htop⟩ := heap_orderAndConservation hrun
  exact ⟨r, by rw [← hext, hcontents, hins], htop⟩

end HeapHistory

end Php53.Spl
