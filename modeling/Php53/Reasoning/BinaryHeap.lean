import Mathlib.Algebra.GroupWithZero.Nat
import Mathlib.Data.List.Basic
import Mathlib.Order.Defs.Unbundled

/-!
# BinaryHeap — binary heaps in lists

The children of position `p` are `2 * p + 1` and `2 * p + 2`.  A heap is ordered when no element
exceeds its parent.  An element that is on its way through the heap may break that at one place:
with its parent while it rises, with its children while it sinks.  A step on the way swaps it with
the element in its path.
-/

namespace Reasoning

variable {α : Type}

variable {i j : Nat} {l : List α}

/-- The list with the elements of two positions exchanged; `x` is at `i` and `y` at `j`. -/
def swapped (l : List α) (i j : Nat) (x y : α) : List α := (l.set i y).set j x

theorem getElem?_swapped {x y : α} (hi : l[i]? = some x) (hj : l[j]? = some y) (k : Nat) :
    (swapped l i j x y)[k]? = if k = j then some x else if k = i then some y else l[k]? := by
  have hilt := (List.getElem?_eq_some_iff.mp hi).1
  have hjlt := (List.getElem?_eq_some_iff.mp hj).1
  unfold swapped
  by_cases hkj : k = j
  · subst hkj
    simp [hjlt]
  · by_cases hki : k = i
    · subst hki
      simp [hkj, Ne.symm hkj, hilt]
    · simp [hkj, hki, Ne.symm hkj, Ne.symm hki]

theorem swapped_perm {x y : α} (hi : l[i]? = some x)
    (hj : l[j]? = some y) : (swapped l i j x y).Perm l := by
  obtain ⟨hilt, rfl⟩ := List.getElem?_eq_some_iff.mp hi
  obtain ⟨hjlt, rfl⟩ := List.getElem?_eq_some_iff.mp hj
  exact List.set_set_perm hilt hjlt

/-- The list with `x` at position `i`, which may be the one behind the last. -/
def place (l : List α) (i : Nat) (x : α) : List α := if i < l.length then l.set i x else l ++ [x]

theorem getElem?_place (hi : i ≤ l.length) (x : α) (k : Nat) :
    (place l i x)[k]? = if k = i then some x else l[k]? := by
  unfold place
  by_cases hlt : i < l.length
  · rw [if_pos hlt, List.getElem?_set]
    by_cases hk : k = i
    · simp [hk, hlt]
    · simp [hk, Ne.symm hk]
  · rw [if_neg hlt, List.getElem?_append]
    by_cases hk : k = i
    · simp [hk, show i - l.length = 0 by omega, hlt]
    · by_cases hkl : k < l.length
      · simp [hk, hkl]
      · have h1 : k - l.length ≠ 0 := by omega
        simp [hk, hkl, h1]

theorem length_place (hi : i ≤ l.length) (x : α) :
    (place l i x).length = max l.length (i + 1) := by
  unfold place
  split
  · rw [List.length_set]
    omega
  · rw [List.length_append, List.length_singleton]
    omega

/-- The first `n` elements, with `x` at position `i`: where an array has a hole at `i` that `x` is
to fill, what the array stands for. -/
def filled (n : Nat) (l : List α) (i : Nat) (x : α) : List α := (place l i x).take n

theorem getElem?_filled (hi : i ≤ l.length) (n : Nat) (x : α) (k : Nat) :
    (filled n l i x)[k]? = if k < n then if k = i then some x else l[k]? else none := by
  unfold filled
  rw [List.getElem?_take, getElem?_place hi]

theorem filled_move {n : Nat} {x y : α} (hi : i ≤ l.length) (hin : i < n) (hjn : j < n)
    (hj : l[j]? = some y) (hij : j ≠ i) :
    filled n (place l i y) j x = swapped (filled n l i x) i j x y := by
  have hjlt := (List.getElem?_eq_some_iff.mp hj).1
  have hlen : j ≤ (place l i y).length := by
    rw [length_place hi]
    omega
  have hxi : (filled n l i x)[i]? = some x := by
    rw [getElem?_filled hi, if_pos hin, if_pos rfl]
  have hyj : (filled n l i x)[j]? = some y := by
    rw [getElem?_filled hi, if_pos hjn, if_neg hij, hj]
  apply List.ext_getElem?
  intro k
  rw [getElem?_filled hlen, getElem?_place hi, getElem?_swapped hxi hyj, getElem?_filled hi]
  by_cases hk : k < n
  · simp only [hk, if_true]
    split <;> rename_i hkj
    · rfl
    · split <;> rfl
  · have hkj : k ≠ j := by omega
    have hki : k ≠ i := by omega
    simp only [hk, hkj, hki, if_false]

/-- `c` is a child of `p`. -/
def IsChild (c p : Nat) : Prop := 0 < c ∧ (c - 1) / 2 = p

variable (le : α → α → Prop)

/-- The elements at two positions, if there are any, are in order: `le` from `c` to `p`. -/
def Below (l : List α) (c p : Nat) : Prop := ∀ y x, l[c]? = some y → l[p]? = some x → le y x

def HeapOrdered (l : List α) : Prop := ∀ c p, IsChild c p → Below le l c p

/-- Only the element at `i` may exceed its parent. -/
structure Rising (l : List α) (i : Nat) : Prop where
  off : ∀ c p, IsChild c p → c ≠ i → Below le l c p
  grand : ∀ c p, IsChild i p → IsChild c i → Below le l c p

/-- Only the element at `i` may be exceeded by its children. -/
structure Sinking (l : List α) (i : Nat) : Prop where
  off : ∀ c p, IsChild c p → p ≠ i → Below le l c p
  grand : ∀ c p, IsChild i p → IsChild c i → Below le l c p

variable {le}

theorem Rising.done (h : Rising le l i)
    (hi : ∀ p, IsChild i p → Below le l i p) : HeapOrdered le l := by
  intro c p hc
  by_cases hci : c = i
  · subst hci
    exact hi p hc
  · exact h.off c p hc hci

theorem Sinking.done (h : Sinking le l i)
    (hi : ∀ c, IsChild c i → Below le l c i) : HeapOrdered le l := by
  intro c p hc
  by_cases hpi : p = i
  · subst hpi
    exact hi c hc
  · exact h.off c p hc hpi

theorem HeapOrdered.append (h : HeapOrdered le l) (x : α) :
    Rising le (l ++ [x]) l.length := by
  have hold : ∀ k y, k ≠ l.length → (l ++ [x])[k]? = some y → l[k]? = some y := by
    intro k y hk hy
    have hlt := (List.getElem?_eq_some_iff.mp hy).1
    rw [List.length_append, List.length_singleton] at hlt
    rwa [List.getElem?_append_left (by omega)] at hy
  constructor
  · intro c p hc hne y z hy hz
    have hylt := (List.getElem?_eq_some_iff.mp (hold c y hne hy)).1
    have hp : p ≠ l.length := by unfold IsChild at hc; omega
    exact h c p hc y z (hold c y hne hy) (hold p z hp hz)
  · intro c p hp hc y z hy hz
    -- the new element is the last one and has no children
    have hlt := (List.getElem?_eq_some_iff.mp hy).1
    rw [List.length_append, List.length_singleton] at hlt
    unfold IsChild at hc
    omega

theorem Sinking.swap {x y : α} (h : Sinking le l i) (hji : IsChild j i) (hi : l[i]? = some x)
    (hj : l[j]? = some y) (hlt : le x y) (hbest : ∀ c, IsChild c i → ∀ z, l[c]? = some z → le z y) :
    Sinking le (swapped l i j x y) j := by
  have hget := getElem?_swapped hi hj
  have hne : i ≠ j := by unfold IsChild at hji; omega
  constructor
  · intro c q hc hqj b a hb ha
    rw [hget] at hb ha
    rw [if_neg hqj] at ha
    by_cases hqi : q = i
    · rw [if_pos hqi] at ha
      obtain rfl := Option.some.inj ha
      by_cases hcj : c = j
      · rw [if_pos hcj] at hb
        rwa [← Option.some.inj hb]
      · have hci : c ≠ i := by unfold IsChild at hc; omega
        rw [if_neg hcj, if_neg hci] at hb
        exact hbest c (hqi ▸ hc) b hb
    · rw [if_neg hqi] at ha
      have hcj : c ≠ j := by
        rintro rfl
        exact hqi (hc.2.symm.trans hji.2)
      rw [if_neg hcj] at hb
      by_cases hci : c = i
      · rw [if_pos hci] at hb
        obtain rfl := Option.some.inj hb
        exact h.grand j q (hci ▸ hc) hji y a hj ha
      · rw [if_neg hci] at hb
        exact h.off c q hc hqi b a hb ha
  · intro c q hjq hc b a hb ha
    rw [hget] at hb ha
    obtain rfl : q = i := hjq.2.symm.trans hji.2
    have hcj : c ≠ j := by unfold IsChild at hc; omega
    have hcq : c ≠ q := by unfold IsChild at hc hjq; omega
    rw [if_neg hcj, if_neg hcq] at hb
    rw [if_neg hne, if_pos rfl] at ha
    obtain rfl := Option.some.inj ha
    exact h.off c j hc (Ne.symm hne) b y hb hj

variable [IsTrans α le]

theorem Rising.swap {p : Nat} {x y : α} (h : Rising le l i) (hip : IsChild i p)
    (hi : l[i]? = some x) (hp : l[p]? = some y) (hlt : le y x) :
    Rising le (swapped l i p x y) p := by
  have hget := getElem?_swapped hi hp
  have hne : p ≠ i := by unfold IsChild at hip; omega
  constructor
  · intro c q hc hcp b a hb ha
    rw [hget] at hb ha
    rw [if_neg hcp] at hb
    by_cases hqp : q = p
    · rw [if_pos hqp] at ha
      obtain rfl := Option.some.inj ha
      by_cases hci : c = i
      · rw [if_pos hci] at hb
        rwa [← Option.some.inj hb]
      · rw [if_neg hci] at hb
        exact IsTrans.trans _ _ _ (h.off c q hc hci b y hb (hqp ▸ hp)) hlt
    · rw [if_neg hqp] at ha
      have hci : c ≠ i := by
        rintro rfl
        exact hqp (hc.2.symm.trans hip.2)
      rw [if_neg hci] at hb
      by_cases hqi : q = i
      · rw [if_pos hqi] at ha
        exact h.grand c p hip (hqi ▸ hc) b a hb (ha ▸ hp)
      · rw [if_neg hqi] at ha
        exact h.off c q hc hci b a hb ha
  · intro c q hpq hc b a hb ha
    rw [hget] at hb ha
    have hcp : c ≠ p := by unfold IsChild at hc; omega
    have hqp : q ≠ p := by unfold IsChild at hpq; omega
    have hqi : q ≠ i := by unfold IsChild at hpq hip; omega
    rw [if_neg hcp] at hb
    rw [if_neg hqp, if_neg hqi] at ha
    have hya : le y a := h.off p q hpq hne y a hp ha
    by_cases hci : c = i
    · rw [if_pos hci] at hb
      rwa [← Option.some.inj hb]
    · rw [if_neg hci] at hb
      exact IsTrans.trans _ _ _ (h.off c p hc hci b y hb hp) hya

theorem HeapOrdered.le_head [Std.Refl le] (h : HeapOrdered le l) {x : α} (hx : l[0]? = some x)
    {y : α} (hy : y ∈ l) : le y x := by
  obtain ⟨k, hk⟩ := List.mem_iff_getElem?.mp hy
  clear hy
  induction k using Nat.strongRecOn generalizing y with
  | ind k ih =>
    by_cases hk0 : k = 0
    · subst hk0
      rw [hx] at hk
      rw [Option.some.inj hk]
      exact Std.Refl.refl y
    · have hlt := (List.getElem?_eq_some_iff.mp hk).1
      have hplt : (k - 1) / 2 < l.length := by omega
      have hp : l[(k - 1) / 2]? = some l[(k - 1) / 2] := List.getElem?_eq_getElem hplt
      have hstep : le y l[(k - 1) / 2] := h k _ ⟨by omega, rfl⟩ y _ hk hp
      exact IsTrans.trans _ _ _ hstep (ih _ (by omega) hp)

end Reasoning
