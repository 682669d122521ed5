import Php53.Zend.Sort.Qsort

/-!
# Swap — two elements of an array of bytes

`_zend_qsort_swap` exchanges an `int` at a time and then the bytes that are left.  Two elements are
apart or the same one.
-/

open Reasoning

namespace Php53.Zend

open List

variable {m mem p q x y : List UInt8} {a b siz : Nat}

theorem exchange_eq (hxy : y.length = x.length) :
    exchange x.length (p ++ x ++ m ++ y ++ q) p.length (p ++ x ++ m).length = p ++ y ++ m ++ x ++ q := by
  have hx : ((p ++ x ++ m ++ y ++ q).drop p.length).take x.length = x := by
    simp [append_assoc]
  have hy : ((p ++ x ++ m ++ y ++ q).drop (p ++ x ++ m).length).take x.length = y := by
    rw [append_assoc (p ++ x ++ m), drop_left, ← hxy, take_left]
  have hfront : (p ++ x ++ m ++ y ++ q).take p.length ++ y ++
      (p ++ x ++ m ++ y ++ q).drop (p.length + x.length) = (p ++ y ++ m) ++ (y ++ q) := by
    simp [append_assoc, ← drop_drop]
  have hlen : (p ++ x ++ m).length = (p ++ y ++ m).length := by
    simp [hxy]
  unfold exchange
  dsimp only
  rw [hx, hy, hfront, hlen, take_left, ← drop_drop, drop_left, ← hxy, drop_left]

theorem exchange_comm_eq (hxy : y.length = x.length) :
    exchange x.length (p ++ x ++ m ++ y ++ q) (p ++ x ++ m).length p.length = p ++ y ++ m ++ x ++ q := by
  have hx : ((p ++ x ++ m ++ y ++ q).drop p.length).take x.length = x := by
    simp [append_assoc]
  have hy : ((p ++ x ++ m ++ y ++ q).drop (p ++ x ++ m).length).take x.length = y := by
    rw [append_assoc (p ++ x ++ m), drop_left, ← hxy, take_left]
  have hback : (p ++ x ++ m ++ y ++ q).take (p ++ x ++ m).length ++ x ++
      (p ++ x ++ m ++ y ++ q).drop ((p ++ x ++ m).length + x.length) = p ++ (x ++ (m ++ x ++ q)) := by
    rw [append_assoc (p ++ x ++ m), take_left, ← drop_drop, drop_left, ← hxy,
      drop_left]
    simp [append_assoc]
  unfold exchange
  dsimp only
  rw [hx, hy, hback, take_left, ← drop_drop, drop_left, drop_left]
  simp [append_assoc]

/-- `a` and `b` point to `x` and `y`, or the other way round. -/
def PointsTo (p x m : List UInt8) (a b : Nat) : Prop :=
  a = p.length ∧ b = (p ++ x ++ m).length ∨ a = (p ++ x ++ m).length ∧ b = p.length

theorem exchange_pair (hxy : y.length = x.length) (h : PointsTo p x m a b) :
    exchange x.length (p ++ x ++ m ++ y ++ q) a b = p ++ y ++ m ++ x ++ q := by
  rcases h with ⟨rfl, rfl⟩ | ⟨rfl, rfl⟩
  · exact exchange_eq hxy
  · exact exchange_comm_eq hxy

theorem swapLoop_eq {width : Nat} (hwidth : 0 < width) (q : List UInt8) (fuel : Nat) {i : Nat}
    (hxy : y.length = x.length) (hi : i + x.length = siz + width) (h : PointsTo p x m a b)
    (hfuel : x.length < fuel) :
    ∃ x₁ x₂ y₁ y₂, x = x₁ ++ x₂ ∧ y = y₁ ++ y₂ ∧ y₁.length = x₁.length ∧ x₂.length < width ∧
      ∃ a' b', swapLoop width siz fuel i (p ++ x ++ m ++ y ++ q, a, b) =
          (i + x₁.length, p ++ y₁ ++ x₂ ++ (m ++ x₁) ++ y₂ ++ q, a', b') ∧
        PointsTo (p ++ y₁) x₂ (m ++ x₁) a' b' := by
  induction fuel generalizing i a b p x m y with
  | zero => omega
  | succ fuel ih =>
    rw [swapLoop]
    by_cases hle : i ≤ siz
    · rw [if_pos hle]
      obtain ⟨x₁, x₂, rfl, hx₁⟩ : ∃ x₁ x₂, x = x₁ ++ x₂ ∧ x₁.length = width :=
        ⟨x.take width, x.drop width, (take_append_drop _ _).symm, by rw [length_take]; omega⟩
      rw [length_append] at hxy hi hfuel
      obtain ⟨y₁, y₂, rfl, hy₁⟩ : ∃ y₁ y₂, y = y₁ ++ y₂ ∧ y₁.length = width :=
        ⟨y.take width, y.drop width, (take_append_drop _ _).symm, by rw [length_take]; omega⟩
      rw [length_append] at hxy
      subst hx₁
      have hpoints : PointsTo p x₁ (x₂ ++ m) a b := by
        simpa [PointsTo, Nat.add_assoc] using h
      have hmem : p ++ (x₁ ++ x₂) ++ m ++ (y₁ ++ y₂) ++ q = p ++ x₁ ++ (x₂ ++ m) ++ y₁ ++ (y₂ ++ q) := by
        simp only [append_assoc]
      have hnext : p ++ y₁ ++ (x₂ ++ m) ++ x₁ ++ (y₂ ++ q) = (p ++ y₁) ++ x₂ ++ (m ++ x₁) ++ y₂ ++ q := by
        simp only [append_assoc]
      rw [hmem, exchange_pair hy₁ hpoints, hnext]
      have hpoints' : PointsTo (p ++ y₁) x₂ (m ++ x₁) (a + x₁.length) (b + x₁.length) := by
        unfold PointsTo at h ⊢
        simp only [length_append] at h ⊢
        omega
      have hxy' : y₂.length = x₂.length := by omega
      have hi' : i + x₁.length + x₂.length = siz + x₁.length := by omega
      obtain ⟨x₃, x₄, y₃, y₄, rfl, rfl, hlen, hlt, a', b', hloop, hend⟩ :=
        ih hxy' hi' hpoints' (by omega)
      refine ⟨x₁ ++ x₃, x₄, y₁ ++ y₃, y₄, by simp, by simp, by simp [hlen, hy₁], hlt, a', b', ?_, ?_⟩
      · rw [hloop]
        simp only [append_assoc, length_append, Nat.add_assoc]
      · simpa only [append_assoc] using hend
    · rw [if_neg hle]
      refine ⟨[], x, [], y, rfl, rfl, rfl, by omega, a, b, ?_, ?_⟩
      · simp
      · simpa using h

theorem zendQsortSwap_eq (hx : x.length = siz) (hy : y.length = siz) (h : PointsTo p x m a b) :
    zendQsortSwap siz (p ++ x ++ m ++ y ++ q) a b = p ++ y ++ m ++ x ++ q := by
  have hints : 4 + x.length = siz + 4 := by omega
  obtain ⟨x₁, x₂, y₁, y₂, rfl, rfl, hlen, hlt, a', b', hloop, hend⟩ :=
    swapLoop_eq (by decide) q (siz + 1) (hy.trans hx.symm) hints h (by omega)
  rw [length_append] at hx hy
  have hxy : y₂.length = x₂.length := by omega
  have hchars : 4 + x₁.length - 4 + 1 + x₂.length = siz + 1 := by omega
  obtain ⟨x₃, x₄, y₃, y₄, rfl, rfl, hlen', hlt', a'', b'', hloop', -⟩ :=
    swapLoop_eq (by decide) q (siz + 1) hxy hchars hend (by omega)
  rw [length_append] at hx hy
  obtain rfl := eq_nil_of_length_eq_zero (Nat.lt_one_iff.mp hlt')
  rw [length_nil] at hx
  obtain rfl : y₄ = [] := eq_nil_of_length_eq_zero (by omega)
  unfold zendQsortSwap
  rw [hloop]
  dsimp only
  rw [hloop']
  simp

theorem exchange_self {width : Nat} (h : a + width ≤ mem.length) :
    exchange width mem a a = mem := by
  have hlen : (mem.take a).length = a := by
    rw [length_take]
    omega
  have hmem : mem.take a ++ (mem.drop a).take width ++ mem.drop (a + width) = mem := by
    rw [append_assoc, ← drop_drop, take_append_drop, take_append_drop]
  unfold exchange
  dsimp only
  rw [hmem, hmem]

theorem swapLoop_self (width siz fuel i a : Nat) (h : a + siz + width ≤ mem.length + i) :
    ∃ i' a', swapLoop width siz fuel i (mem, a, a) = (i', mem, a', a') ∧
      a' + siz + width ≤ mem.length + i' ∧ a' + i = a + i' := by
  induction fuel generalizing i a with
  | zero => exact ⟨i, a, rfl, h, rfl⟩
  | succ fuel ih =>
    rw [swapLoop]
    by_cases hle : i ≤ siz
    · rw [if_pos hle, exchange_self (by omega)]
      obtain ⟨i', a', hloop, hend, hsum⟩ := ih (i + width) (a + width) (by omega)
      exact ⟨i', a', hloop, hend, by omega⟩
    · rw [if_neg hle]
      exact ⟨i, a, rfl, h, rfl⟩

theorem zendQsortSwap_self (h : a + siz ≤ mem.length) :
    zendQsortSwap siz mem a a = mem := by
  have hints : a + siz + 4 ≤ mem.length + 4 := by omega
  obtain ⟨i, b, hloop, hend, hsum⟩ := swapLoop_self 4 siz (siz + 1) 4 a hints
  have hchars : b + siz + 1 ≤ mem.length + (i - 4 + 1) := by omega
  obtain ⟨i', b', hloop', -, -⟩ := swapLoop_self 1 siz (siz + 1) (i - 4 + 1) b hchars
  unfold zendQsortSwap
  rw [hloop]
  dsimp only
  rw [hloop']

/-- The bytes are those of the elements, one behind the other. -/
structure Elements (siz : Nat) (l : List (List UInt8)) (mem : List UInt8) : Prop where
  flatten : mem = l.flatten
  length : ∀ x ∈ l, x.length = siz

section Elements

variable {siz : Nat} {l : List (List UInt8)} {mem : List UInt8}

variable {i j : Nat} {x y : List UInt8}

theorem length_flatten_elements (h : ∀ x ∈ l, x.length = siz) : l.flatten.length = siz * l.length := by
  induction l with
  | nil => simp
  | cons x l ih =>
    rw [flatten_cons, length_append, h x (by simp), ih fun y hy => h y (by simp [hy]),
      length_cons, Nat.mul_succ]
    omega

theorem split_two (hij : i < j) (hi : l[i]? = some x) (hj : l[j]? = some y) :
    ∃ l₁ l₂ l₃, l = l₁ ++ x :: (l₂ ++ y :: l₃) ∧ l₁.length = i ∧ i + 1 + l₂.length = j := by
  obtain ⟨hilt, rfl⟩ := List.getElem?_eq_some_iff.mp hi
  obtain ⟨hjlt, rfl⟩ := List.getElem?_eq_some_iff.mp hj
  refine ⟨l.take i, (l.drop (i + 1)).take (j - (i + 1)), l.drop (j + 1), ?_, ?_, ?_⟩
  · have htail : (l.drop (i + 1)).drop (j - (i + 1)) = l[j] :: l.drop (j + 1) := by
      rw [drop_drop, Nat.add_sub_cancel' hij, drop_eq_getElem_cons hjlt]
    rw [← htail, take_append_drop, ← drop_eq_getElem_cons hilt, take_append_drop]
  · rw [length_take]
    omega
  · rw [length_take, length_drop]
    omega

theorem swapped_split (l₁ l₂ l₃ : List (List UInt8)) (x y : List UInt8) :
    swapped (l₁ ++ x :: (l₂ ++ y :: l₃)) l₁.length (l₁.length + 1 + l₂.length) x y =
      l₁ ++ y :: (l₂ ++ x :: l₃) := by
  unfold swapped
  rw [set_append_right _ _ (Nat.le_refl _), Nat.sub_self, set_cons_zero,
    set_append_right _ _ (by omega), Nat.add_assoc, Nat.add_sub_cancel_left, Nat.add_comm 1,
    set_cons_succ, set_append_right _ _ (Nat.le_refl _), Nat.sub_self, set_cons_zero]

theorem swapped_comm (hi : l[i]? = some x) (hj : l[j]? = some y) :
    swapped l i j x y = swapped l j i y x := by
  apply ext_getElem?
  intro k
  rw [getElem?_swapped hi hj, getElem?_swapped hj hi]
  by_cases hki : k = i
  · by_cases hkj : k = j
    · subst hki
      subst hkj
      rw [if_pos rfl, if_pos rfl, ← hi, hj]
    · rw [if_neg hkj]
      rw [if_pos hki, if_pos hki]
  · rw [if_neg hki, if_neg hki]

theorem Elements.swap_pair {l₁ l₂ l₃ : List (List UInt8)} {a b : Nat}
    (h : Elements siz (l₁ ++ x :: (l₂ ++ y :: l₃)) mem)
    (hab : a = siz * l₁.length ∧ b = siz * (l₁.length + 1 + l₂.length) ∨
      a = siz * (l₁.length + 1 + l₂.length) ∧ b = siz * l₁.length) :
    zendQsortSwap siz mem a b = (l₁ ++ y :: (l₂ ++ x :: l₃)).flatten := by
  have hx := h.length x (by simp)
  have hlen₁ := length_flatten_elements (l := l₁) fun z hz => h.length z (by simp [hz])
  have hlen₂ := length_flatten_elements (l := l₂) fun z hz => h.length z (by simp [hz])
  have hpoints : PointsTo l₁.flatten x l₂.flatten a b := by
    unfold PointsTo
    rw [length_append, length_append, hlen₁, hlen₂, hx]
    rw [Nat.mul_add, Nat.mul_add, Nat.mul_one] at hab
    exact hab
  have hflat : mem = l₁.flatten ++ x ++ l₂.flatten ++ y ++ l₃.flatten := by
    rw [h.flatten]
    simp
  rw [hflat, zendQsortSwap_eq hx (h.length y (by simp)) hpoints]
  simp

theorem Elements.swap (h : Elements siz l mem) (hi : l[i]? = some x) (hj : l[j]? = some y) :
    Elements siz (swapped l i j x y) (zendQsortSwap siz mem (siz * i) (siz * j)) := by
  constructor
  · rcases Nat.lt_trichotomy i j with hlt | rfl | hgt
    · obtain ⟨l₁, l₂, l₃, rfl, rfl, rfl⟩ := split_two hlt hi hj
      rw [swapped_split]
      exact h.swap_pair (Or.inl ⟨rfl, rfl⟩)
    · obtain rfl : x = y := Option.some.inj (hi.symm.trans hj)
      have hsame : swapped l i i x x = l := by
        obtain ⟨hlt, rfl⟩ := List.getElem?_eq_some_iff.mp hi
        simp [swapped]
      have hlen : siz * i + siz ≤ mem.length := by
        have hlt := (List.getElem?_eq_some_iff.mp hi).1
        rw [h.flatten, length_flatten_elements h.length, ← Nat.mul_succ]
        exact Nat.mul_le_mul_left siz hlt
      rw [hsame, zendQsortSwap_self hlen, h.flatten]
    · rw [swapped_comm hi hj]
      obtain ⟨l₁, l₂, l₃, rfl, rfl, rfl⟩ := split_two hgt hj hi
      rw [swapped_split]
      exact h.swap_pair (Or.inr ⟨rfl, rfl⟩)
  · intro z hz
    exact h.length z ((swapped_perm hi hj).mem_iff.mp hz)

theorem Elements.isElement (h : Elements siz l mem) (hi : i < l.length) :
    IsElement siz mem (siz * i : Nat) := by
  have hle : siz * i + siz ≤ mem.length := by
    rw [h.flatten, length_flatten_elements h.length, ← Nat.mul_succ]
    exact Nat.mul_le_mul_left siz hi
  refine ⟨Int.natCast_nonneg _, by omega, ?_⟩
  rw [Int.natCast_mul]
  exact Int.mul_emod_right _ _

theorem Elements.element (h : Elements siz l mem) (hi : l[i]? = some x) :
    element siz mem (siz * i : Nat) = x := by
  obtain ⟨hlt, rfl⟩ := List.getElem?_eq_some_iff.mp hi
  have hsplit : l = l.take i ++ l[i] :: l.drop (i + 1) := by simp
  have hlen : (l.take i).flatten.length = siz * i := by
    rw [length_flatten_elements fun z hz => h.length z (mem_of_mem_take hz), length_take,
      Nat.min_eq_left (Nat.le_of_lt hlt)]
  have hflat : mem = (l.take i).flatten ++ (l[i] ++ (l.drop (i + 1)).flatten) := by
    have hflatten := congrArg List.flatten hsplit
    rwa [flatten_append, flatten_cons, ← h.flatten] at hflatten
  unfold Zend.element
  rw [Int.toNat_natCast, hflat, ← hlen, drop_left, ← h.length l[i] (getElem_mem hlt),
    take_left]

end Elements

end Php53.Zend
