import Php53.Reasoning.Comparison

/-!
# SortedCursors — going through a sorted list along with others

A list `xs` is gone through from its smallest element.  Another sorted list `all` has a cursor, and
`rest` is what lies behind it: everything in front of it is below all that is left of `xs`.
-/

namespace Reasoning

variable {α : Type} {f : α → α → ℤ}

namespace Comparison

variable {a b c : α}

theorem pos_iff (h : Comparison f) : 0 < f a b ↔ f b a < 0 := by
  have hsign := h.opposite a b
  rw [← Int.sign_eq_one_iff_pos, ← Int.sign_eq_neg_one_iff_neg]
  omega

theorem eq_zero_comm (h : Comparison f) : f a b = 0 ↔ f b a = 0 := by
  have hsign := h.opposite a b
  rw [← Int.sign_eq_zero_iff_zero, ← Int.sign_eq_zero_iff_zero (a := f b a)]
  omega

theorem refl (h : Comparison f) (a : α) : f a a = 0 := by
  have hpos := h.pos_iff (a := a) (b := a)
  omega

theorem lt_of_lt_of_le (h : Comparison f) (hab : f a b < 0) (hbc : f b c ≤ 0) : f a c < 0 := by
  have hca : ¬ f c a ≤ 0 := by
    intro hca
    have hba := h.trans b c a hbc hca
    have hpos := h.pos_iff.mpr hab
    omega
  exact h.pos_iff.mp (by omega)

theorem lt_of_le_of_lt (h : Comparison f) (hab : f a b ≤ 0) (hbc : f b c < 0) : f a c < 0 := by
  have hca : ¬ f c a ≤ 0 := by
    intro hca
    have hcb := h.trans c a b hca hab
    have hpos := h.pos_iff.mpr hbc
    omega
  exact h.pos_iff.mp (by omega)

theorem eq_zero_trans (h : Comparison f) (hab : f a b = 0) (hbc : f b c = 0) : f a c = 0 := by
  have hac := h.trans a b c (by omega) (by omega)
  have hca := h.trans c b a (Int.le_of_eq (h.eq_zero_comm.mp hbc))
    (Int.le_of_eq (h.eq_zero_comm.mp hab))
  have hpos := h.pos_iff (a := c) (b := a)
  omega

end Comparison

def Cursor (f : α → α → ℤ) (xs all rest : List α) : Prop :=
  ∃ passed, all = passed ++ rest ∧ ∀ d ∈ passed, ∀ x ∈ xs, f d x < 0

variable {x y : α} {xs xs' all rest : List α}

theorem Cursor.start (f : α → α → ℤ) (xs all : List α) : Cursor f xs all all :=
  ⟨[], rfl, by simp⟩

theorem Cursor.mono (hcur : Cursor f xs all rest) (hsub : xs' ⊆ xs) : Cursor f xs' all rest := by
  obtain ⟨passed, hall, hbelow⟩ := hcur
  exact ⟨passed, hall, fun d hd x hx => hbelow d hd x (hsub hx)⟩

theorem Cursor.head_mem (hcur : Cursor f xs all (y :: rest)) : y ∈ all := by
  obtain ⟨passed, hall, -⟩ := hcur
  simp [hall]

theorem Cursor.move (hcur : Cursor f xs all (y :: rest)) (hy : ∀ x ∈ xs, f y x < 0) :
    Cursor f xs all rest := by
  obtain ⟨passed, hall, hbelow⟩ := hcur
  refine ⟨passed ++ [y], by rw [hall, List.append_assoc, List.singleton_append], ?_⟩
  intro d hd x hx
  rcases List.mem_append.mp hd with hd | hd
  · exact hbelow d hd x hx
  · obtain rfl := List.mem_singleton.mp hd
    exact hy x hx

theorem Cursor.ne_zero (h : Comparison f) (hcur : Cursor f xs all rest)
    (hall : all.Pairwise (f · · ≤ 0)) (hx : x ∈ xs) (hrest : ∀ y ∈ rest.head?, f x y < 0) :
    ∀ y ∈ all, f x y ≠ 0 := by
  obtain ⟨passed, rfl, hbelow⟩ := hcur
  intro y hy hzero
  rcases List.mem_append.mp hy with hy | hy
  · have hlt := hbelow y hy x hx
    have hpos := h.pos_iff.mpr hlt
    omega
  · cases rest with
    | nil => cases hy
    | cons z rest =>
      have hz := hrest z rfl
      have hle : f z y ≤ 0 := by
        rcases List.mem_cons.mp hy with rfl | hy
        · exact Int.le_of_eq (h.refl y)
        · exact (List.pairwise_cons.mp (List.pairwise_append.mp hall).2.1).1 y hy
      have hlt := h.lt_of_lt_of_le hz hle
      omega

end Reasoning
