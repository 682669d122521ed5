import Mathlib.Algebra.GroupWithZero.Nat
import Mathlib.Data.List.Infix

/-!
# Search — the first place where a word occurs in a list

`search` is the specification of every loop that looks for a word.  A part of the list that is known
to hold no occurrence can be skipped, but for the places where the word begins in it and ends behind
it.
-/

namespace Reasoning

open List

variable {α : Type}

variable {i : Nat}

/-- The word begins at place `i` of the list. -/
def OccursAt (word l : List α) (i : Nat) : Prop := word <+: l.drop i

variable [DecidableEq α] {word : List α} {l : List α}

def search (word : List α) : List α → Option Nat
  | [] => none
  | a :: l => if word.isPrefixOf (a :: l) then some 0 else (search word l).map (· + 1)

omit [DecidableEq α] in
theorem OccursAt.length_le (h : OccursAt word l i) (hi : i ≤ l.length) :
    i + word.length ≤ l.length := by
  have hlen := List.IsPrefix.length_le h
  rw [length_drop] at hlen
  omega

omit [DecidableEq α] in
theorem OccursAt.lt_length (hword : word ≠ []) (h : OccursAt word l i) :
    i < l.length := by
  have hpos := length_pos_of_ne_nil hword
  have hlen := List.IsPrefix.length_le h
  rw [length_drop] at hlen
  omega

omit [DecidableEq α] in
theorem OccursAt.append (h : OccursAt word l i) (hi : i ≤ l.length)
    (l' : List α) : OccursAt word (l ++ l') i := by
  unfold OccursAt at h ⊢
  rw [drop_append_of_le_length hi]
  exact h.trans (prefix_append _ _)

omit [DecidableEq α] in
theorem OccursAt.of_append {l' : List α} (h : OccursAt word (l ++ l') i)
    (hi : i + word.length ≤ l.length) : OccursAt word l i := by
  unfold OccursAt at h ⊢
  rw [drop_append_of_le_length (by omega)] at h
  apply prefix_of_prefix_length_le h (prefix_append _ _)
  rw [length_drop]
  omega

omit [DecidableEq α] in
theorem occursAt_drop {k : Nat} :
    OccursAt word (l.drop k) i ↔ OccursAt word l (k + i) := by
  unfold OccursAt
  rw [drop_drop]

omit [DecidableEq α] in
theorem occursAt_cons {a : α} :
    OccursAt word (a :: l) (i + 1) ↔ OccursAt word l i := by
  unfold OccursAt
  rw [drop_succ_cons]

theorem search_eq_some (h : search word l = some i) :
    i ≤ l.length ∧ OccursAt word l i ∧ ∀ j < i, ¬ OccursAt word l j := by
  induction l generalizing i with
  | nil => exact nomatch h
  | cons a l ih =>
    rw [search] at h
    split at h
    · rename_i hprefix
      obtain rfl := Option.some.inj h
      exact ⟨Nat.zero_le _, List.isPrefixOf_iff_prefix.mp hprefix, fun _ hj => absurd hj (Nat.not_lt_zero _)⟩
    · rename_i hprefix
      obtain ⟨j, hj, rfl⟩ := Option.map_eq_some_iff.mp h
      obtain ⟨hle, hoccurs, hfirst⟩ := ih hj
      refine ⟨Nat.succ_le_succ hle, occursAt_cons.mpr hoccurs, fun k hk => ?_⟩
      cases k with
      | zero => exact fun hz => hprefix (List.isPrefixOf_iff_prefix.mpr hz)
      | succ k => exact fun hs => hfirst k (by omega) (occursAt_cons.mp hs)

theorem search_eq_none (hword : word ≠ []) (h : search word l = none) (i : Nat) :
    ¬ OccursAt word l i := by
  induction l generalizing i with
  | nil =>
    intro hoccurs
    exact absurd (hoccurs.lt_length hword) (Nat.not_lt_zero _)
  | cons a l ih =>
    rw [search] at h
    split at h
    · exact nomatch h
    · rename_i hprefix
      cases i with
      | zero => exact fun hz => hprefix (List.isPrefixOf_iff_prefix.mpr hz)
      | succ i => exact fun hs => ih (Option.map_eq_none_iff.mp h) i (occursAt_cons.mp hs)

theorem search_of_first (hword : word ≠ []) (hoccurs : OccursAt word l i)
    (hfirst : ∀ j < i, ¬ OccursAt word l j) : search word l = some i := by
  cases h : search word l with
  | none => exact absurd hoccurs (search_eq_none hword h i)
  | some k =>
    obtain ⟨-, hk, hkfirst⟩ := search_eq_some h
    rcases Nat.lt_trichotomy i k with hlt | heq | hgt
    · exact absurd hoccurs (hkfirst i hlt)
    · rw [heq]
    · exact absurd hk (hfirst k hgt)

theorem search_of_none (h : ∀ i, ¬ OccursAt word l i) : search word l = none := by
  cases hs : search word l with
  | none => rfl
  | some i => exact absurd (search_eq_some hs).2.1 (h i)

theorem search_append (hword : word ≠ []) (h : search word l = some i)
    (l' : List α) : search word (l ++ l') = some i := by
  obtain ⟨hle, hoccurs, hfirst⟩ := search_eq_some h
  apply search_of_first hword (hoccurs.append hle l')
  intro j hj hj'
  have hlen := hoccurs.length_le hle
  exact hfirst j hj (hj'.of_append (by omega))

theorem search_drop (hword : word ≠ []) {k : Nat}
    (h : ∀ j < k, ¬ OccursAt word l j) : (search word (l.drop k)).map (k + ·) = search word l := by
  cases hs : search word (l.drop k) with
  | none =>
    have hnone : search word l = none := by
      apply search_of_none
      intro i
      by_cases hi : i < k
      · exact h i hi
      · have hrest := search_eq_none hword hs (i - k)
        rw [occursAt_drop] at hrest
        rwa [Nat.add_sub_cancel' (Nat.le_of_not_lt hi)] at hrest
    rw [hnone]
    rfl
  | some i =>
    obtain ⟨-, hoccurs, hfirst⟩ := search_eq_some hs
    symm
    apply search_of_first hword (occursAt_drop.mp hoccurs)
    intro j hj
    by_cases hjk : j < k
    · exact h j hjk
    · have hrest := hfirst (j - k) (by omega)
      rw [occursAt_drop] at hrest
      rwa [Nat.add_sub_cancel' (Nat.le_of_not_lt hjk)] at hrest

theorem search_grown {l' : List α} (hword : word ≠ []) (h : search word l = none) :
    (search word ((l ++ l').drop (l.length - (word.length - 1)))).map
      (l.length - (word.length - 1) + ·) = search word (l ++ l') := by
  apply search_drop hword
  intro j hj hoccurs
  have hpos := length_pos_of_ne_nil hword
  exact search_eq_none hword h j (hoccurs.of_append (by omega))

/-- What is seen of a list does not exclude that the word begins at place `i`. -/
def MayOccurAt (word l : List α) (i : Nat) : Prop := word <+: l.drop i ∨ l.drop i <+: word

omit [DecidableEq α]

theorem prefix_or_prefix_iff {a b : List α} :
    a.take b.length = b.take a.length ↔ a <+: b ∨ b <+: a := by
  rcases Nat.le_total a.length b.length with hle | hle
  · rw [take_of_length_le hle, ← prefix_iff_eq_take]
    constructor
    · exact Or.inl
    · rintro (h | h)
      · exact h
      · rw [h.eq_of_length_le hle]
  · rw [take_of_length_le hle, eq_comm, ← prefix_iff_eq_take]
    constructor
    · exact Or.inr
    · rintro (h | h)
      · rw [h.eq_of_length_le hle]
      · exact h

theorem OccursAt.mayOccurAt (h : OccursAt word l i) (n : Nat) :
    MayOccurAt word (l.take n) i := by
  unfold MayOccurAt
  rw [drop_take]
  exact prefix_or_prefix_of_prefix h (List.take_prefix _ _)

theorem MayOccurAt.occursAt (h : MayOccurAt word l i)
    (hlen : i + word.length ≤ l.length) : OccursAt word l i := by
  rcases h with h | h
  · exact h
  · have heq : l.drop i = word := by
      apply h.eq_of_length_le
      rw [length_drop]
      omega
    unfold OccursAt
    rw [heq]

theorem MayOccurAt.head {a : α} (h : MayOccurAt (a :: word) l i)
    (hi : i < l.length) : l[i]? = some a := by
  rw [← List.head?_drop]
  have hne : l.drop i ≠ [] := by
    rw [Ne, drop_eq_nil_iff]
    omega
  rcases h with ⟨t, ht⟩ | ⟨t, ht⟩
  · rw [← ht]
    rfl
  · obtain ⟨b, l', hl⟩ := exists_cons_of_ne_nil hne
    rw [hl] at ht ⊢
    rw [cons_append, List.cons.injEq] at ht
    rw [List.head?_cons, ht.1]

theorem not_occursAt_of_separator {l' : List α} {z : α} (hword : word ≠ []) (hz : z ∉ word)
    (h : ¬ word <:+: l) {j : Nat} (hj : j ≤ l.length) : ¬ OccursAt word (l ++ z :: l') j := by
  intro hoccurs
  by_cases hfits : j + word.length ≤ l.length
  · exact h (((hoccurs.of_append hfits).isInfix).trans (drop_suffix _ _).isInfix)
  · -- the separator would be one of its elements
    apply hz
    have hpos := length_pos_of_ne_nil hword
    have hget : word[l.length - j]? = some z := by
      have hlt : l.length - j < word.length := by omega
      rw [List.getElem?_eq_getElem hlt, hoccurs.getElem hlt, ← List.getElem?_eq_getElem,
        List.getElem?_drop, Nat.add_sub_cancel' hj, List.getElem?_append_right (Nat.le_refl _),
        Nat.sub_self]
      rfl
    exact mem_of_getElem? hget

end Reasoning
