import Php53.Reasoning.Search

/-!
# Split — a list cut at the occurrences of a word

The cuts are made from the left, and an occurrence that overlaps the one before it does not count.
The word is looked for in the image of the list under `key`, and the list itself is cut.
-/

namespace Reasoning

open List

variable {α β : Type} [DecidableEq α]

/-- The pieces after at most `n` cuts. -/
def splitN (key : β → α) (word : List α) : Nat → List β → List (List β)
  | 0, l => [l]
  | n + 1, l =>
    match search word (l.map key) with
    | none => [l]
    | some i => l.take i :: splitN key word n (l.drop (i + word.length))

def split (key : β → α) (word : List α) (l : List β) : List (List β) := splitN key word l.length l

variable {key : β → α} {word : List α} {n : Nat} {l : List β}

theorem splitN_succ_some {i : Nat} (h : search word (l.map key) = some i) :
    splitN key word (n + 1) l = l.take i :: splitN key word n (l.drop (i + word.length)) := by
  rw [splitN, h]

theorem splitN_none (h : search word (l.map key) = none) : splitN key word n l = [l] := by
  cases n with
  | zero => rfl
  | succ n => rw [splitN, h]

theorem splitN_ne_nil : splitN key word n l ≠ [] := by
  cases n with
  | zero => exact cons_ne_nil _ _
  | succ n =>
    rw [splitN]
    split
    · exact cons_ne_nil _ _
    · exact cons_ne_nil _ _

theorem search_map_le (h : search word (l.map key) = some i) : i + word.length ≤ l.length := by
  have ⟨hle, hoccurs, _⟩ := search_eq_some h
  have hend := hoccurs.length_le hle
  rwa [length_map] at hend

theorem length_splitN_le : (splitN key word n l).length ≤ n + 1 := by
  induction n generalizing l with
  | zero => exact Nat.le_refl 1
  | succ n ih =>
    cases h : search word (l.map key) with
    | none =>
      rw [splitN_none h]
      exact Nat.succ_le_succ (Nat.zero_le _)
    | some i =>
      rw [splitN_succ_some h, length_cons]
      exact Nat.succ_le_succ ih

theorem not_occursAt_take {l : List α} {i : Nat} (hword : word ≠ []) (h : search word l = some i)
    (j : Nat) : ¬ OccursAt word (l.take i) j := by
  intro hoccurs
  have ⟨hle, _, hfirst⟩ := search_eq_some h
  have hj := hoccurs.lt_length hword
  rw [length_take] at hj
  have hprefix : OccursAt word l j := by
    have happend := hoccurs.append (by rw [length_take]; omega) (l.drop i)
    rwa [take_append_drop] at happend
  exact hfirst j (by omega) hprefix

theorem not_occursAt_of_mem_dropLast (hword : word ≠ []) {p : List β}
    (h : p ∈ (splitN key word n l).dropLast) (j : Nat) : ¬ OccursAt word (p.map key) j := by
  induction n generalizing l with
  | zero => exact nomatch h
  | succ n ih =>
    cases hs : search word (l.map key) with
    | none =>
      rw [splitN_none hs] at h
      exact nomatch h
    | some i =>
      rw [splitN_succ_some hs, dropLast_cons_of_ne_nil splitN_ne_nil] at h
      cases mem_cons.mp h with
      | inl h =>
        rw [h, map_take]
        exact not_occursAt_take hword hs j
      | inr h => exact ih h

theorem intercalate_splitN {l : List α} : intercalate word (splitN id word n l) = l := by
  induction n generalizing l with
  | zero => exact intercalate_singleton
  | succ n ih =>
    cases h : search word (l.map id) with
    | none =>
      rw [splitN_none h]
      exact intercalate_singleton
    | some i =>
      rw [splitN_succ_some h, intercalate_cons_of_ne_nil splitN_ne_nil, ih]
      rw [map_id] at h
      -- what is cut out is the word
      have ⟨_, hoccurs, _⟩ := search_eq_some h
      have hcut : (l.drop i).take word.length = word := (prefix_iff_eq_take.mp hoccurs).symm
      have hrest : word ++ l.drop (i + word.length) = l.drop i := by
        rw [← drop_drop]
        conv_rhs => rw [← take_append_drop word.length (l.drop i), hcut]
      rw [append_assoc, hrest, take_append_drop]

theorem splitN_of_length_le (hword : word ≠ []) (h : l.length ≤ n) :
    splitN key word n l = split key word l := by
  have hstable : ∀ m n, ∀ l : List β, l.length ≤ m → l.length ≤ n →
      splitN key word m l = splitN key word n l := by
    intro m
    induction m with
    | zero =>
      intro n l hm _
      have hnil : l = [] := length_eq_zero_iff.mp (by omega)
      rw [splitN_none (by rw [hnil]; rfl), splitN_none (by rw [hnil]; rfl)]
    | succ m ih =>
      intro n l hm hn
      cases hs : search word (l.map key) with
      | none => rw [splitN_none hs, splitN_none hs]
      | some i =>
        have hpos := length_pos_of_ne_nil hword
        have hle := search_map_le hs
        cases n with
        | zero => omega
        | succ n =>
          rw [splitN_succ_some hs, splitN_succ_some hs]
          rw [ih n _ (by rw [length_drop]; omega) (by rw [length_drop]; omega)]
  exact hstable n l.length l h (Nat.le_refl _)

theorem split_none (h : search word (l.map key) = none) : split key word l = [l] := splitN_none h

theorem split_some (hword : word ≠ []) (h : search word (l.map key) = some i) :
    split key word l = l.take i :: split key word (l.drop (i + word.length)) := by
  have hpos := length_pos_of_ne_nil hword
  have hle := search_map_le h
  rw [← splitN_of_length_le hword (Nat.le_succ l.length), splitN_succ_some h,
    splitN_of_length_le hword (by rw [length_drop]; omega)]

theorem split_ne_nil : split key word l ≠ [] := splitN_ne_nil

theorem sum_length_splitN : ((splitN key word n l).map List.length).sum +
    ((splitN key word n l).length - 1) * word.length = l.length := by
  induction n generalizing l with
  | zero => simp [splitN]
  | succ n ih =>
    cases h : search word (l.map key) with
    | none =>
      rw [splitN_none h]
      simp
    | some i =>
      have hle := search_map_le h
      have hrest := ih (l := l.drop (i + word.length))
      have hpos : 0 < (splitN key word n (l.drop (i + word.length))).length :=
        length_pos_of_ne_nil splitN_ne_nil
      rw [length_drop] at hrest
      rw [splitN_succ_some h, map_cons, sum_cons, length_cons, length_take,
        Nat.min_eq_left (by omega), Nat.add_sub_cancel]
      generalize (splitN key word n (l.drop (i + word.length))).length = k at hpos hrest ⊢
      have hk : k * word.length = (k - 1) * word.length + word.length := by
        rw [← Nat.succ_mul]
        congr 1
        omega
      omega

theorem length_intercalate (sep : List β) (ps : List (List β)) :
    (intercalate sep ps).length = (ps.map List.length).sum + (ps.length - 1) * sep.length := by
  induction ps with
  | nil => simp
  | cons p ps ih =>
    cases ps with
    | nil => simp
    | cons q ps =>
      rw [intercalate_cons_cons, length_append, length_append, ih]
      simp only [map_cons, sum_cons, length_cons, Nat.add_sub_cancel]
      rw [Nat.succ_mul]
      omega

theorem length_intercalate_split (key : β → α) (word : List α) (l sep : List β) :
    (intercalate sep (split key word l)).length + ((split key word l).length - 1) * word.length =
      l.length + ((split key word l).length - 1) * sep.length := by
  have hsum : ((split key word l).map List.length).sum +
      ((split key word l).length - 1) * word.length = l.length := sum_length_splitN
  rw [length_intercalate]
  omega

end Reasoning
