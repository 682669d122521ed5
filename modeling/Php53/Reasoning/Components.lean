import Mathlib.Data.List.Induction

/-!
# Components — a text cut at a separator, and components that undo each other

`List.splitOn` cuts a list at a separator.  A component of it is skipped, kept, or removes the last
component that was kept before it, and `kept` are the components that remain.
-/

namespace Reasoning

open List

variable {α : Type}

variable {sep : α}

def behind (sep : α) (cs : List (List α)) : List α := cs.flatMap (sep :: ·)

theorem behind_cons (sep : α) (c : List α) (cs : List (List α)) :
    behind sep (c :: cs) = sep :: c ++ behind sep cs := rfl

theorem behind_concat (sep : α) (cs : List (List α)) (c : List α) :
    behind sep (cs ++ [c]) = behind sep cs ++ sep :: c := by
  rw [behind, flatMap_append, flatMap_singleton]
  rfl

section

variable [DecidableEq α]

theorem not_mem_of_mem_splitOn {l c : List α} (h : c ∈ l.splitOn sep) : sep ∉ c := by
  induction l generalizing c with
  | nil =>
    rw [splitOn_nil, mem_singleton] at h
    rw [h]
    exact not_mem_nil
  | cons x l ih =>
    rw [splitOn_cons_eq_if_modifyHead] at h
    split at h
    · cases mem_cons.mp h with
      | inl h =>
        rw [h]
        exact not_mem_nil
      | inr h => exact ih h
    · rename_i hx
      cases hcut : l.splitOn sep with
      | nil => exact absurd hcut (splitOn_ne_nil sep l)
      | cons head tail =>
        rw [hcut, modifyHead_cons, mem_cons] at h
        cases h with
        | inl h =>
          rw [h, mem_cons]
          intro hmem
          cases hmem with
          | inl he => exact hx (by rw [he, beq_self_eq_true])
          | inr hmem => exact ih (by rw [hcut]; exact mem_cons_self) hmem
        | inr h => exact ih (by rw [hcut]; exact mem_cons_of_mem _ h)

theorem splitOn_append_last (front : List α) {name : List α} (h : sep ∉ name) :
    (front ++ sep :: name).splitOn sep = front.splitOn sep ++ [name] := by
  rw [splitOn_append_cons_self, splitOn_eq_singleton h]

theorem splitOn_behind {cs : List (List α)} (h : ∀ c ∈ cs, sep ∉ c) :
    (behind sep cs).splitOn sep = [] :: cs := by
  induction cs using reverseRecOn with
  | nil => exact splitOn_nil sep
  | append_singleton cs c ih =>
    rw [behind_concat, splitOn_append_last _ (h c (by simp)),
      ih fun c' hc => h c' (mem_append_left _ hc)]
    rfl

theorem behind_splitOn (l : List α) : behind sep (l.splitOn sep) = sep :: l := by
  induction l with
  | nil => rfl
  | cons x l ih =>
    rw [splitOn_cons_eq_if_modifyHead]
    split
    · rename_i hx
      rw [behind_cons, ih, eq_of_beq hx]
      rfl
    · cases hcut : l.splitOn sep with
      | nil => exact absurd hcut (splitOn_ne_nil sep l)
      | cons head tail =>
        rw [hcut, behind_cons] at ih
        have htail : head ++ behind sep tail = l := tail_eq_of_cons_eq ih
        rw [modifyHead_cons, behind_cons, ← htail]
        rfl

end

theorem length_behind_dropLast_le (cs : List (List α)) :
    (behind sep cs.dropLast).length ≤ (behind sep cs).length := by
  induction cs using reverseRecOn with
  | nil => exact Nat.le_refl _
  | append_singleton cs c ih =>
    rw [dropLast_concat, behind_concat, length_append]
    omega

/-- What a component does: nothing, it removes the last one that was kept, or it is kept itself. -/
inductive Effect where
  | skip | undo | keep
  deriving DecidableEq

variable {effect : α → Effect} {stack : List α} {c : α}

def visit (effect : α → Effect) (stack : List α) (c : α) : List α :=
  match effect c with
  | .skip => stack
  | .undo => stack.dropLast
  | .keep => stack ++ [c]

def kept (effect : α → Effect) (cs : List α) : List α := cs.foldl (visit effect) []

theorem kept_concat (cs : List α) (c : α) :
    kept effect (cs ++ [c]) = visit effect (kept effect cs) c := by
  rw [kept, foldl_append]
  rfl

theorem visit_skip (h : effect c = .skip) :
    visit effect stack c = stack := by
  rw [visit, h]

theorem visit_undo (h : effect c = .undo) :
    visit effect stack c = stack.dropLast := by
  rw [visit, h]

theorem visit_keep (h : effect c = .keep) :
    visit effect stack c = stack ++ [c] := by
  rw [visit, h]

theorem kept_cons_skip (h : effect c = .skip) (cs : List α) :
    kept effect (c :: cs) = kept effect cs := by
  rw [kept, foldl_cons, visit_skip h]
  rfl

theorem keep_of_mem_kept {cs : List α} (h : c ∈ kept effect cs) :
    c ∈ cs ∧ effect c = .keep := by
  induction cs using reverseRecOn with
  | nil => exact absurd h not_mem_nil
  | append_singleton cs c' ih =>
    rw [kept_concat, visit] at h
    have hfront : c ∈ kept effect cs → c ∈ cs ++ [c'] ∧ effect c = .keep := fun hmem =>
      ⟨mem_append_left _ (ih hmem).1, (ih hmem).2⟩
    split at h
    · exact hfront h
    · exact hfront (dropLast_subset _ h)
    · rename_i hkeep
      cases mem_append.mp h with
      | inl h => exact hfront h
      | inr h =>
        rw [mem_singleton.mp h]
        exact ⟨mem_append_right _ (mem_singleton_self _), hkeep⟩

theorem kept_of_keep {cs : List α} (h : ∀ c ∈ cs, effect c = .keep) : kept effect cs = cs := by
  induction cs using reverseRecOn with
  | nil => rfl
  | append_singleton cs c ih =>
    rw [kept_concat, visit_keep (h c (by simp)), ih fun c' hc => h c' (mem_append_left _ hc)]

theorem length_behind_kept_le {sep : α} {effect : List α → Effect} (cs : List (List α)) :
    (behind sep (kept effect cs)).length ≤ (behind sep cs).length := by
  induction cs using reverseRecOn with
  | nil => exact Nat.le_refl _
  | append_singleton cs c ih =>
    rw [kept_concat, behind_concat, length_append, visit]
    have hdrop := @length_behind_dropLast_le _ sep (kept effect cs)
    split
    · omega
    · omega
    · rw [behind_concat, length_append]
      omega

end Reasoning
