import Mathlib.Algebra.GroupWithZero.Nat
import Mathlib.Algebra.BigOperators.Group.List.Basic
import Mathlib.Algebra.Order.Monoid.Defs
import Mathlib.Order.Bounds.Basic

/-!
# Edit scripts — insertions, replacements and deletions, and the cheapest way from a word to another

A script edits a word at any places in any order.  An alignment walks once through two words.  With
costs that depend on the kind of edit only, the scripts between two words are never cheaper than the
alignments, so the least cost follows the recurrence of the last letters.
-/

namespace Reasoning

open List

/-- The costs of the three kinds of edit. -/
structure EditCosts (κ : Type) [Zero κ] [LE κ] where
  ins : κ
  rep : κ
  del : κ
  ins_nonneg : 0 ≤ ins
  rep_nonneg : 0 ≤ rep
  del_nonneg : 0 ≤ del

inductive Edit (α : Type) where
  | insert (i : Nat) (b : α)
  | replace (i : Nat) (b : α)
  | delete (i : Nat)

namespace Edit

variable {α κ : Type}

def apply (s : List α) : Edit α → Option (List α)
  | insert i b => if i ≤ s.length then some (s.take i ++ b :: s.drop i) else none
  | replace i b => if i < s.length then some (s.take i ++ b :: s.drop (i + 1)) else none
  | delete i => if i < s.length then some (s.take i ++ s.drop (i + 1)) else none

def cost [Zero κ] [LE κ] (costs : EditCosts κ) : Edit α → κ
  | insert _ _ => costs.ins
  | replace _ _ => costs.rep
  | delete _ => costs.del

def run : List (Edit α) → List α → Option (List α)
  | [], s => some s
  | e :: script, s => (e.apply s).bind (run script)

def total [AddMonoid κ] [LE κ] (costs : EditCosts κ) (script : List (Edit α)) : κ :=
  (script.map (cost costs)).sum

end Edit

variable {α κ : Type} [AddCommMonoid κ] [LinearOrder κ] {costs : EditCosts κ} {c : κ}

/-- The costs of the scripts that turn `s` into `t`. -/
def scriptCosts (costs : EditCosts κ) (s t : List α) : Set κ :=
  {c | ∃ script, Edit.run script s = some t ∧ Edit.total costs script = c}

/-- `Alignment costs xs ys c`: one walk through both words turns `xs` into `ys` at the cost `c`. -/
inductive Alignment (costs : EditCosts κ) : List α → List α → κ → Prop where
  | nil : Alignment costs [] [] 0
  | keep {xs ys : List α} {c : κ} (x : α) :
      Alignment costs xs ys c → Alignment costs (x :: xs) (x :: ys) c
  | replace {xs ys : List α} {c : κ} (x y : α) :
      Alignment costs xs ys c → Alignment costs (x :: xs) (y :: ys) (c + costs.rep)
  | insert {xs ys : List α} {c : κ} (y : α) :
      Alignment costs xs ys c → Alignment costs xs (y :: ys) (c + costs.ins)
  | delete {xs ys : List α} {c : κ} (x : α) :
      Alignment costs xs ys c → Alignment costs (x :: xs) ys (c + costs.del)

namespace Alignment

variable {xs ys zs : List α} {c : κ} {a b : α}

theorem refl (xs : List α) : Alignment costs xs xs 0 := by
  induction xs with
  | nil => exact .nil
  | cons x xs ih => exact .keep x ih

theorem trivial (xs ys : List α) :
    Alignment costs xs ys (xs.length • costs.del + ys.length • costs.ins) := by
  induction xs with
  | nil =>
    induction ys with
    | nil => simpa using Alignment.nil
    | cons y ys ih =>
      have h := Alignment.insert y ih
      rw [length_cons, succ_nsmul, ← add_assoc]
      exact h
  | cons x xs ih =>
    have h := Alignment.delete x ih
    rw [length_cons, succ_nsmul, add_right_comm]
    exact h

theorem of_nil_left (h : Alignment costs [] ys c) : c = ys.length • costs.ins := by
  generalize hxs : ([] : List α) = xs at h
  induction h with
  | nil => simp
  | keep x _ _ => cases hxs
  | replace x y _ _ => cases hxs
  | insert y _ ih => rw [ih hxs, length_cons, succ_nsmul]
  | delete x _ _ => cases hxs

theorem of_nil_right (h : Alignment costs xs [] c) : c = xs.length • costs.del := by
  generalize hys : ([] : List α) = ys at h
  induction h with
  | nil => simp
  | keep x _ _ => cases hys
  | replace x y _ _ => cases hys
  | insert y _ _ => cases hys
  | delete x _ ih => rw [ih hys, length_cons, succ_nsmul]

variable [IsOrderedAddMonoid κ]

theorem nonneg (h : Alignment costs xs ys c) : 0 ≤ c := by
  induction h with
  | nil => exact le_rfl
  | keep _ _ ih => exact ih
  | replace _ _ _ ih => exact add_nonneg ih costs.rep_nonneg
  | insert _ _ ih => exact add_nonneg ih costs.ins_nonneg
  | delete _ _ ih => exact add_nonneg ih costs.del_nonneg

-- An edit that is worth `e` at the front of a word is worth it further back.
theorem behind {u v : List α} {e : κ}
    (hfront : ∀ ys c, Alignment costs u ys c → ∃ d ≤ c + e, Alignment costs v ys d)
    (h : Alignment costs (xs ++ u) ys c) : ∃ d ≤ c + e, Alignment costs (xs ++ v) ys d := by
  have hadd : ∀ {c d : κ} (k : κ), d ≤ c + e → d + k ≤ c + k + e := by
    intro c d k hd
    rw [add_right_comm]
    exact add_le_add_left hd k
  induction xs generalizing ys c with
  | nil => exact hfront ys c h
  | cons x xs ih =>
    generalize hs : (x :: xs) ++ u = s at h
    induction h with
    | nil => cases hs
    | keep _ h _ =>
      cases hs
      have ⟨d, hd, hal⟩ := ih h
      exact ⟨d, hd, .keep x hal⟩
    | replace _ y h _ =>
      cases hs
      have ⟨d, hd, hal⟩ := ih h
      exact ⟨d + costs.rep, hadd _ hd, .replace x y hal⟩
    | insert y _ ih' =>
      have ⟨d, hd, hal⟩ := ih' hs
      exact ⟨d + costs.ins, hadd _ hd, .insert y hal⟩
    | delete _ h _ =>
      cases hs
      have ⟨d, hd, hal⟩ := ih h
      exact ⟨d + costs.del, hadd _ hd, .delete x hal⟩

theorem insert_letter (h : Alignment costs (xs ++ b :: zs) ys c) :
    ∃ d ≤ c + costs.ins, Alignment costs (xs ++ zs) ys d := by
  apply h.behind
  intro ys c h
  generalize hs : b :: zs = s at h
  induction h with
  | nil => cases hs
  | @keep s ys c x h _ =>
    cases hs
    exact ⟨c + costs.ins, le_rfl, .insert b h⟩
  | @replace s ys c x y h _ =>
    cases hs
    have hle : c + costs.ins ≤ c + costs.rep + costs.ins :=
      add_le_add_left (le_add_of_nonneg_right costs.rep_nonneg) _
    exact ⟨c + costs.ins, hle, .insert y h⟩
  | insert y _ ih =>
    have ⟨d, hd, hal⟩ := ih hs
    exact ⟨d + costs.ins, add_le_add_left hd _, .insert y hal⟩
  | @delete s ys c x h _ =>
    cases hs
    have hle : c ≤ c + costs.del + costs.ins :=
      le_add_of_le_of_nonneg (le_add_of_nonneg_right costs.del_nonneg) costs.ins_nonneg
    exact ⟨c, hle, h⟩

theorem replace_letter (h : Alignment costs (xs ++ b :: zs) ys c) :
    ∃ d ≤ c + costs.rep, Alignment costs (xs ++ a :: zs) ys d := by
  apply h.behind
  intro ys c h
  generalize hs : b :: zs = s at h
  induction h with
  | nil => cases hs
  | @keep s ys c x h _ =>
    cases hs
    exact ⟨c + costs.rep, le_rfl, .replace a b h⟩
  | @replace s ys c x y h _ =>
    cases hs
    exact ⟨c + costs.rep, le_add_of_nonneg_right costs.rep_nonneg, .replace a y h⟩
  | insert y _ ih =>
    have ⟨d, hd, hal⟩ := ih hs
    refine ⟨d + costs.ins, ?_, .insert y hal⟩
    rw [add_right_comm]
    exact add_le_add_left hd _
  | @delete s ys c x h _ =>
    cases hs
    exact ⟨c + costs.del, le_add_of_nonneg_right costs.rep_nonneg, .delete a h⟩

theorem delete_letter (h : Alignment costs (xs ++ zs) ys c) :
    ∃ d ≤ c + costs.del, Alignment costs (xs ++ b :: zs) ys d :=
  h.behind fun _ _ h => ⟨_, le_rfl, .delete b h⟩

end Alignment

namespace Edit

variable {s t r : List α} {b : α} {i : Nat}

theorem apply_insert (h : (insert i b).apply s = some t) : ∃ l r, s = l ++ r ∧ t = l ++ b :: r := by
  simp only [apply] at h
  split at h
  · cases h
    exact ⟨s.take i, s.drop i, (take_append_drop i s).symm, rfl⟩
  · cases h

theorem eq_take_cons_drop (h : i < s.length) : s = s.take i ++ s[i] :: s.drop (i + 1) := by
  rw [getElem_cons_drop, take_append_drop]

theorem apply_replace (h : (replace i b).apply s = some t) :
    ∃ l a r, s = l ++ a :: r ∧ t = l ++ b :: r := by
  simp only [apply] at h
  split at h
  · rename_i hi
    cases h
    exact ⟨s.take i, s[i], s.drop (i + 1), eq_take_cons_drop hi, rfl⟩
  · cases h

theorem apply_delete (h : (delete i).apply s = some t) :
    ∃ l a r, s = l ++ a :: r ∧ t = l ++ r := by
  simp only [apply] at h
  split at h
  · rename_i hi
    cases h
    exact ⟨s.take i, s[i], s.drop (i + 1), eq_take_cons_drop hi, rfl⟩
  · cases h

theorem apply_append (e : Edit α) (h : e.apply s = some t) (r : List α) :
    e.apply (s ++ r) = some (t ++ r) := by
  cases e with
  | insert i b =>
    simp only [apply] at h ⊢
    split at h
    · rename_i hi
      cases h
      have hle : i ≤ (s ++ r).length := by rw [length_append]; omega
      rw [if_pos hle, take_append_of_le_length hi, drop_append_of_le_length hi,
        append_assoc, cons_append]
    · cases h
  | replace i b =>
    simp only [apply] at h ⊢
    split at h
    · rename_i hi
      cases h
      have hlt : i < (s ++ r).length := by rw [length_append]; omega
      rw [if_pos hlt, take_append_of_le_length hi.le,
        drop_append_of_le_length (show i + 1 ≤ s.length by omega), append_assoc,
        cons_append]
    · cases h
  | delete i =>
    simp only [apply] at h ⊢
    split at h
    · rename_i hi
      cases h
      have hlt : i < (s ++ r).length := by rw [length_append]; omega
      rw [if_pos hlt, take_append_of_le_length hi.le,
        drop_append_of_le_length (show i + 1 ≤ s.length by omega), append_assoc]
    · cases h

theorem run_append_right {script : List (Edit α)} (h : run script s = some t) (r : List α) :
    run script (s ++ r) = some (t ++ r) := by
  induction script generalizing s with
  | nil =>
    cases h
    rfl
  | cons e script ih =>
    have ⟨u, hu, hrun⟩ := Option.bind_eq_some_iff.mp h
    show (e.apply (s ++ r)).bind (run script) = _
    rw [apply_append e hu r]
    exact ih hrun

theorem run_append {script script' : List (Edit α)} (h : run script s = some t) :
    run (script ++ script') s = run script' t := by
  induction script generalizing s with
  | nil =>
    cases h
    rfl
  | cons e script ih =>
    have ⟨u, hu, hrun⟩ := Option.bind_eq_some_iff.mp h
    show (e.apply s).bind (run (script ++ script')) = _
    rw [hu]
    exact ih hrun

theorem apply_insert_end (s : List α) (b : α) : (insert s.length b).apply s = some (s ++ [b]) := by
  simp only [apply]
  rw [if_pos le_rfl, take_length, drop_length]

theorem apply_replace_end (s : List α) (a b : α) :
    (replace s.length b).apply (s ++ [a]) = some (s ++ [b]) := by
  simp only [apply]
  have hlt : s.length < (s ++ [a]).length := by simp
  rw [if_pos hlt, take_left, drop_eq_nil_of_le (by simp)]

theorem apply_delete_end (s : List α) (a : α) :
    (delete s.length : Edit α).apply (s ++ [a]) = some s := by
  simp only [apply]
  have hlt : s.length < (s ++ [a]).length := by simp
  rw [if_pos hlt, take_left, drop_eq_nil_of_le (by simp), List.append_nil]

end Edit

open Edit

theorem Alignment.script {xs ys : List α} (h : Alignment costs xs ys c) :
    c ∈ scriptCosts costs xs.reverse ys.reverse := by
  induction h with
  | nil => exact ⟨[], rfl, rfl⟩
  | @keep xs ys c x _ ih =>
    have ⟨script, hrun, hcost⟩ := ih
    rw [reverse_cons, reverse_cons]
    exact ⟨script, run_append_right hrun [x], hcost⟩
  | @replace xs ys c x y _ ih =>
    have ⟨script, hrun, hcost⟩ := ih
    rw [reverse_cons, reverse_cons]
    -- the last letter is replaced before the others are touched
    refine ⟨.replace xs.reverse.length y :: script, ?_, ?_⟩
    · show (Edit.apply _ _).bind (run script) = _
      rw [apply_replace_end]
      exact run_append_right hrun [y]
    · show costs.rep + total costs script = _
      rw [hcost, add_comm]
  | @insert xs ys c y _ ih =>
    have ⟨script, hrun, hcost⟩ := ih
    rw [reverse_cons]
    refine ⟨script ++ [Edit.insert ys.reverse.length y], ?_, ?_⟩
    · rw [run_append hrun]
      show (Edit.apply _ _).bind (run []) = _
      rw [apply_insert_end]
      rfl
    · unfold total at hcost ⊢
      rw [map_append, sum_append, hcost]
      show c + (costs.ins + 0) = _
      rw [add_zero]
  | @delete xs ys c x _ ih =>
    have ⟨script, hrun, hcost⟩ := ih
    rw [reverse_cons]
    refine ⟨.delete xs.reverse.length :: script, ?_, ?_⟩
    · show (Edit.apply _ _).bind (run script) = _
      rw [apply_delete_end]
      exact hrun
    · show costs.del + total costs script = _
      rw [hcost, add_comm]

theorem scriptCosts_add {s t u : List α} {d : κ} (h : c ∈ scriptCosts costs s t)
    (h' : d ∈ scriptCosts costs t u) : c + d ∈ scriptCosts costs s u := by
  obtain ⟨script, hrun, hcost⟩ := h
  obtain ⟨script', hrun', hcost'⟩ := h'
  refine ⟨script ++ script', ?_, ?_⟩
  · rw [run_append hrun]
    exact hrun'
  · unfold total at hcost hcost' ⊢
    rw [map_append, sum_append, hcost, hcost']

/-- The costs of the way back. -/
def EditCosts.swap (costs : EditCosts κ) : EditCosts κ :=
  ⟨costs.del, costs.rep, costs.ins, costs.del_nonneg, costs.rep_nonneg, costs.ins_nonneg⟩

theorem Alignment.swap {xs ys : List α} (h : Alignment costs xs ys c) :
    Alignment costs.swap ys xs c := by
  induction h with
  | nil => exact .nil
  | keep x _ ih => exact .keep x ih
  | replace x y _ ih => exact .replace y x ih
  | insert y _ ih => exact .delete y ih
  | delete x _ ih => exact .insert x ih

variable [IsOrderedAddMonoid κ]

theorem Alignment.edit {e : Edit α} {s u t : List α} (he : e.apply s = some u)
    (h : Alignment costs u.reverse t.reverse c) :
    ∃ d ≤ c + e.cost costs, Alignment costs s.reverse t.reverse d := by
  cases e with
  | insert i b =>
    have ⟨l, r, hs, hu⟩ := apply_insert he
    rw [hu, reverse_append, reverse_cons, append_assoc] at h
    rw [hs, reverse_append]
    exact h.insert_letter
  | replace i b =>
    have ⟨l, a, r, hs, hu⟩ := apply_replace he
    rw [hu, reverse_append, reverse_cons, append_assoc] at h
    rw [hs, reverse_append, reverse_cons, append_assoc]
    exact h.replace_letter
  | delete i =>
    have ⟨l, a, r, hs, hu⟩ := apply_delete he
    rw [hu, reverse_append] at h
    rw [hs, reverse_append, reverse_cons, append_assoc]
    exact h.delete_letter

theorem alignment_of_script {script : List (Edit α)} {s t : List α} (h : run script s = some t) :
    ∃ c ≤ total costs script, Alignment costs s.reverse t.reverse c := by
  induction script generalizing s with
  | nil =>
    cases h
    exact ⟨0, le_rfl, .refl _⟩
  | cons e script ih =>
    have ⟨u, hu, hrun⟩ := Option.bind_eq_some_iff.mp h
    have ⟨c, hc, hal⟩ := ih hrun
    have ⟨d, hd, hal'⟩ := hal.edit hu
    refine ⟨d, le_trans hd ?_, hal'⟩
    show c + e.cost costs ≤ e.cost costs + total costs script
    rw [add_comm]
    exact add_le_add_right hc _

/-- `c` is the least cost of an alignment. -/
def LeastCost (costs : EditCosts κ) (xs ys : List α) (c : κ) : Prop :=
  IsLeast {d | Alignment costs xs ys d} c

theorem LeastCost.scripts {s t : List α} (h : LeastCost costs s.reverse t.reverse c) :
    IsLeast (scriptCosts costs s t) c := by
  constructor
  · have hscript := h.1.script
    rwa [reverse_reverse, reverse_reverse] at hscript
  · rintro d ⟨script, hrun, rfl⟩
    have ⟨d, hd, hal⟩ : ∃ d ≤ total costs script, Alignment costs s.reverse t.reverse d :=
      alignment_of_script hrun
    exact le_trans (h.2 hal) hd

omit [IsOrderedAddMonoid κ] in
theorem LeastCost.nil_left (ys : List α) : LeastCost costs [] ys (ys.length • costs.ins) := by
  constructor
  · have h : Alignment costs [] ys _ := .trivial [] ys
    rwa [length_nil, zero_nsmul, zero_add] at h
  · intro d hd
    rw [Alignment.of_nil_left hd]

omit [IsOrderedAddMonoid κ] in
theorem LeastCost.nil_right (xs : List α) : LeastCost costs xs [] (xs.length • costs.del) := by
  constructor
  · have h : Alignment costs xs [] _ := .trivial xs []
    rwa [length_nil, zero_nsmul, add_zero] at h
  · intro d hd
    rw [Alignment.of_nil_right hd]

omit [IsOrderedAddMonoid κ] in
theorem LeastCost.le_trivial {xs ys : List α} (h : LeastCost costs xs ys c) :
    c ≤ xs.length • costs.del + ys.length • costs.ins :=
  h.2 (.trivial xs ys)

theorem LeastCost.cons [DecidableEq α] {x y : α} {xs ys : List α} {a b : κ}
    (hsub : LeastCost costs xs ys a) (hdel : LeastCost costs xs (y :: ys) b)
    (hins : LeastCost costs (x :: xs) ys c) :
    LeastCost costs (x :: xs) (y :: ys)
      (min (min (a + if x = y then 0 else costs.rep) (b + costs.del)) (c + costs.ins)) := by
  constructor
  · -- one of the three is the least, and each is the cost of an alignment
    rcases min_choice (min (a + if x = y then 0 else costs.rep) (b + costs.del))
      (c + costs.ins) with h | h
    · rw [h]
      rcases min_choice (a + if x = y then 0 else costs.rep) (b + costs.del) with h' | h'
      · rw [h']
        by_cases hxy : x = y
        · rw [if_pos hxy, add_zero, hxy]
          exact .keep y hsub.1
        · rw [if_neg hxy]
          exact .replace x y hsub.1
      · rw [h']
        exact .delete x hdel.1
    · rw [h]
      exact .insert y hins.1
  · intro d hd
    rw [min_le_iff, min_le_iff]
    generalize hs : x :: xs = s at hd
    generalize ht : y :: ys = t at hd
    cases hd with
    | nil => cases hs
    | keep z h =>
      cases hs
      cases ht
      rw [if_pos rfl, add_zero]
      exact .inl (.inl (hsub.2 h))
    | replace z w h =>
      cases hs
      cases ht
      refine .inl (.inl (add_le_add (hsub.2 h) ?_))
      split
      · exact costs.rep_nonneg
      · exact le_rfl
    | insert w h =>
      cases hs
      cases ht
      exact .inr (add_le_add_left (hins.2 h) _)
    | delete z h =>
      cases hs
      cases ht
      exact .inl (.inr (add_le_add_left (hdel.2 h) _))

omit [IsOrderedAddMonoid κ] in
theorem LeastCost.swap {xs ys : List α} (h : LeastCost costs xs ys c) :
    LeastCost costs.swap ys xs c :=
  ⟨h.1.swap, fun _ hd => h.2 (Alignment.swap hd)⟩

theorem LeastCost.eq_zero_iff (hins : 0 < costs.ins) (hrep : 0 < costs.rep) (hdel : 0 < costs.del)
    {xs ys : List α} (h : LeastCost costs xs ys c) : c = 0 ↔ xs = ys := by
  constructor
  · intro hc
    have hal : Alignment costs xs ys c := h.1
    clear h
    induction hal with
    | nil => rfl
    | keep x _ ih => rw [ih hc]
    | replace x y h _ => exact absurd (le_of_le_of_eq (le_add_of_nonneg_left h.nonneg) hc) hrep.not_ge
    | insert y h _ => exact absurd (le_of_le_of_eq (le_add_of_nonneg_left h.nonneg) hc) hins.not_ge
    | delete x h _ => exact absurd (le_of_le_of_eq (le_add_of_nonneg_left h.nonneg) hc) hdel.not_ge
  · intro hxy
    rw [hxy] at h
    exact le_antisymm (h.2 (Alignment.refl ys)) h.1.nonneg

end Reasoning
