import Mathlib.Data.List.Basic

/-!
# Stream — machines that read one symbol at a time

A machine reads a symbol and writes a list of symbols.  `run` lets it read a whole input, and `feed`
hands an input piece by piece to a function that keeps a state between the pieces.  Where that
function does on each piece what the machine does, the pieces do not matter.
-/

namespace Reasoning

variable {σ τ α β : Type}

def run (step : σ → α → σ × List β) : σ → List α → σ × List β
  | s, [] => (s, [])
  | s, a :: as =>
    let (t, out) := step s a
    let (u, rest) := run step t as
    (u, out ++ rest)

@[simp] theorem run_nil (step : σ → α → σ × List β) (s : σ) : run step s [] = (s, []) := rfl

theorem run_cons (step : σ → α → σ × List β) (s : σ) (a : α) (as : List α) :
    run step s (a :: as) =
      ((run step (step s a).1 as).1, (step s a).2 ++ (run step (step s a).1 as).2) := rfl

theorem run_append (step : σ → α → σ × List β) (s : σ) (xs ys : List α) :
    run step s (xs ++ ys) =
      ((run step (run step s xs).1 ys).1,
        (run step s xs).2 ++ (run step (run step s xs).1 ys).2) := by
  induction xs generalizing s with
  | nil => rfl
  | cons a as ih =>
    rw [List.cons_append, run_cons, ih, run_cons]
    simp only [List.append_assoc]

theorem run_pass {step : σ → α → σ × List α} {s : σ} (h : ∀ a, step s a = (s, [a]))
    (xs : List α) : run step s xs = (s, xs) := by
  induction xs with
  | nil => rfl
  | cons a as ih =>
    rw [run_cons, h a, ih]
    rfl

theorem run_drop {step : σ → α → σ × List β} {s : σ} (h : ∀ a, step s a = (s, []))
    (xs : List α) : run step s xs = (s, []) := by
  induction xs with
  | nil => rfl
  | cons a as ih =>
    rw [run_cons, h a, ih]
    rfl

def feed (f : τ → List α → τ × List β) : τ → List (List α) → τ × List β
  | s, [] => (s, [])
  | s, x :: xs =>
    let (t, out) := f s x
    let (u, rest) := feed f t xs
    (u, out ++ rest)

theorem feed_cons (f : τ → List α → τ × List β) (s : τ) (x : List α) (xs : List (List α)) :
    feed f s (x :: xs) = ((feed f (f s x).1 xs).1, (f s x).2 ++ (feed f (f s x).1 xs).2) := rfl

theorem feed_eq_run {f : τ → List α → τ × List β} {step : σ → α → σ × List β} {abs : τ → σ}
    {ok : List α → Prop}
    (h : ∀ s x, ok x → (abs (f s x).1, (f s x).2) = run step (abs s) x) {xs : List (List α)}
    (hok : ∀ x ∈ xs, ok x) (s : τ) :
    (abs (feed f s xs).1, (feed f s xs).2) = run step (abs s) xs.flatten := by
  induction xs generalizing s with
  | nil => rfl
  | cons x xs ih =>
    have hx := h s x (hok x List.mem_cons_self)
    have hxs := ih (fun y hy => hok y (List.mem_cons_of_mem x hy)) (f s x).1
    rw [List.flatten_cons, run_append, ← hx, ← hxs]
    rfl

end Reasoning
