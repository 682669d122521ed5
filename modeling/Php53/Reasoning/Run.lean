import Mathlib.Data.List.Basic

/-!
# Run — finite runs of a partial step function

`Run step ok s ops t`: the operations `ops`, in this order, lead from `s` to `t`, each of them
permitted by `ok` in the state it starts in.
-/

namespace Reasoning

variable {S Op : Type}

inductive Run (step : S → Op → Option S) (ok : S → Op → Prop) : S → List Op → S → Prop where
  | nil (s : S) : Run step ok s [] s
  | snoc {s t u : S} {ops : List Op} {op : Op} :
      Run step ok s ops t → ok t op → step t op = some u → Run step ok s (ops ++ [op]) u

variable {step : S → Op → Option S} {ok ok' : S → Op → Prop}

theorem Run.invariant {I : S → Prop} {s t : S} {ops : List Op} (h : Run step ok s ops t)
    (hstart : I s) (hstep : ∀ s op t, I s → ok s op → step s op = some t → I t) : I t := by
  induction h with
  | nil => exact hstart
  | snoc _ hok hst ih => exact hstep _ _ _ ih hok hst

/-! Runs that are computed. -/

def exec (step : S → Op → Option S) (ok : S → Op → Prop) [∀ s op, Decidable (ok s op)] :
    S → List Op → Option S
  | s, [] => some s
  | s, op :: ops => if ok s op then (step s op).bind fun t => exec step ok t ops else none

theorem Run.append_exec [∀ s op, Decidable (ok s op)] {s t u : S} {ops ops' : List Op}
    (h : Run step ok s ops t) (hexec : exec step ok t ops' = some u) :
    Run step ok s (ops ++ ops') u := by
  induction ops' generalizing t ops with
  | nil =>
    obtain rfl := Option.some.inj hexec
    rwa [List.append_nil]
  | cons op ops' ih =>
    rw [exec] at hexec
    split at hexec
    · rename_i hok
      obtain ⟨v, hv, hexec⟩ := Option.bind_eq_some_iff.mp hexec
      have hrun := ih (Run.snoc h hok hv) hexec
      rwa [List.append_assoc] at hrun
    · exact nomatch hexec

end Reasoning
