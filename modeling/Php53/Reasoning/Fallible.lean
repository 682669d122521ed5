import Mathlib.Algebra.GroupWithZero.Nat

/-!
# Fallible — state that survives a failure

A computation returns a value or stops, and in both cases leaves a state.  `Triple P m Q` is total
over the two outcomes: started in a state that satisfies `P`, the outcome and the state that `m`
leaves satisfy `Q`.
-/

namespace Reasoning

def Fallible (σ ε α : Type) : Type := σ → Except ε α × σ

namespace Fallible

variable {σ ε α β : Type} {m : Fallible σ ε α}

protected def pure (a : α) : Fallible σ ε α := fun s => (.ok a, s)

protected def bind (m : Fallible σ ε α) (f : α → Fallible σ ε β) : Fallible σ ε β := fun s =>
  match m s with
  | (.ok a, t) => f a t
  | (.error e, t) => (.error e, t)

instance : Monad (Fallible σ ε) where
  pure := Fallible.pure
  bind := Fallible.bind

/-- Stopping with `e`. -/
def stop (e : ε) : Fallible σ ε α := fun s => (.error e, s)

def getState : Fallible σ ε σ := fun s => (.ok s, s)

def update (f : σ → σ) : Fallible σ ε Unit := fun s => (.ok (), f s)

theorem bind_ok {f : α → Fallible σ ε β} {s t : σ} {a : α}
    (h : m s = (.ok a, t)) : (m >>= f) s = f a t := by
  change Fallible.bind m f s = _
  rw [Fallible.bind, h]

theorem pure_bind (a : α) (f : α → Fallible σ ε β) : pure a >>= f = f a := rfl

theorem bind_assoc {γ : Type} (m : Fallible σ ε α) (f : α → Fallible σ ε β)
    (g : β → Fallible σ ε γ) : m >>= f >>= g = m >>= fun a => f a >>= g := by
  funext s
  change Fallible.bind (Fallible.bind m f) g s = Fallible.bind m (fun a => f a >>= g) s
  unfold Fallible.bind
  generalize m s = r
  obtain ⟨_ | a, t⟩ := r <;> rfl

def Triple (P : σ → Prop) (m : Fallible σ ε α) (Q : Except ε α → σ → Prop) : Prop :=
  ∀ s, P s → Q (m s).1 (m s).2

/-- The postcondition of the first half of a sequence: a value satisfies `R`, and a failure is
already the outcome of the whole. -/
def Upto (R : α → σ → Prop) (Q : Except ε β → σ → Prop) : Except ε α → σ → Prop
  | .ok a, s => R a s
  | .error e, s => Q (.error e) s

namespace Triple

variable {P P' : σ → Prop} {Q Q' : Except ε α → σ → Prop}

theorem conseq (h : Triple P m Q) (hP : ∀ s, P' s → P s)
    (hQ : ∀ r s, Q r s → Q' r s) : Triple P' m Q' :=
  fun s hs => hQ _ _ (h s (hP s hs))

theorem pure {a : α} (h : ∀ s, P s → Q (.ok a) s) : Triple P (pure a : Fallible σ ε α) Q := h

theorem stop {e : ε} (h : ∀ s, P s → Q (.error e) s) : Triple P (Fallible.stop e) Q := h

theorem getState {Q : Except ε σ → σ → Prop} (h : ∀ s, P s → Q (.ok s) s) :
    Triple P Fallible.getState Q := h

theorem update {f : σ → σ} {Q : Except ε Unit → σ → Prop} (h : ∀ s, P s → Q (.ok ()) (f s)) :
    Triple P (Fallible.update f) Q := h

theorem bind {R : α → σ → Prop} {Q : Except ε β → σ → Prop} {f : α → Fallible σ ε β}
    (hm : Triple P m (Upto R Q)) (hf : ∀ a, Triple (R a) (f a) Q) :
    Triple P (m >>= f) Q := by
  intro s hs
  have h := hm s hs
  change Q (Fallible.bind m f s).1 (Fallible.bind m f s).2
  unfold Fallible.bind
  revert h
  generalize m s = r
  intro h
  obtain ⟨_ | a, t⟩ := r
  · exact h
  · exact hf a t h

theorem update_bind {R : σ → Prop} {Q : Except ε β → σ → Prop} {f : σ → σ}
    {g : Unit → Fallible σ ε β} (hf : ∀ s, P s → R (f s)) (hg : Triple R (g ()) Q) :
    Triple P (Fallible.update f >>= g) Q :=
  bind (R := fun _ => R) hf fun _ => hg

theorem getState_bind {Q : Except ε β → σ → Prop} {g : σ → Fallible σ ε β}
    (hg : ∀ s, Triple (fun t => P t ∧ t = s) (g s) Q) :
    Triple P (Fallible.getState >>= g) Q :=
  bind (R := fun s t => P t ∧ t = s) (fun _ hs => ⟨hs, rfl⟩) hg

theorem getState_bind_any {Q : Except ε β → σ → Prop} {g : σ → Fallible σ ε β}
    (hg : ∀ s, Triple P (g s) Q) : Triple P (Fallible.getState >>= g) Q :=
  getState_bind fun s => (hg s).conseq (fun _ h => h.1) fun _ _ h => h

theorem ite {c : Prop} [Decidable c] {m' : Fallible σ ε α} (ht : c → Triple P m Q)
    (hf : ¬ c → Triple P m' Q) :
    Triple P (if c then m else m') Q := by
  split
  · exact ht ‹_›
  · exact hf ‹_›

end Triple

end Fallible

end Reasoning
