import Mathlib.Logic.Function.Basic

/-!
# Calls — an implementation with replies and its specification

`replies step s cs` runs the calls `cs` from the state `s` and collects what each of them returns;
a call may be undefined.  `specified` is the same for a specification, whose calls are all defined.
The rule at the end carries a simulation of one call over to all runs.
-/

namespace Reasoning

variable {S T C R : Type}

def replies (step : S → C → Option (R × S)) : S → List C → Option (List R × S)
  | s, [] => some ([], s)
  | s, c :: cs =>
    (step s c).bind fun (r, s') => (replies step s' cs).map fun (rs, t) => (r :: rs, t)

def specified (spec : T → C → R × T) : T → List C → List R × T
  | t, [] => ([], t)
  | t, c :: cs =>
    let (r, t') := spec t c
    (r :: (specified spec t' cs).1, (specified spec t' cs).2)

def Answers (step : S → C → Option (R × S)) (spec : T → C → R × T) (rel : S → T → Prop) : Prop :=
  ∀ s t c, rel s t → ∃ s', step s c = some ((spec t c).1, s') ∧ rel s' (spec t c).2

theorem Answers.replies_eq {step : S → C → Option (R × S)} {spec : T → C → R × T}
    {rel : S → T → Prop} (h : Answers step spec rel) {s : S} {t : T} (hrel : rel s t)
    (cs : List C) :
    ∃ s', replies step s cs = some ((specified spec t cs).1, s') ∧
      rel s' (specified spec t cs).2 := by
  induction cs generalizing s t with
  | nil => exact ⟨s, rfl, hrel⟩
  | cons c cs ih =>
    obtain ⟨s', hstep, hrel'⟩ := h s t c hrel
    obtain ⟨u, hu, hrelu⟩ := ih hrel'
    refine ⟨u, ?_, hrelu⟩
    rw [replies, hstep]
    show (replies step s' cs).map _ = _
    rw [hu]
    rfl

/-- Along a run the replies are those of the specification, and the states that are reached are
    related to its states. -/
def Follows (step : S → C → Option (R × S)) (spec : T → C → R × T) (rel : S → T → Prop) :
    S → T → List C → Prop
  | s, t, [] => rel s t
  | s, t, c :: cs =>
    rel s t ∧ ∀ r s', step s c = some (r, s') →
      r = (spec t c).1 ∧ Follows step spec rel s' (spec t c).2 cs

def Meets (step : S → C → Option (R × S)) (ok : S → C → Prop) : S → List C → Prop
  | _, [] => True
  | s, c :: cs => ok s c ∧ ∀ r s', step s c = some (r, s') → Meets step ok s' cs

theorem follows_iff_meets {step : S → C → Option (R × S)} {spec : T → C → R × T}
    {rel : S → T → Prop} {ok : S → C → Prop}
    (hkeeps : ∀ s t c r s', rel s t → ok s c → step s c = some (r, s') →
      r = (spec t c).1 ∧ rel s' (spec t c).2)
    (hbreaks : ∀ s t c, rel s t → ¬ ok s c →
      ∃ r s', step s c = some (r, s') ∧ ¬ rel s' (spec t c).2)
    {s : S} {t : T} (hrel : rel s t) (cs : List C) :
    Follows step spec rel s t cs ↔ Meets step ok s cs := by
  have hstart : ∀ {s t cs}, Follows step spec rel s t cs → rel s t := by
    intro s t cs h
    cases cs with
    | nil => exact h
    | cons c cs => exact h.1
  induction cs generalizing s t with
  | nil => exact ⟨fun _ => trivial, fun _ => hrel⟩
  | cons c cs ih =>
    constructor
    · intro h
      have hok : ok s c := by
        by_contra hnot
        obtain ⟨r, s', hstep, hbroken⟩ := hbreaks s t c hrel hnot
        exact hbroken (hstart (h.2 r s' hstep).2)
      refine ⟨hok, fun r s' hstep => ?_⟩
      exact (ih (hkeeps s t c r s' hrel hok hstep).2).mp (h.2 r s' hstep).2
    · intro h
      refine ⟨hrel, fun r s' hstep => ?_⟩
      obtain ⟨hreply, hrel'⟩ := hkeeps s t c r s' hrel h.1 hstep
      exact ⟨hreply, (ih hrel').mpr (h.2 r s' hstep)⟩

end Reasoning
