import Mathlib.Data.List.Infix
import Mathlib.Tactic.Common

/-!
# Reads — computations that may touch nothing but a terminated text

`none` is a read outside.  `Gives m P` says that `m` stays inside and that its result satisfies `P`.
-/

namespace Reasoning

def Gives {α : Type} (m : Option α) (P : α → Prop) : Prop := ∃ a, m = some a ∧ P a

namespace Gives

variable {α β : Type} {P P' : α → Prop} {Q : β → Prop} {m : Option α}

theorem pure {a : α} (h : P a) : Gives (some a) P := ⟨a, rfl, h⟩

theorem bind {f : α → Option β} (hm : Gives m P) (hf : ∀ a, P a → Gives (f a) Q) :
    Gives (m >>= f) Q := by
  obtain ⟨a, ha, hP⟩ := hm
  rw [ha]
  exact hf a hP

theorem conseq (hm : Gives m P) (h : ∀ a, P a → P' a) : Gives m P' := by
  obtain ⟨a, ha, hP⟩ := hm
  exact ⟨a, ha, h a hP⟩

theorem ite {c : Prop} [Decidable c] {m' : Option α} (ht : c → Gives m P)
    (hf : ¬ c → Gives m' P) : Gives (if c then m else m') P := by
  by_cases h : c
  · rw [if_pos h]
    exact ht h
  · rw [if_neg h]
    exact hf h

theorem ne_none (hm : Gives m P) : m ≠ none := by
  obtain ⟨a, ha, -⟩ := hm
  rw [ha]
  exact Option.some_ne_none a

end Gives

section Text

variable {α : Type}

def readAt (text : List α) (nul : α) (i : ℕ) : Option α := (text ++ [nul])[i]?

variable {text : List α} {nul : α} {i : ℕ}

theorem readAt_of_lt (h : i < text.length) : readAt text nul i = text[i]? := by
  rw [readAt, List.getElem?_append_left h]

theorem readAt_length : readAt text nul text.length = some nul := by
  rw [readAt, List.getElem?_append_right (Nat.le_refl _), Nat.sub_self]
  rfl

theorem readAt_of_gt (h : text.length < i) : readAt text nul i = none := by
  rw [readAt, List.getElem?_eq_none]
  rw [List.length_append, List.length_singleton]
  omega

theorem readAt_gives (h : i ≤ text.length) :
    Gives (readAt text nul i) fun b => readAt text nul i = some b := by
  have hlt : i < (text ++ [nul]).length := by
    rw [List.length_append, List.length_singleton]
    omega
  exact ⟨_, List.getElem?_eq_getElem hlt, List.getElem?_eq_getElem hlt⟩

theorem lt_of_readAt {b : α} (h : readAt text nul i = some b) (hne : b ≠ nul) :
    i < text.length := by
  rcases Nat.lt_trichotomy i text.length with hlt | rfl | hgt
  · exact hlt
  · rw [readAt_length] at h
    exact absurd (Option.some.inj h).symm hne
  · rw [readAt_of_gt hgt] at h
    exact absurd h.symm (Option.some_ne_none b)

theorem le_of_readAt {b : α} (h : readAt text nul i = some b) : i ≤ text.length := by
  by_contra hgt
  rw [readAt_of_gt (by omega)] at h
  exact absurd h.symm (Option.some_ne_none b)

theorem drop_of_readAt {b : α} (h : readAt text nul i = some b) (hlt : i < text.length) :
    text.drop i = b :: text.drop (i + 1) := by
  rw [readAt_of_lt hlt, List.getElem?_eq_getElem hlt] at h
  rw [List.drop_eq_getElem_cons hlt, Option.some.inj h]

/-- The part `[i, j)`. -/
def rangeOf (text : List α) (i j : ℕ) : List α := (text.drop i).take (j - i)

theorem rangeOf_isInfix (text : List α) (i j : ℕ) : rangeOf text i j <:+: text :=
  (List.take_prefix _ _).isInfix.trans (List.drop_suffix _ _).isInfix

end Text

section First

variable {α : Type} (read : ℕ → Option α) (p : α → Bool)

/-- The first of `len` elements from `s` on that matches. -/
def firstIn : ℕ → ℕ → Option (Option ℕ)
  | 0, _ => some none
  | len + 1, s => do
    let b ← read s
    if p b then some (some s) else firstIn len (s + 1)

/-- `r` is the first match in `[s, e)`. -/
def IsFirst (s e : ℕ) : Option ℕ → Prop
  | none => ∀ j b, s ≤ j → j < e → read j = some b → p b = false
  | some k => s ≤ k ∧ k < e ∧ (∃ b, read k = some b ∧ p b = true) ∧
      ∀ j b, s ≤ j → j < k → read j = some b → p b = false

variable {read p}

theorem firstIn_gives {len s : ℕ} (h : ∀ j, s ≤ j → j < s + len → ∃ b, read j = some b) :
    Gives (firstIn read p len s) (IsFirst read p s (s + len)) := by
  induction len generalizing s with
  | zero => exact Gives.pure fun j b h1 h2 => by omega
  | succ len ih =>
    obtain ⟨b, hb⟩ := h s (by omega) (by omega)
    rw [firstIn, hb]
    show Gives (if p b then some (some s) else firstIn read p len (s + 1)) _
    by_cases hp : p b = true
    · rw [if_pos hp]
      exact Gives.pure ⟨by omega, by omega, ⟨b, hb, hp⟩, fun j b h1 h2 => by omega⟩
    · rw [if_neg hp]
      have hskip : ∀ j c, s ≤ j → j < s + 1 → read j = some c → p c = false := by
        intro j c h1 h2 hc
        rw [show j = s by omega, hb] at hc
        rw [← Option.some.inj hc]
        exact Bool.not_eq_true _ ▸ hp
      refine (ih fun j h1 h2 => h j (by omega) (by omega)).conseq fun r hr => ?_
      cases r with
      | none =>
        intro j c h1 h2 hc
        by_cases hj : j < s + 1
        · exact hskip j c h1 hj hc
        · exact hr j c (by omega) (by omega) hc
      | some k =>
        obtain ⟨h1, h2, hmatch, hbefore⟩ := hr
        refine ⟨by omega, by omega, hmatch, fun j c h3 h4 hc => ?_⟩
        by_cases hj : j < s + 1
        · exact hskip j c h3 hj hc
        · exact hbefore j c (by omega) h4 hc

theorem IsFirst.unique {s e : ℕ} {r r' : Option ℕ} (h : IsFirst read p s e r)
    (h' : IsFirst read p s e r') : r = r' := by
  cases r with
  | none =>
    cases r' with
    | none => rfl
    | some k' =>
      have ⟨h1, h2, ⟨b, hb, hmatch⟩, _⟩ := h'
      rw [h k' b h1 h2 hb] at hmatch
      exact absurd hmatch (by decide)
  | some k =>
    have ⟨h1, h2, ⟨b, hb, hmatch⟩, hbefore⟩ := h
    cases r' with
    | none =>
      rw [h' k b h1 h2 hb] at hmatch
      exact absurd hmatch (by decide)
    | some k' =>
      have ⟨h1', h2', ⟨b', hb', hmatch'⟩, hbefore'⟩ := h'
      rcases Nat.lt_trichotomy k k' with hlt | heq | hgt
      · rw [hbefore' k b h1 hlt hb] at hmatch
        exact absurd hmatch (by decide)
      · rw [heq]
      · rw [hbefore k' b' h1' hgt hb'] at hmatch'
        exact absurd hmatch' (by decide)

theorem IsFirst.or {q : α → Bool} {s e : ℕ} {r r' : Option ℕ} (h : IsFirst read p s e r)
    (h' : IsFirst read q s e r') : IsFirst read (fun b => p b || q b) s e
      (match r, r' with
        | some k, some k' => some (min k k')
        | some k, none => some k
        | none, k' => k') := by
  cases r with
  | none =>
    cases r' with
    | none =>
      intro j b h1 h2 hb
      exact Bool.or_eq_false_iff.mpr ⟨h j b h1 h2 hb, h' j b h1 h2 hb⟩
    | some k' =>
      have ⟨h1', h2', ⟨b', hb', hmatch'⟩, hbefore'⟩ := h'
      refine ⟨h1', h2', ⟨b', hb', Bool.or_eq_true_iff.mpr (Or.inr hmatch')⟩, fun j b h1 h2 hb => ?_⟩
      exact Bool.or_eq_false_iff.mpr ⟨h j b h1 (by omega) hb, hbefore' j b h1 h2 hb⟩
  | some k =>
    have ⟨h1, h2, ⟨b, hb, hmatch⟩, hbefore⟩ := h
    cases r' with
    | none =>
      refine ⟨h1, h2, ⟨b, hb, Bool.or_eq_true_iff.mpr (Or.inl hmatch)⟩, fun j d h3 h4 hd => ?_⟩
      exact Bool.or_eq_false_iff.mpr ⟨hbefore j d h3 h4 hd, h' j d h3 (by omega) hd⟩
    | some k' =>
      have ⟨h1', h2', ⟨b', hb', hmatch'⟩, hbefore'⟩ := h'
      refine ⟨by omega, by omega, ?_, fun j d h3 h4 hd => ?_⟩
      · rcases Nat.le_total k k' with hle | hle
        · rw [Nat.min_eq_left hle]
          exact ⟨b, hb, Bool.or_eq_true_iff.mpr (Or.inl hmatch)⟩
        · rw [Nat.min_eq_right hle]
          exact ⟨b', hb', Bool.or_eq_true_iff.mpr (Or.inr hmatch')⟩
      · exact Bool.or_eq_false_iff.mpr
          ⟨hbefore j d h3 (by omega) hd, hbefore' j d h3 (by omega) hd⟩

end First

end Reasoning
