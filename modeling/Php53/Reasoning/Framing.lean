import Mathlib.Algebra.GroupWithZero.Nat
import Mathlib.Algebra.Group.Int.Defs
import Mathlib.Data.List.Basic

/-!
# Framing — streams of self-delimiting frames

A frame is encoded so that the decoder finds its end without looking behind it.  So a stream of
frames is parsed back into the frames, and it can only be cut between two of them.
-/

namespace Reasoning

variable {F B : Type}

structure Framing (F B : Type) where
  Valid : F → Prop
  encode : F → List B
  decode : List B → Option (F × List B)
  decode_encode : ∀ f rest, Valid f → decode (encode f ++ rest) = some (f, rest)
  decode_lt : ∀ bs f rest, decode bs = some (f, rest) → rest.length < bs.length

namespace Framing

variable (fr : Framing F B)

def parseLoop : Nat → List B → Option (List F)
  | _, [] => some []
  | 0, _ :: _ => none
  | n + 1, b :: bs =>
    (fr.decode (b :: bs)).bind fun (f, rest) => (parseLoop n rest).map (f :: ·)

def parse (bs : List B) : Option (List F) := fr.parseLoop bs.length bs

def encodeAll (fs : List F) : List B := fs.flatMap fr.encode

theorem parseLoop_eq (n : Nat) (bs : List B) (hn : bs.length ≤ n) :
    fr.parseLoop n bs = fr.parse bs := by
  induction n using Nat.strongRecOn generalizing bs with
  | ind n ih =>
    cases bs with
    | nil => cases n <;> rfl
    | cons b bs =>
      cases n with
      | zero => exact absurd hn (Nat.not_succ_le_zero _)
      | succ n =>
        show fr.parseLoop (n + 1) (b :: bs) = fr.parseLoop (bs.length + 1) (b :: bs)
        rw [parseLoop, parseLoop]
        cases hd : fr.decode (b :: bs) with
        | none => rfl
        | some r =>
          -- both sides go on with the same shorter rest
          have hlt := fr.decode_lt _ _ _ hd
          simp only [List.length_cons] at hlt hn
          simp only [Option.bind_some]
          rw [ih n (by omega) r.2 (by omega), ih bs.length (by omega) r.2 (by omega)]

theorem parse_decode {bs rest : List B} {f : F} (hd : fr.decode bs = some (f, rest)) :
    fr.parse bs = (fr.parse rest).map (f :: ·) := by
  have hlt := fr.decode_lt _ _ _ hd
  cases bs with
  | nil => exact absurd hlt (Nat.not_lt_zero _)
  | cons b bs =>
    show fr.parseLoop (bs.length + 1) (b :: bs) = _
    rw [parseLoop, hd, Option.bind_some]
    simp only [List.length_cons] at hlt
    show (fr.parseLoop bs.length rest).map (f :: ·) = _
    rw [fr.parseLoop_eq bs.length rest (by omega)]

theorem parse_of_decode_none {bs : List B} (hne : bs ≠ []) (hd : fr.decode bs = none) :
    fr.parse bs = none := by
  cases bs with
  | nil => exact absurd rfl hne
  | cons b bs =>
    show fr.parseLoop (bs.length + 1) (b :: bs) = _
    rw [parseLoop, hd, Option.bind_none]

theorem parse_encode_append {f : F} (hf : fr.Valid f) (rest : List B) :
    fr.parse (fr.encode f ++ rest) = (fr.parse rest).map (f :: ·) :=
  fr.parse_decode (fr.decode_encode f rest hf)

theorem parse_encodeAll {fs : List F} (hfs : ∀ f ∈ fs, fr.Valid f) :
    fr.parse (fr.encodeAll fs) = some fs := by
  induction fs with
  | nil => rfl
  | cons f fs ih =>
    show fr.parse (fr.encode f ++ fr.encodeAll fs) = _
    rw [fr.parse_encode_append (hfs f (by simp)), ih fun g hg => hfs g (by simp [hg])]
    rfl

@[simp] theorem encodeAll_nil : fr.encodeAll [] = [] := rfl

@[simp] theorem encodeAll_cons (f : F) (fs : List F) :
    fr.encodeAll (f :: fs) = fr.encode f ++ fr.encodeAll fs := rfl

@[simp] theorem encodeAll_append (fs gs : List F) :
    fr.encodeAll (fs ++ gs) = fr.encodeAll fs ++ fr.encodeAll gs :=
  List.flatMap_append

def PrefixFree : Prop :=
  ∀ f, fr.Valid f → ∀ p s, fr.encode f = p ++ s → s ≠ [] → fr.decode p = none

theorem PrefixFree.parse_cut {fr : Framing F B} (hfree : fr.PrefixFree) {fs gs : List F}
    {p s : List B} (hfs : ∀ f ∈ fs, fr.Valid f) (hcut : fr.encodeAll fs = p ++ s)
    (hparse : fr.parse p = some gs) :
    ∃ hs, fs = gs ++ hs ∧ p = fr.encodeAll gs ∧ s = fr.encodeAll hs := by
  induction fs generalizing p gs with
  | nil =>
    obtain ⟨rfl, rfl⟩ := List.append_eq_nil_iff.mp hcut.symm
    obtain rfl := Option.some.inj hparse
    exact ⟨[], rfl, rfl, rfl⟩
  | cons f fs ih =>
    have hf : fr.Valid f := hfs f (by simp)
    by_cases hp : p = []
    · subst hp
      obtain rfl := Option.some.inj hparse
      exact ⟨f :: fs, rfl, rfl, hcut.symm⟩
    rw [encodeAll_cons] at hcut
    rcases List.append_eq_append_iff.mp hcut with ⟨p', rfl, hrest⟩ | ⟨s', hsplit, rfl⟩
    · -- the first frame is in front of the cut
      rw [fr.parse_encode_append hf] at hparse
      obtain ⟨gs', hgs', rfl⟩ := Option.map_eq_some_iff.mp hparse
      obtain ⟨hs, rfl, rfl, rfl⟩ := ih (fun g hg => hfs g (by simp [hg])) hrest hgs'
      exact ⟨hs, rfl, rfl, rfl⟩
    · by_cases hs' : s' = []
      · -- the cut is just behind it
        subst hs'
        rw [List.append_nil] at hsplit
        subst hsplit
        have hone := fr.parse_encode_append hf []
        rw [List.append_nil, hparse] at hone
        obtain rfl : gs = [f] := Option.some.inj hone
        exact ⟨fs, rfl, by simp, rfl⟩
      · rw [fr.parse_of_decode_none hp (hfree f hf p s' hsplit hs')] at hparse
        exact nomatch hparse

end Framing

end Reasoning
