import Mathlib.Data.List.Chain
import Php53.Standard.StripPieces

/-!
# StripOpeners — `php_strip_tags_ex` without a list of allowed tags

What is written for one byte depends on the state in front of it.  Only the output state writes, and
it writes a `<` in front of white space only.
-/

namespace Php53.Standard

open Zend (ch)

namespace StripVars

variable {t : Ctype} {before next : UInt8} {behind : List UInt8} {v : StripVars} {c : UInt8}

/-- A byte that the output state does not write: NUL, and the `<` of a tag. -/
def Dropped (t : Ctype) (c next : UInt8) : Prop :=
  c = 0 ∨ c = ch '<' ∧ t.isspace next = false

instance (t : Ctype) (c next : UInt8) : Decidable (Dropped t c next) :=
  inferInstanceAs (Decidable (_ ∨ _))

theorem isspace_of_dropped (h : Dropped t c next) : t.isspace c = false := by
  have hascii : c < 128 ∧ ¬ (c = 32 ∨ 9 ≤ c ∧ c ≤ 13) := by
    cases h with
    | inl h => rw [h]; decide
    | inr h => rw [h.1]; decide
  rw [t.isspace_ascii c hascii.1]
  exact decide_eq_false hascii.2

variable (before behind) in
theorem step_written (hv : v.Settled) (hs : v.state = .output) (hc : ¬ Dropped t c next) :
    Effect v (v.step t false none before behind c next) .output [c] := by
  have heffect := step_effect t false none before next c behind hv
  rw [Bool.not_false, Bool.and_true, hs] at heffect
  have hopen : ¬ (c = ch '<' ∧ t.isspace next = false) := fun h => hc (.inr h)
  have hkept : ¬ (c = 0 ∨ c = ch '<' ∧ t.isspace next = false) := hc
  unfold afterRound writtenIn at heffect
  dsimp only at heffect
  rwa [if_neg hopen, if_neg hkept] at heffect

theorem step_quiet (before : UInt8) (behind : List UInt8) (hv : v.Settled)
    (hc : v.state ≠ .output ∨ Dropped t c next) :
    (v.step t false none before behind c next).out = v.out ∧
      (v.step t false none before behind c next).Settled := by
  have heffect := step_effect t false none before next c behind hv
  refine ⟨heffect.out.trans ?_, heffect.settled⟩
  have hnone : writtenIn c (t.isspace next && !false) (ends behind.length (behind.headD before)
      (behind.tail.headD before) v) (tagText t none v) v.state = [] := by
    rw [Bool.not_false, Bool.and_true]
    cases hs : v.state with
    | output => exact if_pos (hc.resolve_left (not_not.mpr hs))
    | html => exact ite_self []
    | php => rfl
    | declaration => rfl
    | comment => rfl
  rw [hnone, List.append_nil]

/-- A `<` is followed by white space. -/
def NoOpener (t : Ctype) (text : List UInt8) : Prop :=
  text.IsChain fun b c => b = ch '<' → t.isspace c = true

/-- What is written of the text that is read; at its end may be a `<` if white space comes next. -/
structure Clear (t : Ctype) (read : Nat) (next : UInt8) (v : StripVars) : Prop where
  settled : v.Settled
  short : v.out.length ≤ read
  noOpener : NoOpener t v.out
  noNul : 0 ∉ v.out
  last : v.out.getLast? = some (ch '<') → v.state = .output ∧ t.isspace next = true

theorem Clear.step (h : Clear t behind.length c v) :
    Clear t (c :: behind).length next (v.step t false none before behind c next) := by
  by_cases hquiet : v.state ≠ .output ∨ Dropped t c next
  · obtain ⟨hout, hsettled⟩ := step_quiet before behind h.settled hquiet
    refine ⟨hsettled, ?_, ?_, ?_, ?_⟩
    · rw [hout]
      exact Nat.le_succ_of_le h.short
    · rw [hout]
      exact h.noOpener
    · rw [hout]
      exact h.noNul
    · rw [hout]
      intro hlast
      obtain ⟨hs, hspace⟩ := h.last hlast
      rw [isspace_of_dropped (hquiet.resolve_left (not_not.mpr hs))] at hspace
      exact absurd hspace (by decide)
  · rw [not_or, not_not] at hquiet
    obtain ⟨hs, hc⟩ := hquiet
    obtain ⟨hstate, hout, hsettled⟩ := step_written before behind h.settled hs hc
    refine ⟨hsettled, ?_, ?_, ?_, ?_⟩
    · rw [hout, List.length_append]
      exact Nat.succ_le_succ h.short
    · rw [hout]
      show (v.out ++ [c]).IsChain _
      rw [List.isChain_append]
      refine ⟨h.noOpener, List.isChain_singleton c, ?_⟩
      intro b hb d hd hlt
      rw [List.head?_cons, Option.mem_some_iff] at hd
      rw [← hd]
      rw [hlt] at hb
      exact (h.last hb).2
    · rw [hout]
      intro hmem
      cases List.mem_append.mp hmem with
      | inl hmem => exact h.noNul hmem
      | inr hmem => exact hc (Or.inl (List.mem_singleton.mp hmem).symm)
    · rw [hout, List.getLast?_concat]
      intro hlast
      have hlt : c = ch '<' := Option.some.inj hlast
      have hspace : ¬ t.isspace next = false := fun hn => hc (Or.inr ⟨hlt, hn⟩)
      exact ⟨hstate, Bool.not_eq_false _ ▸ hspace⟩

theorem Clear.scan {rest : List UInt8} {last : UInt8} (h : Clear t behind.length (rest.headD last) v) :
    Clear t (behind.length + rest.length) last (v.scan t false none before behind rest last) := by
  induction rest generalizing behind v with
  | nil => exact h
  | cons c rest ih =>
    have hstep : Clear t (c :: behind).length (rest.headD last)
        (v.step t false none before behind c (rest.headD last)) := Clear.step h
    have hrest := ih hstep
    rw [List.length_cons] at hrest ⊢
    rw [show behind.length + (rest.length + 1) = behind.length + 1 + rest.length by omega]
    exact hrest

theorem scan_written (behind : List UInt8) (hv : v.Settled) (hs : v.state = .output) {rest : List UInt8}
    (hchain : NoOpener t rest) (hnul : 0 ∉ rest) (hlast : rest.getLast? ≠ some (ch '<')) :
    (v.scan t false none before behind rest 0).out = v.out ++ rest := by
  induction rest generalizing behind v with
  | nil => exact (List.append_nil _).symm
  | cons c rest ih =>
    have hc : ¬ Dropped t c (rest.headD 0) := by
      intro hc
      cases hc with
      | inl h₀ => exact hnul (by rw [h₀]; exact List.mem_cons_self)
      | inr hlt =>
        cases rest with
        | nil => exact hlast (by rw [hlt.1]; rfl)
        | cons d rest =>
          have hspace := (List.isChain_cons_cons.mp hchain).1 hlt.1
          rw [List.headD_cons] at hlt
          rw [hlt.2] at hspace
          exact nomatch hspace
    have hlast' : rest.getLast? ≠ some (ch '<') := by
      cases rest with
      | nil => exact nofun
      | cons d rest => rwa [List.getLast?_cons_cons] at hlast
    obtain ⟨hstate, hout, hsettled⟩ := step_written before behind hv hs hc
    have hrest := ih (c :: behind) hsettled hstate hchain.tail
      (fun h => hnul (List.mem_cons_of_mem _ h)) hlast'
    rw [StripVars.scan, hrest, hout, List.append_assoc]
    rfl

end StripVars

/-- In whatever state it begins, what is written has no tag and is no longer than the text, and a
second time nothing changes. -/
theorem phpStripTagsEx_noOpener (t : Ctype) (before : UInt8) (text : List UInt8)
    (state : StripState) :
    let out := (phpStripTagsEx t false before text state none).out
    out.length ≤ text.length ∧ StripVars.NoOpener t out ∧
      ∀ before', (phpStripTagsEx t false before' out .output none).out = out := by
  have hstart : StripVars.Clear t ([] : List UInt8).length (text.headD 0) (.start state) :=
    ⟨fun _ => ⟨rfl, rfl⟩, Nat.le_refl 0, List.isChain_nil, List.not_mem_nil, nofun⟩
  have hclear : StripVars.Clear t (([] : List UInt8).length + text.length) 0
      ((StripVars.start state).scan t false none before [] text 0) := hstart.scan
  have hlast : ((StripVars.start state).scan t false none before [] text 0).out.getLast? ≠
      some (ch '<') := by
    intro hlast
    have hspace := (hclear.last hlast).2
    rw [t.isspace_ascii 0 (by decide)] at hspace
    exact absurd hspace (by decide)
  refine ⟨?_, hclear.noOpener, fun before' => ?_⟩
  · have hshort := hclear.short
    rwa [List.length_nil, Nat.zero_add] at hshort
  · have hsettled : (StripVars.start .output).Settled := fun _ => ⟨rfl, rfl⟩
    exact StripVars.scan_written [] hsettled rfl hclear.noOpener hclear.noNul hlast

example : (phpStripTagsEx .c false 0 ("a <b>1 < 2</b> <!-- > --> c<".toList.map ch) .output none).out =
    "a 1 < 2  c".toList.map ch := by decide +kernel

end Php53.Standard
