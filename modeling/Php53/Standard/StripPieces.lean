import Php53.Standard.StripTags

/-!
# StripPieces — the calls on the pieces of a text

A call goes on with the state in which the last one ended, but it has lost what the scan of the whole
text knows.  As long as no test comes out differently for that, nothing is written differently.
-/

namespace Php53.Standard

open Zend (ch)
open List

namespace StripVars

variable {t : Ctype} {spaces : Bool} {allow : Option (List UInt8)}

def Settled (v : StripVars) : Prop := v.state = .output → v.depth = 0 ∧ v.inQ = 0

/-- The tests by which `case '>':` ends what is open. -/
def ends (pos : Nat) (p1 p2 : UInt8) (v : StripVars) : Bool :=
  v.depth = 0 && v.inQ = 0 &&
    match v.state with
    | .php => decide (v.br = 0 ∧ v.lc ≠ ch '"' ∧ p1 = ch '?')
    | .comment => decide (2 ≤ pos ∧ p1 = ch '-' ∧ p2 = ch '-')
    | _ => true

/-- What `case '>':` writes of a tag that it ends. -/
def tagText (t : Ctype) (allow : Option (List UInt8)) (v : StripVars) : List UInt8 :=
  match allow with
  | some allowed => if phpTagFind t (v.tbuf ++ [ch '>']) allowed then v.tbuf ++ [ch '>'] else []
  | none => []

/-- The tests by which something that is open becomes something else at `c`. -/
def turns (t : Ctype) (behind : List UInt8) (p1 p2 c : UInt8) (v : StripVars) : Bool :=
  let xml := v.state = .php ∧ 2 < behind.length ∧ t.tolower p2 = ch 'x' ∧ t.tolower p1 = ch 'm'
  let doctype := v.state = .declaration ∧ 6 < behind.length ∧ isDoctyp t behind
  if c = ch '!' then v.state = .html ∧ p1 = ch '<'
  else if c = ch '-' then v.state = .declaration ∧ 2 ≤ behind.length ∧ p1 = ch '-' ∧ p2 = ch '!'
  else if c = ch '?' then v.state = .html ∧ p1 = ch '<' ∨ doctype ∨ xml
  else if c = ch 'E' ∨ c = ch 'e' then doctype ∨ xml
  else if c = ch 'l' ∨ c = ch 'L' then xml
  else false

def afterRound (c : UInt8) (blank ends turns : Bool) : StripState → StripState
  | .output => if c = ch '<' ∧ blank = false then .html else .output
  | s =>
    if c = ch '>' then if ends then .output else s
    else if turns then
      if c = ch '!' then .declaration else if c = ch '-' then .comment
      else if s = .html then .php else .html
    else s

def writtenIn (c : UInt8) (blank ends : Bool) (tag : List UInt8) : StripState → List UInt8
  | .output => if c = 0 ∨ c = ch '<' ∧ blank = false then [] else [c]
  | .html => if c = ch '>' ∧ ends = true then tag else []
  | _ => []

/-- What a round does, as far as the caller gets to know it. -/
structure Effect (v v' : StripVars) (s : StripState) (text : List UInt8) : Prop where
  state : v'.state = s
  out : v'.out = v.out ++ text
  settled : v'.Settled

variable {before next c p1 p2 : UInt8} {behind : List UInt8} {v : StripVars} {pos : Nat}
  {s : StripState}

theorem Effect.ite {p : Prop} [Decidable p] {w w' : StripVars} {text : List UInt8}
    (h : p → Effect v w s text) (h' : ¬ p → Effect v w' s text) :
    Effect v (if p then w else w') s text := by
  split
  · exact h ‹_›
  · exact h' ‹_›

/-- Where something is open, only the state matters. -/
structure Kept (v w : StripVars) : Prop where
  state : w.state = v.state
  out : w.out = v.out

variable (allow) in
theorem regChar_kept (hs : v.state ≠ .output) (c : UInt8) : Kept v (v.regChar allow c) := by
  unfold regChar
  cases h : v.state with
  | output => exact absurd h hs
  | html => cases allow <;> exact ⟨rfl, rfl⟩
  | php => exact ⟨rfl, rfl⟩
  | declaration => exact ⟨rfl, rfl⟩
  | comment => exact ⟨rfl, rfl⟩

theorem lessThan_kept (hs : v.state ≠ .output) : Kept v (v.lessThan t spaces allow next) := by
  unfold lessThan
  split
  · exact ⟨rfl, rfl⟩
  · split
    · exact regChar_kept _ hs _
    · cases h : v.state with
      | output => exact absurd h hs
      | html => exact ⟨h.symm ▸ h, rfl⟩
      | php => exact ⟨rfl, rfl⟩
      | declaration => exact ⟨rfl, rfl⟩
      | comment => exact ⟨rfl, rfl⟩

theorem bracket_kept (hs : v.state ≠ .output) (c : UInt8) : Kept v (v.bracket allow c) := by
  unfold bracket
  split
  · split <;> exact ⟨rfl, rfl⟩
  · exact regChar_kept _ hs c

theorem quote_kept (hs : v.state ≠ .output) (c : UInt8) : Kept v (v.quote allow c pos p1) := by
  have hreg := regChar_kept allow hs c
  unfold quote
  split
  · exact ⟨rfl, rfl⟩
  · have hinner : Kept v (if v.state = .php ∧ p1 ≠ ch '\\' then
        if v.lc = c then { v with lc := 0 } else if v.lc ≠ ch '\\' then { v with lc := c } else v
        else v.regChar allow c) := by
      split
      · split
        · exact ⟨rfl, rfl⟩
        · split <;> exact ⟨rfl, rfl⟩
      · exact hreg
    dsimp only
    split
    · exact ⟨hinner.state, hinner.out⟩
    · exact hinner

theorem writtenIn_inside (hs : v.state ≠ .output) (hc : c ≠ ch '>') (blank ends : Bool)
    (tag : List UInt8) : writtenIn c blank ends tag v.state = [] := by
  cases hv : v.state with
  | output => exact absurd hv hs
  | html => exact if_neg fun h => hc h.1
  | php => rfl
  | declaration => rfl
  | comment => rfl

theorem Kept.effect {w : StripVars} (h : Kept v w) (hs : v.state ≠ .output) (hc : c ≠ ch '>')
    {turns : Bool} (ht : turns = false) (blank ends : Bool) (tag : List UInt8) :
    Effect v w (afterRound c blank ends turns v.state) (writtenIn c blank ends tag v.state) := by
  have hstate : afterRound c blank ends turns v.state = v.state := by
    rw [ht, afterRound.eq_2 _ _ _ _ _ hs, if_neg hc]
    rfl
  rw [hstate, writtenIn_inside hs hc]
  exact ⟨h.state, by rw [h.out, List.append_nil], fun ho => absurd (h.state.symm.trans ho) hs⟩

theorem greaterThan_effect (hs : v.state ≠ .output) (blank turns : Bool) :
    Effect v (v.greaterThan t allow pos p1 p2)
      (afterRound (ch '>') blank (ends pos p1 p2 v) turns v.state)
      (writtenIn (ch '>') blank (ends pos p1 p2 v) (tagText t allow v) v.state) := by
  obtain ⟨s, d, q, l, b, tb, o⟩ := v
  have hnot : ∀ w : StripVars, w.state = s → w.out = o → ends pos p1 p2 ⟨s, d, q, l, b, tb, o⟩ = false →
      Effect ⟨s, d, q, l, b, tb, o⟩ w
        (afterRound (ch '>') blank (ends pos p1 p2 ⟨s, d, q, l, b, tb, o⟩) turns s)
        (writtenIn (ch '>') blank (ends pos p1 p2 ⟨s, d, q, l, b, tb, o⟩)
          (tagText t allow ⟨s, d, q, l, b, tb, o⟩) s) := by
    intro w hw ho hends
    rw [hends, afterRound.eq_2 _ _ _ _ _ hs]
    refine ⟨hw, ?_, fun h => absurd (hw.symm.trans h) hs⟩
    rw [ho]
    cases s <;> first | exact absurd rfl hs | exact (List.append_nil _).symm
  unfold greaterThan
  by_cases hd : d ≠ 0
  · rw [if_pos hd]
    exact hnot _ rfl rfl (by simp [ends, hd])
  by_cases hq : q ≠ 0
  · rw [if_neg hd, if_pos hq]
    exact hnot _ rfl rfl (by simp [ends, hq])
  rw [if_neg hd, if_neg hq]
  rw [not_not] at hd hq
  subst hd hq
  cases s with
  | output => exact absurd rfl hs
  | html =>
    cases allow with
    | none => exact ⟨rfl, (List.append_nil _).symm, fun _ => ⟨rfl, rfl⟩⟩
    | some allowed =>
      refine ⟨rfl, ?_, fun _ => ⟨rfl, rfl⟩⟩
      show (if phpTagFind t (tb ++ [ch '>']) allowed then o ++ (tb ++ [ch '>']) else o) =
        o ++ if phpTagFind t (tb ++ [ch '>']) allowed then tb ++ [ch '>'] else []
      split
      · rfl
      · exact (List.append_nil _).symm
  | php =>
    dsimp only
    by_cases h : b = 0 ∧ l ≠ ch '"' ∧ p1 = ch '?'
    · rw [if_pos h]
      have hends : ends pos p1 p2 ⟨.php, 0, 0, l, b, tb, o⟩ = true := decide_eq_true h
      rw [hends]
      exact ⟨rfl, (List.append_nil _).symm, fun _ => ⟨rfl, rfl⟩⟩
    · rw [if_neg h]
      exact hnot _ rfl rfl (decide_eq_false h)
  | declaration => exact ⟨rfl, (List.append_nil _).symm, fun _ => ⟨rfl, rfl⟩⟩
  | comment =>
    dsimp only
    by_cases h : 2 ≤ pos ∧ p1 = ch '-' ∧ p2 = ch '-'
    · rw [if_pos h]
      have hends : ends pos p1 p2 ⟨.comment, 0, 0, l, b, tb, o⟩ = true := decide_eq_true h
      rw [hends]
      exact ⟨rfl, (List.append_nil _).symm, fun _ => ⟨rfl, rfl⟩⟩
    · rw [if_neg h]
      exact hnot _ rfl rfl (decide_eq_false h)

/-- What is open becomes what the tests say. -/
theorem Effect.turn (w : StripVars) (s : StripState) (hs : v.state ≠ .output) (hc : c ≠ ch '>')
    {turns : Bool} (ht : turns = true) (hw : w.state = s) (hout : w.out = v.out) (hne : s ≠ .output)
    (hkind : (if c = ch '!' then StripState.declaration else if c = ch '-' then .comment
      else if v.state = .html then .php else .html) = s) (blank ends : Bool) (tag : List UInt8) :
    Effect v w (afterRound c blank ends turns v.state) (writtenIn c blank ends tag v.state) := by
  have hstate : afterRound c blank ends turns v.state = s := by
    rw [ht, afterRound.eq_2 _ _ _ _ _ hs, if_neg hc, if_pos rfl, hkind]
  rw [hstate, writtenIn_inside hs hc]
  exact ⟨hw, by rw [hout, List.append_nil], fun ho => absurd (hw.symm.trans ho) hne⟩

theorem xml_effect (hs : v.state ≠ .output) (hc : c = ch '?' ∨ c = ch 'E' ∨ c = ch 'e' ∨ c = ch 'l' ∨
      c = ch 'L') (blank ends : Bool) (tag : List UInt8) {turns : Bool}
    (ht : turns = decide (v.state = .php ∧ 2 < pos ∧ t.tolower p2 = ch 'x' ∧ t.tolower p1 = ch 'm')) :
    Effect v (v.xml t allow c pos p1 p2) (afterRound c blank ends turns v.state)
      (writtenIn c blank ends tag v.state) := by
  have hgt : c ≠ ch '>' := by rcases hc with rfl | rfl | rfl | rfl | rfl <;> decide
  unfold xml
  by_cases h : v.state = .php ∧ 2 < pos ∧ t.tolower p2 = ch 'x' ∧ t.tolower p1 = ch 'm'
  · rw [if_pos h]
    refine Effect.turn { v with state := .html } .html hs hgt (ht.trans (decide_eq_true h)) rfl rfl (by decide) ?_ _ _ _
    rw [h.1]
    rcases hc with rfl | rfl | rfl | rfl | rfl <;> rfl
  · rw [if_neg h]
    exact (regChar_kept _ hs c).effect hs hgt (ht.trans (decide_eq_false h)) blank ends tag

theorem doctype_effect (hs : v.state ≠ .output) (hc : c = ch '?' ∨ c = ch 'E' ∨ c = ch 'e')
    (blank ends : Bool) (tag : List UInt8) {turns : Bool}
    (ht : turns = decide ((v.state = .declaration ∧ 6 < behind.length ∧ isDoctyp t behind) ∨
      (v.state = .php ∧ 2 < behind.length ∧ t.tolower p2 = ch 'x' ∧ t.tolower p1 = ch 'm'))) :
    Effect v (v.doctype t allow c behind p1 p2) (afterRound c blank ends turns v.state)
      (writtenIn c blank ends tag v.state) := by
  have hgt : c ≠ ch '>' := by rcases hc with rfl | rfl | rfl <;> decide
  unfold doctype
  by_cases h : v.state = .declaration ∧ 6 < behind.length ∧ isDoctyp t behind
  · rw [if_pos h]
    refine Effect.turn { v with state := .html } .html hs hgt (ht.trans (decide_eq_true (.inl h))) rfl rfl (by decide) ?_
      _ _ _
    rw [h.1]
    rcases hc with rfl | rfl | rfl <;> rfl
  · rw [if_neg h]
    simp only [h, false_or] at ht
    exact xml_effect hs (hc.imp_right (Or.imp_right .inl)) blank ends tag ht

theorem step_hidden (hs : v.state ≠ .output) (blank : Bool) :
    Effect v (v.step t spaces allow before behind c next)
      (afterRound c blank (ends behind.length (behind.headD before) (behind.tail.headD before) v)
        (turns t behind (behind.headD before) (behind.tail.headD before) c v) v.state)
      (writtenIn c blank (ends behind.length (behind.headD before) (behind.tail.headD before) v)
        (tagText t allow v) v.state) := by
  rw [step]
  generalize behind.headD before = p1
  generalize behind.tail.headD before = p2
  by_cases h : c = 0
  · subst h
    exact Kept.effect ⟨rfl, rfl⟩ hs (by decide) rfl _ _ _
  rw [if_neg h]
  by_cases h : c = ch '<'
  · subst h
    exact (lessThan_kept hs).effect hs (by decide) rfl _ _ _
  rw [if_neg h]
  by_cases h : c = ch '(' ∨ c = ch ')'
  · rw [if_pos h]
    rcases h with rfl | rfl
    · exact (bracket_kept hs _).effect hs (by decide) rfl _ _ _
    · exact (bracket_kept hs _).effect hs (by decide) rfl _ _ _
  rw [if_neg h]
  by_cases hgt : c = ch '>'
  · rw [if_pos hgt, hgt]
    exact greaterThan_effect hs _ _
  rw [if_neg hgt]
  by_cases h : c = ch '"' ∨ c = ch '\''
  · rw [if_pos h]
    rcases h with rfl | rfl
    · exact (quote_kept hs _).effect hs (by decide) rfl _ _ _
    · exact (quote_kept hs _).effect hs (by decide) rfl _ _ _
  rw [if_neg h]
  have hreg := regChar_kept allow hs c
  by_cases hmark : c = ch '!'
  · rw [if_pos hmark]
    have ht : turns t behind p1 p2 c v = decide (v.state = .html ∧ p1 = ch '<') := by
      rw [turns, if_pos hmark]
    by_cases h : v.state = .html ∧ p1 = ch '<'
    · rw [if_pos h]
      exact Effect.turn { v with state := .declaration, lc := c } .declaration hs hgt
        (ht.trans (decide_eq_true h)) rfl rfl (by decide) (if_pos hmark) _ _ _
    · rw [if_neg h]
      exact hreg.effect hs hgt (ht.trans (decide_eq_false h)) _ _ _
  rw [if_neg hmark]
  by_cases hdash : c = ch '-'
  · rw [if_pos hdash]
    have ht : turns t behind p1 p2 c v =
        decide (v.state = .declaration ∧ 2 ≤ behind.length ∧ p1 = ch '-' ∧ p2 = ch '!') := by
      rw [turns, if_neg hmark, if_pos hdash]
    by_cases h : v.state = .declaration ∧ 2 ≤ behind.length ∧ p1 = ch '-' ∧ p2 = ch '!'
    · rw [if_pos h]
      exact Effect.turn { v with state := .comment } .comment hs hgt (ht.trans (decide_eq_true h)) rfl rfl
        (by decide)
        ((if_neg hmark).trans (if_pos hdash)) _ _ _
    · rw [if_neg h]
      exact hreg.effect hs hgt (ht.trans (decide_eq_false h)) _ _ _
  rw [if_neg hdash]
  by_cases hquestion : c = ch '?'
  · rw [if_pos hquestion]
    have ht : turns t behind p1 p2 c v = decide (v.state = .html ∧ p1 = ch '<' ∨
        (v.state = .declaration ∧ 6 < behind.length ∧ isDoctyp t behind) ∨
        (v.state = .php ∧ 2 < behind.length ∧ t.tolower p2 = ch 'x' ∧ t.tolower p1 = ch 'm')) := by
      rw [turns, if_neg hmark, if_neg hdash, if_pos hquestion]
    by_cases h : v.state = .html ∧ p1 = ch '<'
    · rw [if_pos h]
      exact Effect.turn { v with br := 0, state := .php } .php hs hgt (ht.trans (decide_eq_true (.inl h)))
        rfl rfl (by decide)
        ((if_neg hmark).trans ((if_neg hdash).trans (if_pos h.1))) _ _ _
    · rw [if_neg h]
      simp only [h, false_or] at ht
      exact doctype_effect hs (.inl hquestion) _ _ _ ht
  rw [if_neg hquestion]
  by_cases he : c = ch 'E' ∨ c = ch 'e'
  · rw [if_pos he]
    refine doctype_effect hs (.inr he) _ _ _ ?_
    rw [turns, if_neg hmark, if_neg hdash, if_neg hquestion, if_pos he]
  rw [if_neg he]
  by_cases hl : c = ch 'l' ∨ c = ch 'L'
  · rw [if_pos hl]
    refine xml_effect hs (.inr (.inr (.inr hl))) _ _ _ ?_
    rw [turns, if_neg hmark, if_neg hdash, if_neg hquestion, if_neg he, if_pos hl]
  rw [if_neg hl]
  refine hreg.effect hs hgt ?_ _ _ _
  rw [turns, if_neg hmark, if_neg hdash, if_neg hquestion, if_neg he, if_neg hl]

theorem step_output (hv : v.Settled) (hs : v.state = .output) (ends turns : Bool) (tag : List UInt8) :
    Effect v (v.step t spaces allow before behind c next)
      (afterRound c (t.isspace next && !spaces) ends turns v.state)
      (writtenIn c (t.isspace next && !spaces) ends tag v.state) := by
  obtain ⟨hd, hq⟩ := hv hs
  obtain ⟨s, d, q, l, b, tb, o⟩ := v
  obtain rfl : s = .output := hs
  obtain rfl : d = 0 := hd
  obtain rfl : q = 0 := hq
  by_cases hlt : c = ch '<'
  · subst hlt
    show Effect _ (if t.isspace next = true ∧ spaces = false then _ else _) _ _
    by_cases hblank : t.isspace next = true ∧ spaces = false
    · rw [if_pos hblank, hblank.1, hblank.2]
      exact ⟨rfl, rfl, fun _ => ⟨rfl, rfl⟩⟩
    · have hopens : (t.isspace next && !spaces) = false := by
        rw [not_and, Bool.not_eq_false] at hblank
        cases ht : t.isspace next with
        | false => rfl
        | true => rw [hblank ht]; rfl
      rw [if_neg hblank, hopens]
      cases allow with
      | none => exact ⟨rfl, (List.append_nil _).symm, fun h => by cases h⟩
      | some allowed => exact ⟨rfl, (List.append_nil _).symm, fun h => by cases h⟩
  have hafter : afterRound c (t.isspace next && !spaces) ends turns .output = .output :=
    if_neg fun h => hlt h.1
  by_cases hzero : c = 0
  · subst hzero
    exact ⟨rfl, (List.append_nil _).symm, fun _ => ⟨rfl, rfl⟩⟩
  have hwritten : writtenIn c (t.isspace next && !spaces) ends tag .output = [c] :=
    if_neg (not_or.mpr ⟨hzero, fun h => hlt h.1⟩)
  have hreg : Effect ⟨.output, 0, 0, l, b, tb, o⟩ (regChar allow c ⟨.output, 0, 0, l, b, tb, o⟩) .output
    [c] := ⟨rfl, rfl, fun _ => ⟨rfl, rfl⟩⟩
  have hopen {w : StripVars} {s : StripState} {p : Prop} [Decidable (StripState.output = s ∧ p)]
      (hne : s ≠ .output) {w' : StripVars} (h : Effect ⟨.output, 0, 0, l, b, tb, o⟩ w' .output [c]) :
      Effect ⟨.output, 0, 0, l, b, tb, o⟩ (if StripState.output = s ∧ p then w else w') .output [c] :=
    Effect.ite (fun hp => absurd hp.1.symm hne) fun _ => h
  have hxml : Effect ⟨.output, 0, 0, l, b, tb, o⟩ (xml t allow c behind.length (behind.headD before)
    (behind.tail.headD before) ⟨.output, 0, 0, l, b, tb, o⟩) .output [c] := hopen (by decide) hreg
  have hdoctype : Effect ⟨.output, 0, 0, l, b, tb, o⟩ (doctype t allow c behind (behind.headD before)
    (behind.tail.headD before) ⟨.output, 0, 0, l, b, tb, o⟩) .output [c] := hopen (by decide) hxml
  rw [hafter, hwritten, step, if_neg hzero, if_neg hlt]
  refine Effect.ite (fun _ => hreg) fun _ => ?_
  refine Effect.ite (fun hgt => hgt ▸ ⟨rfl, rfl, fun _ => ⟨rfl, rfl⟩⟩) fun _ => ?_
  refine Effect.ite (fun _ => ?_) fun _ => ?_
  · unfold quote
    rw [if_neg (show StripState.output ≠ .comment by decide)]
    exact Effect.ite (fun h => absurd rfl h.1) fun _ => hopen (by decide) hreg
  refine Effect.ite (fun _ => hopen (by decide) hreg) fun _ => ?_
  refine Effect.ite (fun _ => hopen (by decide) hreg) fun _ => ?_
  refine Effect.ite (fun _ => hopen (by decide) hdoctype) fun _ => ?_
  exact Effect.ite (fun _ => hdoctype) fun _ => Effect.ite (fun _ => hxml) fun _ => hreg

variable (t spaces allow before next c behind) in
theorem step_effect (hv : v.Settled) :
    Effect v (v.step t spaces allow before behind c next)
      (afterRound c (t.isspace next && !spaces)
        (ends behind.length (behind.headD before) (behind.tail.headD before) v)
        (turns t behind (behind.headD before) (behind.tail.headD before) c v) v.state)
      (writtenIn c (t.isspace next && !spaces)
        (ends behind.length (behind.headD before) (behind.tail.headD before) v)
        (tagText t allow v) v.state) := by
  by_cases hs : v.state = .output
  · exact step_output hv hs _ _ _
  · exact step_hidden hs _

/-- No test in the round for `c` comes out differently, and no tag is kept differently, than in the scan
of the whole text, which is in `w`. -/
def SameTests (t : Ctype) (spaces : Bool) (allow : Option (List UInt8)) (c beforeText nextText : UInt8)
    (behindText : List UInt8) (w : StripVars) (before next : UInt8) (behind : List UInt8)
    (v : StripVars) : Prop :=
  let p1Text := behindText.headD beforeText
  let p2Text := behindText.tail.headD beforeText
  let p1 := behind.headD before
  let p2 := behind.tail.headD before
  (v.state = .output → c = ch '<' →
      (t.isspace nextText && !spaces) = (t.isspace next && !spaces)) ∧
    (c = ch '>' → ends behindText.length p1Text p2Text w = ends behind.length p1 p2 v ∧
      (v.state = .html → ends behind.length p1 p2 v = true → tagText t allow w = tagText t allow v)) ∧
    turns t behindText p1Text p2Text c w = turns t behind p1 p2 c v

instance (t : Ctype) (spaces : Bool) (allow : Option (List UInt8)) (c beforeText nextText : UInt8)
    (behindText : List UInt8) (w : StripVars) (before next : UInt8) (behind : List UInt8)
    (v : StripVars) : Decidable (SameTests t spaces allow c beforeText nextText behindText w before next
      behind v) :=
  inferInstanceAs (Decidable (_ ∧ _ ∧ _))

/-- In no round of a call. -/
def SameRounds (t : Ctype) (spaces : Bool) (allow : Option (List UInt8))
    (beforeText lastText before : UInt8) :
    List UInt8 → StripVars → List UInt8 → StripVars → List UInt8 → Prop
  | _, _, _, _, [] => True
  | behindText, w, behind, v, c :: rest =>
    SameTests t spaces allow c beforeText (rest.headD lastText) behindText w before (rest.headD 0)
      behind v ∧
    SameRounds t spaces allow beforeText lastText before
      (c :: behindText) (w.step t spaces allow beforeText behindText c (rest.headD lastText))
      (c :: behind) (v.step t spaces allow before behind c (rest.headD 0)) rest

instance decidableSameRounds (t : Ctype) (spaces : Bool) (allow : Option (List UInt8))
    (beforeText lastText before : UInt8) : ∀ behindText w behind v rest,
    Decidable (SameRounds t spaces allow beforeText lastText before behindText w behind v rest)
  | _, _, _, _, [] => inferInstanceAs (Decidable True)
  | _, _, _, _, _ :: rest => @instDecidableAnd _ _ _
      (decidableSameRounds t spaces allow beforeText lastText before _ _ _ _ rest)

/-- In none of the calls, each of which begins with the state `w.state` only. -/
def SamePieces (t : Ctype) (spaces : Bool) (allow : Option (List UInt8)) (beforeText : UInt8) :
    List UInt8 → StripVars → List (UInt8 × List UInt8) → Prop
  | _, _, [] => True
  | older, w, (before, piece) :: pieces =>
    SameRounds t spaces allow beforeText ((pieces.map Prod.snd).flatten.headD 0) before older w []
      (.start w.state) piece ∧
    SamePieces t spaces allow beforeText (piece.reverse ++ older)
      (w.scan t spaces allow beforeText older piece ((pieces.map Prod.snd).flatten.headD 0)) pieces

instance decidableSamePieces (t : Ctype) (spaces : Bool) (allow : Option (List UInt8))
    (beforeText : UInt8) : ∀ older w pieces,
    Decidable (SamePieces t spaces allow beforeText older w pieces)
  | _, _, [] => inferInstanceAs (Decidable True)
  | _, _, _ :: pieces =>
    @instDecidableAnd _ _ _ (decidableSamePieces t spaces allow beforeText _ _ pieces)

variable {beforeText lastText nextText : UInt8} {behindText older : List UInt8} {w : StripVars}

theorem Effect.trans {u u' : StripVars} {s' : StripState} {a b : List UInt8} (h : Effect v u s a)
    (h' : Effect u u' s' b) : Effect v u' s' (a ++ b) :=
  ⟨h'.state, by rw [h'.out, h.out, append_assoc], h'.settled⟩

theorem round_same {blank blank' ends ends' turns : Bool} {tag tag' : List UInt8}
    (hblank : s = .output → c = ch '<' → blank = blank')
    (hends : c = ch '>' → ends = ends' ∧ (s = .html → ends' = true → tag = tag')) :
    afterRound c blank ends turns s = afterRound c blank' ends' turns s ∧
      writtenIn c blank ends tag s = writtenIn c blank' ends' tag' s := by
  by_cases hgt : c = ch '>'
  · obtain ⟨rfl, htag⟩ := hends hgt
    subst hgt
    cases s with
    | html =>
      refine ⟨rfl, ?_⟩
      unfold writtenIn
      dsimp only
      split
      · next hend => exact htag rfl hend.2
      · rfl
    | output => exact ⟨rfl, rfl⟩
    | php => exact ⟨rfl, rfl⟩
    | declaration => exact ⟨rfl, rfl⟩
    | comment => exact ⟨rfl, rfl⟩
  · have hafter : ∀ s : StripState, s ≠ .output →
        afterRound c blank ends turns s = afterRound c blank' ends' turns s := by
      intro s hs
      rw [afterRound.eq_2 _ _ _ _ _ hs, afterRound.eq_2 _ _ _ _ _ hs, if_neg hgt, if_neg hgt]
    cases s with
    | output =>
      by_cases hlt : c = ch '<'
      · rw [hblank rfl hlt]
        exact ⟨rfl, rfl⟩
      · simp only [afterRound, writtenIn, hlt, false_and, if_false, or_false, and_self]
    | html => exact ⟨hafter _ (by decide), by simp only [writtenIn, hgt, false_and, if_false]⟩
    | php => exact ⟨hafter _ (by decide), rfl⟩
    | declaration => exact ⟨hafter _ (by decide), rfl⟩
    | comment => exact ⟨hafter _ (by decide), rfl⟩

theorem step_same (hw : w.Settled) (hv : v.Settled) (hstate : w.state = v.state)
    (h : SameTests t spaces allow c beforeText nextText behindText w before next behind v) :
    ∃ s text, Effect w (w.step t spaces allow beforeText behindText c nextText) s text ∧
      Effect v (v.step t spaces allow before behind c next) s text := by
  obtain ⟨hblank, hends, hturns⟩ := h
  have heffect := step_effect t spaces allow before next c behind hv
  have heffectText := step_effect t spaces allow beforeText nextText c behindText hw
  rw [hstate, hturns] at heffectText
  obtain ⟨hafter, hwritten⟩ := round_same hblank hends
  rw [hafter, hwritten] at heffectText
  exact ⟨_, _, heffectText, heffect⟩

theorem scan_same {rest : List UInt8} (hw : w.Settled) (hv : v.Settled) (hstate : w.state = v.state)
    (h : SameRounds t spaces allow beforeText lastText before behindText w behind v rest) :
    ∃ s text, Effect w (w.scan t spaces allow beforeText behindText rest lastText) s text ∧
      Effect v (v.scan t spaces allow before behind rest 0) s text := by
  induction rest generalizing behindText w behind v with
  | nil => exact ⟨v.state, [], ⟨hstate, (List.append_nil _).symm, hw⟩, ⟨rfl, (List.append_nil _).symm, hv⟩⟩
  | cons c rest ih =>
    obtain ⟨s, text, hstepText, hstep⟩ := step_same hw hv hstate h.1
    obtain ⟨s', text', hrestText, hrest⟩ := ih hstepText.settled hstep.settled
      (hstepText.state.trans hstep.state.symm) h.2
    exact ⟨s', text ++ text', hstepText.trans hrestText, hstep.trans hrest⟩

theorem scan_append (v : StripVars) (xs ys : List UInt8) (last : UInt8) :
    v.scan t spaces allow before behind (xs ++ ys) last =
      (v.scan t spaces allow before behind xs (ys.headD last)).scan t spaces allow before
        (xs.reverse ++ behind) ys last := by
  induction xs generalizing behind v with
  | nil => rfl
  | cons c xs ih =>
    rw [cons_append, StripVars.scan, ih, StripVars.scan, List.reverse_cons, List.append_assoc]
    cases xs <;> rfl

end StripVars

section

variable {t : Ctype} {spaces : Bool} {allow : Option (List UInt8)} {before beforeText : UInt8}
  {older : List UInt8} {w : StripVars}

open StripVars

theorem stripPieces_lower (state : StripState) (pieces : List (UInt8 × List UInt8)) :
    stripPieces t spaces state (allow.map (·.map t.tolower)) pieces =
      stripPieces t spaces state allow pieces := by
  cases pieces with
  | nil => rfl
  | cons p pieces =>
    have hlower : (allow.map (·.map t.tolower)).map (·.map t.tolower) = allow.map (·.map t.tolower) := by
      cases allow with
      | none => rfl
      | some set =>
        refine congrArg some (map_map.trans ?_)
        exact map_congr_left fun c _ => t.tolower_tolower c
    rw [stripPieces, stripPieces, phpStripTagsEx, phpStripTagsEx, hlower]

theorem stripPieces_same {pieces : List (UInt8 × List UInt8)} (hw : w.Settled)
    (h : SamePieces t spaces (allow.map (·.map t.tolower)) beforeText older w pieces) :
    (w.scan t spaces (allow.map (·.map t.tolower)) beforeText older (pieces.map Prod.snd).flatten 0).out =
      w.out ++ stripPieces t spaces w.state allow pieces := by
  induction pieces generalizing older w with
  | nil => exact (List.append_nil _).symm
  | cons p pieces ih =>
    obtain ⟨before, piece⟩ := p
    obtain ⟨hrounds, hrest⟩ := h
    have hstart : (start w.state).Settled := fun _ => ⟨rfl, rfl⟩
    obtain ⟨s, text, hscanText, hscan⟩ := scan_same hw hstart rfl hrounds
    have hpiece : (phpStripTagsEx t spaces before piece w.state allow).out = text := hscan.out
    have hnext : (phpStripTagsEx t spaces before piece w.state allow).state = s := hscan.state
    have ih := ih hscanText.settled hrest
    rw [hscanText.out, hscanText.state] at ih
    rw [map_cons, flatten_cons, scan_append, stripPieces, ih, hpiece, hnext, append_assoc,
      ← stripPieces_lower]
    rfl

end

end Php53.Standard
