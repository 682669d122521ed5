import Php53.Reasoning.Scan
import Php53.Zend.Decimal

/-!
# WordWrap — `wordwrap` and the buffer that it writes to

The places `current`, `laststart` and `lastspace` are offsets into the text.  `newtext` is what has
been written, and its length is `newtextlen`; `alloced` is the size of the buffer behind it.  A write
outside of the buffer, a read outside of the text, a division by zero and an `int` that overflows
stop the model.
-/

namespace Php53.Standard

open Zend (ch)
open Reasoning List

/-- `!strncmp(s, t, n)` on strings with a NUL behind them -/
def strncmpEq : Nat → List UInt8 → List UInt8 → Bool
  | 0, _, _ => true
  | n + 1, s, t =>
    if s.headD 0 ≠ t.headD 0 then false
    else if s.headD 0 = 0 then true
    else strncmpEq n s.tail t.tail

/-- The test for an existing break at `current`. -/
def existingBreak (text breakchar : List UInt8) (current : Nat) : Bool :=
  byteAt text current = byteAt breakchar 0 && current + breakchar.length < text.length &&
    strncmpEq breakchar.length (text.drop current) breakchar

/-- `newtext[i] = c;` -/
def setByte (newtext : List UInt8) (i : Nat) (c : UInt8) : Option (List UInt8) :=
  if i < newtext.length then some (newtext.set i c) else none

/-- The loop for a break of one character, from the byte at `current` on. -/
def singleLoop (breakchar : UInt8) (linelength : Int) :
    List UInt8 → Nat → Nat → Nat → List UInt8 → Option (List UInt8)
  | [], _, _, _, newtext => some newtext
  | c :: text, current, laststart, lastspace, newtext =>
    if c = breakchar then
      singleLoop breakchar linelength text (current + 1) (current + 1) (current + 1) newtext
    else if c = ch ' ' then
      if (current : Int) - laststart ≥ linelength then
        (setByte newtext current breakchar).bind
          (singleLoop breakchar linelength text (current + 1) (current + 1) current)
      else singleLoop breakchar linelength text (current + 1) laststart current newtext
    else if (current : Int) - laststart ≥ linelength ∧ laststart ≠ lastspace then
      (setByte newtext lastspace breakchar).bind
        (singleLoop breakchar linelength text (current + 1) (lastspace + 1) lastspace)
    else singleLoop breakchar linelength text (current + 1) laststart lastspace newtext

/-- The locals of the loop for longer breaks and forced cuts. -/
structure WrapVars where
  newtext : List UInt8
  alloced : Int
  chk : Int
  current : Nat
  laststart : Nat
  lastspace : Nat
  deriving DecidableEq, Repr

namespace WrapVars

/-- `memcpy(newtext+newtextlen, text+start, stop-start); newtextlen += stop-start;` -/
def writeText (text : List UInt8) (start stop : Nat) (v : WrapVars) : Option WrapVars :=
  if start ≤ stop ∧ stop ≤ text.length ∧ (v.newtext.length + (stop - start) : Int) ≤ v.alloced ∧
      (v.newtext.length + (stop - start) : Int) < 2 ^ 31 then
    some { v with newtext := v.newtext ++ (text.drop start).take (stop - start) }
  else none

/-- `memcpy(newtext+newtextlen, breakchar, breakcharlen); newtextlen += breakcharlen;` -/
def writeBreak (breakchar : List UInt8) (v : WrapVars) : Option WrapVars :=
  if (v.newtext.length + breakchar.length : Int) ≤ v.alloced ∧
      v.newtext.length + breakchar.length < 2 ^ 31 then
    some { v with newtext := v.newtext ++ breakchar }
  else none

/-- The text from `laststart` to `stop` and a break behind it; the next line starts at `start`. -/
def breakLine (text breakchar : List UInt8) (stop start lastspace : Nat) (v : WrapVars) :
    Option WrapVars :=
  ((v.writeText text v.laststart stop).bind (writeBreak breakchar)).map fun v =>
    { v with laststart := start, lastspace := lastspace, chk := v.chk - 1 }

/-- `if (chk <= 0)`: the buffer grows by an estimate for what is left of the text. -/
def grow (textlen breakcharlen : Nat) (linelength : Int) (v : WrapVars) : Option WrapVars :=
  if v.chk ≤ 0 then
    if linelength = 0 then none
    else
      let more := (((textlen : Int) - v.current + 1).tdiv linelength + 1) * breakcharlen + 1
      if -2 ^ 31 < more ∧ more < 2 ^ 31 then
        some { v with
          alloced := v.alloced + more
          chk := ((textlen : Int) - v.current).tdiv linelength + 1 }
      else none
  else some v

/-- What the body of the loop does behind the growing. -/
def body (text breakchar : List UInt8) (linelength : Int) (docut : Bool) (v : WrapVars) :
    Option WrapVars :=
  if existingBreak text breakchar v.current then
    (v.writeText text v.laststart (v.current + breakchar.length)).map fun v =>
      let current := v.current + (breakchar.length - 1)
      { v with current := current, laststart := current + 1, lastspace := current + 1,
               chk := v.chk - 1 }
  else if byteAt text v.current = ch ' ' then
    if (v.current : Int) - v.laststart ≥ linelength then
      v.breakLine text breakchar v.current (v.current + 1) v.current
    else some { v with lastspace := v.current }
  else if (v.current : Int) - v.laststart ≥ linelength ∧ docut = true ∧
      v.laststart ≥ v.lastspace then
    v.breakLine text breakchar v.current v.current v.current
  else if (v.current : Int) - v.laststart ≥ linelength ∧ v.laststart < v.lastspace then
    v.breakLine text breakchar v.lastspace (v.lastspace + 1) (v.lastspace + 1)
  else some v

/-- The `for` loop; the fuel is the length of the text. -/
def loop (text breakchar : List UInt8) (linelength : Int) (docut : Bool) :
    Nat → WrapVars → Option WrapVars
  | 0, v => if v.current < text.length then none else some v
  | fuel + 1, v =>
    if v.current < text.length then
      ((v.grow text.length breakchar.length linelength).bind
        (body text breakchar linelength docut)).bind fun v =>
          loop text breakchar linelength docut fuel { v with current := v.current + 1 }
    else some v

/-- `safe_emalloc` and the locals in front of the loop; `alloced` is computed in `int`. -/
def start (textlen breakcharlen : Nat) (linelength : Int) : Option WrapVars :=
  let chk := if linelength > 0 then (textlen : Int).tdiv linelength + 1 else textlen
  let alloced := textlen + chk * breakcharlen + 1
  if alloced < 2 ^ 31 then some ⟨[], alloced, chk, 0, 0, 0⟩ else none

def finish (text : List UInt8) (v : WrapVars) : Option (List UInt8) :=
  (if v.laststart ≠ v.current then v.writeText text v.laststart v.current else some v).bind fun v =>
    if (v.newtext.length : Int) < v.alloced ∧ v.newtext.length + 1 < 2 ^ 31 then some v.newtext
    else none

end WrapVars

/-- What `wordwrap` returns: `false` with a warning, or a string. -/
inductive WrapReturn where
  | failure (warning : String)
  | string (s : List UInt8)
  deriving DecidableEq, Repr

/-- `PHP_FUNCTION(wordwrap)`, behind the parsing of its parameters; `none` where the model stops -/
def phpWordwrap (text breakchar : List UInt8) (linelength : Int) (docut : Bool) :
    Option WrapReturn :=
  if text.length = 0 then some (.string [])
  else if breakchar.length = 0 then some (.failure "Break string cannot be empty")
  else if linelength = 0 ∧ docut = true then some (.failure "Can't force cut when width is zero")
  else if breakchar.length = 1 ∧ docut = false then
    (singleLoop (byteAt breakchar 0) linelength text 0 0 0 text).map .string
  else
    (((WrapVars.start text.length breakchar.length linelength).bind
      (WrapVars.loop text breakchar linelength docut text.length)).bind
        (WrapVars.finish text)).map .string

/-- A result as a text with breaks: each line with whether the break behind it stands for a space,
and what follows the last break.  A break that stands for nothing needs `docut`. -/
structure Wrapping (docut : Bool) (breakchar text result : List UInt8) where
  lines : List (List UInt8 × Bool)
  last : List UInt8
  text_eq : text = (lines.map fun l => l.1 ++ if l.2 then [ch ' '] else []).flatten ++ last
  result_eq : result = (lines.map fun l => l.1 ++ breakchar).flatten ++ last
  cut : ∀ l ∈ lines, l.2 = false → docut = true

def Wrapping.pieces {docut : Bool} {breakchar text result : List UInt8}
    (w : Wrapping docut breakchar text result) : List (List UInt8) :=
  w.lines.map Prod.fst ++ [w.last]

/-- The function stays inside of its buffer and returns the text with breaks, and forced cuts keep
a piece that holds no break of its own within the width. -/
def WrapsRight (text breakchar : List UInt8) (linelength : Int) (docut : Bool) : Prop :=
  ∃ result, phpWordwrap text breakchar linelength docut = some (.string result) ∧
    ∃ w : Wrapping docut breakchar text result, docut = true → 0 < linelength →
      ∀ p ∈ w.pieces, ¬ breakchar <:+: p → (p.length : Int) ≤ linelength

/-- The places that are tested for an existing break, which is jumped over. -/
inductive Tested (text breakchar : List UInt8) : Nat → Prop
  | first : Tested text breakchar 0
  | next {i : Nat} (h : Tested text breakchar i) (hno : existingBreak text breakchar i = false) :
      Tested text breakchar (i + 1)
  | jump {i : Nat} (h : Tested text breakchar i) (hyes : existingBreak text breakchar i = true) :
      Tested text breakchar (i + breakchar.length)

/-- Where `strncmp` finds the break, there is one. -/
def FindsBreaks (text breakchar : List UInt8) : Prop :=
  ∀ i, Tested text breakchar i → existingBreak text breakchar i = true →
    breakchar <+: text.drop i

/-- A break that `strncmp` compares as a whole: no NUL in front of its last byte. -/
def Comparable (breakchar : List UInt8) : Prop := ∀ u v, breakchar = u ++ 0 :: v → v = []

/-- So many breaks at most are written. -/
def breaksAtMost (textlen : Nat) (linelength : Int) : Nat :=
  if 0 < linelength then 2 * (textlen / linelength.toNat) + 2 else textlen

/-- The text with so many breaks has a length that an `int` holds; nothing is computed where a single
character is put in the place of spaces only. -/
def SizesFit (text breakchar : List UInt8) (linelength : Int) (docut : Bool) : Prop :=
  breakchar.length = 1 ∧ docut = false ∨
    text.length + breaksAtMost text.length linelength * breakchar.length + 1 < 2 ^ 31

section Single

variable {b : UInt8}

def SpaceOrBreak (b x y : UInt8) : Prop := y = x ∨ x = ch ' ' ∧ y = b

theorem spaceOrBreak_set {text newtext : List UInt8} (h : List.Forall₂ (SpaceOrBreak b) text newtext)
    {i : Nat} (hspace : byteAt text i = ch ' ') :
    List.Forall₂ (SpaceOrBreak b) text (newtext.set i b) := by
  induction h generalizing i with
  | nil => exact .nil
  | cons hxy hrest ih =>
    cases i with
    | zero => exact .cons (Or.inr ⟨hspace, rfl⟩) hrest
    | succ i => exact .cons hxy (ih hspace)

theorem lt_of_byteAt_space {text : List UInt8} {i : Nat} (h : byteAt text i = ch ' ') :
    i < text.length := by
  by_contra hlt
  rw [byteAt, List.getD_eq_getElem?_getD, List.getElem?_eq_none (by omega)] at h
  exact absurd h (by decide)

theorem singleLoop_replaced (linelength : Int) (text : List UInt8) :
    ∀ (rest front newtext : List UInt8) (laststart lastspace : Nat), text = front ++ rest →
      List.Forall₂ (SpaceOrBreak b) text newtext →
      (laststart = lastspace ∨ byteAt text lastspace = ch ' ') →
      ∃ result, singleLoop b linelength rest front.length laststart lastspace newtext = some result ∧
        List.Forall₂ (SpaceOrBreak b) text result := by
  intro rest
  induction rest with
  | nil => exact fun _ newtext _ _ _ hnew _ => ⟨newtext, rfl, hnew⟩
  | cons c rest ih =>
    intro front newtext laststart lastspace htext hnew hspace
    have hnext : text = (front ++ [c]) ++ rest := by
      rw [htext, append_assoc]
      rfl
    have hlen : (front ++ [c]).length = front.length + 1 := length_append
    have hc : byteAt text front.length = c := by
      rw [htext, byteAt, getD_append_right _ _ _ _ (Nat.le_refl _), Nat.sub_self]
      rfl
    have hset : ∀ i, byteAt text i = ch ' ' →
        setByte newtext i b = some (newtext.set i b) := by
      intro i hi
      have hlt := lt_of_byteAt_space hi
      rw [hnew.length_eq] at hlt
      exact if_pos hlt
    have hgo := ih (front ++ [c])
    rw [hlen] at hgo
    unfold singleLoop
    by_cases hbreak : c = b
    · rw [if_pos hbreak]
      exact hgo _ _ _ hnext hnew (Or.inl rfl)
    · rw [if_neg hbreak]
      by_cases hblank : c = ch ' '
      · rw [if_pos hblank]
        have hhere : byteAt text front.length = ch ' ' := by rw [hc, hblank]
        split
        · rw [hset _ hhere]
          exact hgo _ _ _ hnext (spaceOrBreak_set hnew hhere) (Or.inr hhere)
        · exact hgo _ _ _ hnext hnew (Or.inr hhere)
      · rw [if_neg hblank]
        split
        · rename_i hover
          have hhere := hspace.resolve_left hover.2
          rw [hset _ hhere]
          exact hgo _ _ _ hnext (spaceOrBreak_set hnew hhere) (Or.inr hhere)
        · exact hgo _ _ _ hnext hnew hspace

theorem wrapping_of_replaced {text result : List UInt8}
    (h : List.Forall₂ (SpaceOrBreak b) text result) : Nonempty (Wrapping false [b] text result) := by
  induction h with
  | nil => exact ⟨⟨[], [], rfl, rfl, by simp⟩⟩
  | @cons x y text result hxy hrest ih =>
    have ⟨⟨lines, last, htext, hresult, hcut⟩⟩ := ih
    cases hxy with
    | inl hsame =>
      cases lines with
      | nil =>
        rw [hsame]
        exact ⟨⟨[], x :: last, congrArg (x :: ·) htext, congrArg (x :: ·) hresult, by simp⟩⟩
      | cons l lines =>
        rw [hsame]
        refine ⟨⟨(x :: l.1, l.2) :: lines, last, congrArg (x :: ·) htext,
          congrArg (x :: ·) hresult, fun k hk hfalse => ?_⟩⟩
        cases mem_cons.mp hk with
        | inl hk =>
          rw [hk] at hfalse
          exact hcut l mem_cons_self hfalse
        | inr hk => exact hcut k (mem_cons_of_mem _ hk) hfalse
    | inr hspace =>
      rw [hspace.1, hspace.2]
      refine ⟨⟨([], true) :: lines, last, congrArg (ch ' ' :: ·) htext,
        congrArg (b :: ·) hresult, fun k hk hfalse => ?_⟩⟩
      cases mem_cons.mp hk with
      | inl hk =>
        rw [hk] at hfalse
        exact absurd hfalse (by decide)
      | inr hk => exact hcut k hk hfalse

end Single

def linesText (lines : List (List UInt8 × Bool)) : List UInt8 :=
  (lines.map fun l => l.1 ++ if l.2 then [ch ' '] else []).flatten

def linesBroken (breakchar : List UInt8) (lines : List (List UInt8 × Bool)) : List UInt8 :=
  (lines.map fun l => l.1 ++ breakchar).flatten

theorem linesText_concat (lines : List (List UInt8 × Bool)) (line : List UInt8) (spaced : Bool) :
    linesText (lines ++ [(line, spaced)]) =
      linesText lines ++ (line ++ if spaced then [ch ' '] else []) := by
  unfold linesText
  rw [map_append, flatten_append]
  exact congrArg (linesText lines ++ ·) (List.append_nil _)

theorem linesBroken_concat (breakchar : List UInt8) (lines : List (List UInt8 × Bool))
    (line : List UInt8) (spaced : Bool) :
    linesBroken breakchar (lines ++ [(line, spaced)]) =
      linesBroken breakchar lines ++ (line ++ breakchar) := by
  unfold linesBroken
  rw [map_append, flatten_append]
  exact congrArg (linesBroken breakchar lines ++ ·) (List.append_nil _)

theorem length_linesBroken_le (breakchar : List UInt8) (lines : List (List UInt8 × Bool)) :
    (linesBroken breakchar lines).length ≤
      (linesText lines).length + lines.length * breakchar.length := by
  induction lines with
  | nil => exact Nat.zero_le _
  | cons l lines ih =>
    unfold linesBroken linesText at ih ⊢
    simp only [map_cons, flatten_cons, length_append, length_cons,
      Nat.add_mul, Nat.one_mul] at ih ⊢
    omega

theorem take_append_slice (text : List UInt8) {a b : Nat} (h : a ≤ b) :
    text.take a ++ (text.drop a).take (b - a) = text.take b := by
  have hb : b = a + (b - a) := by omega
  rw [hb, take_add, Nat.add_sub_cancel_left]

theorem length_slice {text : List UInt8} {a b : Nat} (h : b ≤ text.length) :
    ((text.drop a).take (b - a)).length = b - a := by
  rw [length_take, length_drop]
  omega

theorem take_succ_space {text : List UInt8} {i : Nat} (hspace : byteAt text i = ch ' ') :
    text.take (i + 1) = text.take i ++ [ch ' '] := by
  have hlt := lt_of_byteAt_space hspace
  rw [take_succ_eq_append_getElem hlt, ← hspace, byteAt, getD_eq_getElem _ _ hlt]

variable {text breakchar : List UInt8} {linelength : Int} {docut : Bool}

/-- The lines that are written, and what is written of the line that is open. -/
structure WrapInv (text breakchar : List UInt8) (linelength : Int) (docut : Bool)
    (lines : List (List UInt8 × Bool)) (opened : List UInt8) (v : WrapVars) : Prop where
  current_le : v.current ≤ text.length
  tested : Tested text breakchar v.current
  laststart_le : v.laststart ≤ v.current
  lastspace_le : v.lastspace ≤ v.current
  space : v.laststart < v.lastspace → v.lastspace < v.current ∧ byteAt text v.lastspace = ch ' '
  text_eq : text.take v.laststart = linesText lines ++ opened
  newtext_eq : v.newtext = linesBroken breakchar lines ++ opened
  cut : ∀ l ∈ lines, l.2 = false → docut = true
  room : (text.length : Int) + (lines.length + v.chk) * breakchar.length + 1 ≤ v.alloced
  chk_nonneg : 0 ≤ v.chk
  chk_le : v.chk ≤ text.length + 1
  lines_le : lines.length ≤ v.current
  -- of two lines that follow each other the first one may be short, `p` is where it was broken
  spread : 0 < linelength → ∃ p : Nat, lines.length * (linelength + 1) ≤ v.laststart + p ∧
    (p = 0 ∨ p < v.current) ∧ (v.laststart < v.lastspace → p ≤ v.lastspace)
  size : text.length + breaksAtMost text.length linelength * breakchar.length + 1 < 2 ^ 31
  chk_left : linelength ≤ 0 → (text.length : Int) - v.current ≤ v.chk
  narrow : docut = true → 0 < linelength →
    (∀ l ∈ lines, ¬ breakchar <:+: l.1 → (l.1.length : Int) ≤ linelength) ∧
      (opened = [] ∨ breakchar <:+: opened) ∧ (v.current : Int) - v.laststart ≤ linelength

namespace WrapInv

variable {lines : List (List UInt8 × Bool)} {opened : List UInt8} {v : WrapVars} {stop : Nat}

section

variable (h : WrapInv text breakchar linelength docut lines opened v)

include h

theorem length_newtext :
    v.newtext.length ≤ v.laststart + lines.length * breakchar.length := by
  have htext := congrArg List.length h.text_eq
  have hbroken := length_linesBroken_le breakchar lines
  have hstart := h.laststart_le
  have hcurrent := h.current_le
  rw [length_take, length_append] at htext
  rw [h.newtext_eq, length_append]
  omega

theorem room_for (hstop : stop ≤ text.length) :
    (v.newtext.length + (stop - v.laststart) : Int) + v.chk * breakchar.length + 1 ≤ v.alloced := by
  have hlen := h.length_newtext
  have hroom := h.room
  rw [Int.add_mul] at hroom
  have hcast : ((lines.length * breakchar.length : Nat) : Int) =
      (lines.length : Int) * breakchar.length := Int.natCast_mul _ _
  omega

theorem lines_le_breaks :
    lines.length ≤ breaksAtMost text.length linelength ∧
      (v.current < text.length → lines.length < breaksAtMost text.length linelength) := by
  have hstart := h.laststart_le
  have hcurrent := h.current_le
  have hlines := h.lines_le
  unfold breaksAtMost
  by_cases hwidth : 0 < linelength
  · rw [if_pos hwidth]
    obtain ⟨p, hspread, hp, -⟩ := h.spread hwidth
    obtain ⟨w, rfl⟩ : ∃ w : Nat, linelength = w := ⟨linelength.toNat, by omega⟩
    rw [Int.toNat_natCast]
    have hpos : 0 < w := by omega
    have hdiv : text.length < w * (text.length / w) + w := Nat.lt_mul_div_succ text.length hpos
    have hsum : lines.length * (w + 1) ≤ v.laststart + p := by exact_mod_cast hspread
    suffices hlt : lines.length < 2 * (text.length / w) + 2 from ⟨Nat.le_of_lt hlt, fun _ => hlt⟩
    by_contra hmany
    have hmul := Nat.mul_le_mul_right (w + 1) (Nat.le_of_not_lt hmany)
    have hwhole : (2 * (text.length / w) + 2) * w = 2 * (w * (text.length / w)) + 2 * w := by
      rw [Nat.add_mul, Nat.mul_assoc, Nat.mul_comm (text.length / w)]
    rw [Nat.mul_succ, hwhole] at hmul
    omega
  · rw [if_neg hwidth]
    exact ⟨by omega, fun hlt => by omega⟩

theorem newtext_small (hstop : stop ≤ text.length) :
    v.newtext.length + (stop - v.laststart : Int) + 1 < 2 ^ 31 ∧ (v.current < text.length →
      v.newtext.length + (stop - v.laststart : Int) + breakchar.length + 1 < 2 ^ 31) := by
  have hlen := h.length_newtext
  have hsize := h.size
  obtain ⟨hle, hlt⟩ := h.lines_le_breaks
  refine ⟨?_, fun hless => ?_⟩
  · have hmul := Nat.mul_le_mul_right breakchar.length hle
    omega
  · have hmul := Nat.mul_le_mul_right breakchar.length (Nat.succ_le_of_lt (hlt hless))
    rw [Nat.succ_mul] at hmul
    omega

theorem writeText_eq (hstart : v.laststart ≤ stop) (hstop : stop ≤ text.length) :
    v.writeText text v.laststart stop =
      some { v with newtext := v.newtext ++ (text.drop v.laststart).take (stop - v.laststart) } := by
  have hroom := h.room_for hstop
  have hpos : 0 ≤ v.chk * breakchar.length := Int.mul_nonneg h.chk_nonneg (Int.natCast_nonneg _)
  have hsmall := (h.newtext_small hstop).1
  unfold WrapVars.writeText
  rw [if_pos ⟨hstart, hstop, by omega, by omega⟩]

theorem breakLine_eq (hchk : 0 < v.chk) (hlt : v.current < text.length)
    (hstart : v.laststart ≤ stop) (hstop : stop ≤ text.length) (start lastspace : Nat) :
    v.breakLine text breakchar stop start lastspace = some { v with
      newtext := v.newtext ++ (text.drop v.laststart).take (stop - v.laststart) ++ breakchar
      laststart := start, lastspace := lastspace, chk := v.chk - 1 } := by
  have hroom := h.room_for hstop
  have hone : 1 * (breakchar.length : Int) ≤ v.chk * breakchar.length :=
    Int.mul_le_mul_of_nonneg_right hchk (Int.natCast_nonneg _)
  have hsmall := (h.newtext_small hstop).2 hlt
  unfold WrapVars.breakLine
  rw [h.writeText_eq hstart hstop, Option.bind_some, WrapVars.writeBreak, if_pos]
  · rfl
  · show ((v.newtext ++ _).length + breakchar.length : Int) ≤ v.alloced ∧
      (v.newtext ++ _).length + breakchar.length < 2 ^ 31
    rw [length_append, length_slice hstop]
    omega

theorem breakLine (hchk : 0 < v.chk)
    (hlt : v.current < text.length) (hno : existingBreak text breakchar v.current = false)
    (spaced : Bool) (hstart : v.laststart ≤ stop)
    (hstop : stop ≤ v.current) (hspaced : spaced = true → byteAt text stop = ch ' ')
    (hcut : spaced = false → docut = true) (lastspace : Nat)
    (hlastspace : lastspace ≤ stop + spaced.toNat)
    (hwide : linelength ≤ (v.current : Int) - v.laststart)
    (hbehind : ∀ p, p = 0 ∨ p < v.current → (v.laststart < v.lastspace → p ≤ v.lastspace) →
      0 < linelength → p < stop + spaced.toNat)
    (hnarrow : docut = true → 0 < linelength →
      (v.current : Int) + 1 - (stop + spaced.toNat) ≤ linelength) :
    ∃ v' lines', v.breakLine text breakchar stop (stop + spaced.toNat) lastspace = some v' ∧
      v'.current = v.current ∧
      WrapInv text breakchar linelength docut lines' [] { v' with current := v'.current + 1 } := by
  have hspacedLe : spaced.toNat ≤ 1 := Bool.toNat_le spaced
  refine ⟨_, lines ++ [(opened ++ (text.drop v.laststart).take (stop - v.laststart), spaced)],
    h.breakLine_eq hchk hlt hstart (by omega) _ _, rfl, ?_⟩
  constructor
  · exact hlt
  · exact h.tested.next hno
  · show stop + spaced.toNat ≤ v.current + 1
    omega
  · show lastspace ≤ v.current + 1
    omega
  · intro hless
    have hless : stop + spaced.toNat < lastspace := hless
    omega
  · show text.take (stop + spaced.toNat) = _
    rw [linesText_concat, List.append_nil, append_assoc, ← append_assoc (linesText lines),
      ← h.text_eq, ← append_assoc, take_append_slice text hstart]
    cases spaced with
    | false => exact (List.append_nil _).symm
    | true => exact take_succ_space (hspaced rfl)
  · show v.newtext ++ _ ++ breakchar = _
    rw [linesBroken_concat, List.append_nil, h.newtext_eq]
    simp only [append_assoc]
  · intro l hl hfalse
    cases mem_append.mp hl with
    | inl hl => exact h.cut l hl hfalse
    | inr hl =>
      rw [mem_singleton.mp hl] at hfalse
      exact hcut hfalse
  · show (text.length : Int) + ((lines ++ [_]).length + (v.chk - 1)) * breakchar.length + 1 ≤ v.alloced
    have hroom := h.room
    have hsum : (((lines ++ [(opened ++ (text.drop v.laststart).take (stop - v.laststart),
        spaced)]).length : Nat) : Int) + (v.chk - 1) = lines.length + v.chk := by
      rw [length_append, length_singleton]
      omega
    rw [hsum]
    exact hroom
  · show 0 ≤ v.chk - 1
    omega
  · have hle := h.chk_le
    show v.chk - 1 ≤ text.length + 1
    omega
  · have hle := h.lines_le
    show (lines ++ [_]).length ≤ v.current + 1
    rw [length_append, length_singleton]
    omega
  · intro hwidth
    obtain ⟨p, hspread, hp, hspace⟩ := h.spread hwidth
    have hnext := hbehind p hp hspace hwidth
    refine ⟨v.current, ?_, .inr (Nat.lt_succ_self _), fun hless => ?_⟩
    · show (lines ++ [_]).length * (linelength + 1) ≤ ((stop + spaced.toNat : Nat) : Int) + v.current
      rw [length_append, length_singleton, Int.natCast_add, Int.add_mul, Int.natCast_one, Int.one_mul]
      omega
    · have hless : stop + spaced.toNat < lastspace := hless
      omega
  · exact h.size
  · intro hwidth
    have hleft := h.chk_left hwidth
    show (text.length : Int) - ((v.current + 1 : Nat) : Int) ≤ v.chk - 1
    omega
  · intro hdocut hwidth
    have ⟨hlines, hopened, hfits⟩ := h.narrow hdocut hwidth
    refine ⟨fun l hl hbreak => ?_, Or.inl rfl, ?_⟩
    · cases mem_append.mp hl with
      | inl hl => exact hlines l hl hbreak
      | inr hl =>
        rw [mem_singleton.mp hl] at hbreak ⊢
        cases hopened with
        | inl hnil =>
          show ((opened ++ _).length : Int) ≤ linelength
          rw [hnil, nil_append, length_slice (by omega)]
          omega
        | inr hinside =>
          have hlonger := hinside.trans (prefix_append opened
            ((text.drop v.laststart).take (stop - v.laststart))).isInfix
          exact absurd hlonger hbreak
    · show ((v.current + 1 : Nat) : Int) - ((stop + spaced.toNat : Nat) : Int) ≤ linelength
      have hfit := hnarrow hdocut hwidth
      omega

theorem grow (hlt : v.current < text.length) :
    ∃ v', v.grow text.length breakchar.length linelength = some v' ∧ 0 < v'.chk ∧
      v'.current = v.current ∧ WrapInv text breakchar linelength docut lines opened v' := by
  unfold WrapVars.grow
  by_cases hchk : v.chk ≤ 0
  · have hnonneg := h.chk_nonneg
    have hwidth : 0 < linelength := by
      by_contra hwidth
      have hleft := h.chk_left (by omega)
      omega
    have hless : ((text.length : Int) - v.current).tdiv linelength ≤
        ((text.length : Int) - v.current + 1).tdiv linelength := by
      rw [Int.tdiv_eq_ediv_of_nonneg (by omega), Int.tdiv_eq_ediv_of_nonneg (by omega)]
      exact Int.ediv_le_ediv hwidth (by omega)
    have hdiv : 0 ≤ ((text.length : Int) - v.current).tdiv linelength :=
      Int.tdiv_nonneg (by omega) (by omega)
    have hmore : (((text.length : Int) - v.current + 1).tdiv linelength + 1) * breakchar.length + 1 <
        2 ^ 31 := by
      have hbreaks : ((text.length : Int) - v.current + 1).tdiv linelength + 1 ≤
          (breaksAtMost text.length linelength : Int) := by
        obtain ⟨w, rfl⟩ : ∃ w : Nat, linelength = w := ⟨linelength.toNat, by omega⟩
        have hstep : (text.length : Int) - v.current + 1 ≤ text.length + 1 * w := by omega
        have hdivided := Int.ediv_le_ediv hwidth hstep
        rw [Int.add_mul_ediv_right _ _ (by omega)] at hdivided
        have hcast : ((text.length / w : Nat) : Int) = (text.length : Int) / w :=
          Int.natCast_ediv _ _
        unfold breaksAtMost
        rw [if_pos hwidth, Int.tdiv_eq_ediv_of_nonneg (by omega), Int.toNat_natCast]
        omega
      have hmul := Int.mul_le_mul_of_nonneg_right hbreaks (Int.natCast_nonneg breakchar.length)
      have hsize := h.size
      have hcast : ((breaksAtMost text.length linelength * breakchar.length : Nat) : Int) =
        (breaksAtMost text.length linelength : Int) * breakchar.length := Int.natCast_mul _ _
      omega
    have hfirst : 0 ≤ (((text.length : Int) - v.current + 1).tdiv linelength + 1) * breakchar.length :=
      Int.mul_nonneg (by omega) (Int.natCast_nonneg _)
    dsimp only
    rw [if_pos hchk, if_neg (by omega), if_pos ⟨by omega, hmore⟩]
    refine ⟨_, rfl, by show 0 < _ + 1; omega, rfl, { h with
      room := ?_, chk_nonneg := ?_, chk_le := ?_, chk_left := fun hneg => absurd hneg (by omega) }⟩
    · show (text.length : Int) +
          (lines.length + (((text.length : Int) - v.current).tdiv linelength + 1)) *
            breakchar.length + 1 ≤ v.alloced + _
      have hroom := h.room
      have hmul := Int.mul_le_mul_of_nonneg_right hless (Int.natCast_nonneg breakchar.length)
      rw [show v.chk = 0 by omega, Int.add_zero] at hroom
      rw [Int.add_mul, Int.add_mul, Int.add_mul]
      omega
    · show 0 ≤ _ + 1
      omega
    · have hself : ((text.length : Int) - v.current).tdiv linelength ≤
          (text.length : Int) - v.current := by
        rw [Int.tdiv_eq_ediv_of_nonneg (by omega)]
        exact Int.ediv_le_self _ (by omega)
      show _ + 1 ≤ (text.length : Int) + 1
      omega
  · rw [if_neg hchk]
    exact ⟨v, rfl, by omega, rfl, h⟩

theorem existing (hchk : 0 < v.chk) (hne : breakchar ≠ [])
    (hfound : existingBreak text breakchar v.current = true)
    (hfinds : docut = true → 0 < linelength → FindsBreaks text breakchar) :
    ∃ v' opened', (v.writeText text v.laststart (v.current + breakchar.length)).map
        (fun v => { v with
          current := v.current + (breakchar.length - 1)
          laststart := v.current + (breakchar.length - 1) + 1
          lastspace := v.current + (breakchar.length - 1) + 1
          chk := v.chk - 1 }) = some v' ∧ v.current ≤ v'.current ∧
      WrapInv text breakchar linelength docut lines opened'
        { v' with current := v'.current + 1 } := by
  have hpos := length_pos_of_ne_nil hne
  have hstart := h.laststart_le
  have hinside : v.current + breakchar.length < text.length := by
    unfold existingBreak at hfound
    rw [Bool.and_eq_true, Bool.and_eq_true] at hfound
    exact of_decide_eq_true hfound.1.2
  have hnext : v.current + (breakchar.length - 1) + 1 = v.current + breakchar.length := by omega
  rw [h.writeText_eq (by omega) (by omega), Option.map_some, hnext]
  refine ⟨_, opened ++ (text.drop v.laststart).take (v.current + breakchar.length - v.laststart),
    rfl, Nat.le_add_right _ _, ?_⟩
  constructor
  · show v.current + (breakchar.length - 1) + 1 ≤ text.length
    omega
  · show Tested text breakchar (v.current + (breakchar.length - 1) + 1)
    rw [hnext]
    exact h.tested.jump hfound
  · show v.current + breakchar.length ≤ v.current + (breakchar.length - 1) + 1
    omega
  · show v.current + breakchar.length ≤ v.current + (breakchar.length - 1) + 1
    omega
  · exact fun hless => absurd hless (Nat.lt_irrefl _)
  · show text.take (v.current + breakchar.length) = _
    rw [← append_assoc, ← h.text_eq]
    exact (take_append_slice text (by omega)).symm
  · show v.newtext ++ _ = _
    rw [h.newtext_eq, append_assoc]
  · exact h.cut
  · show (text.length : Int) + (lines.length + (v.chk - 1)) * breakchar.length + 1 ≤ v.alloced
    have hroom := h.room
    rw [Int.add_mul] at hroom
    rw [Int.add_mul, Int.sub_mul]
    omega
  · show 0 ≤ v.chk - 1
    omega
  · have hle := h.chk_le
    show v.chk - 1 ≤ text.length + 1
    omega
  · have hle := h.lines_le
    show lines.length ≤ v.current + (breakchar.length - 1) + 1
    omega
  · intro hwidth
    obtain ⟨p, hspread, hp, -⟩ := h.spread hwidth
    refine ⟨p, ?_, ?_, fun hless => absurd hless (Nat.lt_irrefl _)⟩
    · show lines.length * (linelength + 1) ≤ ((v.current + breakchar.length : Nat) : Int) + p
      omega
    · show p = 0 ∨ p < v.current + (breakchar.length - 1) + 1
      omega
  · exact h.size
  · intro hwidth
    have hleft := h.chk_left hwidth
    show (text.length : Int) - ((v.current + (breakchar.length - 1) + 1 : Nat) : Int) ≤ v.chk - 1
    omega
  · intro hdocut hwidth
    have ⟨hlines, _, _⟩ := h.narrow hdocut hwidth
    refine ⟨hlines, Or.inr ?_, ?_⟩
    · have hbreak : breakchar <:+: (text.drop v.laststart).take
          (v.current + breakchar.length - v.laststart) := by
        have ⟨rest, hrest⟩ := hfinds hdocut hwidth v.current h.tested hfound
        refine ⟨(text.drop v.laststart).take (v.current - v.laststart), [], ?_⟩
        have hsplit : v.current + breakchar.length - v.laststart =
            (v.current - v.laststart) + breakchar.length := by omega
        rw [List.append_nil, hsplit, take_add, drop_drop,
          Nat.add_sub_cancel' hstart, ← hrest, take_left]
      exact hbreak.trans (suffix_append _ _).isInfix
    · show ((v.current + (breakchar.length - 1) + 1 : Nat) : Int) -
        ((v.current + breakchar.length : Nat) : Int) ≤ linelength
      omega

theorem skip (hlt : v.current < text.length) (hno : existingBreak text breakchar v.current = false)
    {lastspace : Nat}
    (hspace : lastspace = v.lastspace ∨ lastspace = v.current ∧ byteAt text v.current = ch ' ')
    (hnarrow : docut = true → 0 < linelength → (v.current : Int) - v.laststart < linelength) :
    WrapInv text breakchar linelength docut lines opened
      { v with lastspace := lastspace, current := v.current + 1 } := by
  have hstart := h.laststart_le
  have hlast := h.lastspace_le
  refine { h with
    current_le := hlt, tested := h.tested.next hno, laststart_le := Nat.le_succ_of_le hstart
    lastspace_le := ?_, space := fun hless => ?_, lines_le := Nat.le_succ_of_le h.lines_le
    spread := fun hwidth => ?_, chk_left := fun hwidth => ?_, narrow := fun hdocut hwidth => ?_ }
  · show lastspace ≤ v.current + 1
    rcases hspace with hsame | hhere <;> omega
  · rcases hspace with hsame | hhere
    · have ⟨hbefore, hblank⟩ := h.space (hsame ▸ hless)
      rw [hsame]
      exact ⟨Nat.lt_succ_of_lt hbefore, hblank⟩
    · rw [hhere.1]
      exact ⟨Nat.lt_succ_self _, hhere.2⟩
  · obtain ⟨p, hspread, hp, hplace⟩ := h.spread hwidth
    refine ⟨p, hspread, hp.imp_right Nat.lt_succ_of_lt, fun hless => ?_⟩
    have hless : v.laststart < lastspace := hless
    show p ≤ lastspace
    rcases hspace with hsame | hhere
    · exact hsame ▸ hplace (hsame ▸ hless)
    · omega
  · have hleft := h.chk_left hwidth
    show (text.length : Int) - ((v.current + 1 : Nat) : Int) ≤ v.chk
    omega
  · have ⟨hlines, hopened, _⟩ := h.narrow hdocut hwidth
    refine ⟨hlines, hopened, ?_⟩
    have hfit := hnarrow hdocut hwidth
    show ((v.current + 1 : Nat) : Int) - v.laststart ≤ linelength
    omega

theorem body (hchk : 0 < v.chk) (hlt : v.current < text.length) (hne : breakchar ≠ [])
    (hfinds : docut = true → 0 < linelength → FindsBreaks text breakchar) :
    ∃ v' lines' opened', v.body text breakchar linelength docut = some v' ∧
      v.current ≤ v'.current ∧ WrapInv text breakchar linelength docut lines' opened'
        { v' with current := v'.current + 1 } := by
  unfold WrapVars.body
  by_cases hfound : existingBreak text breakchar v.current = true
  · rw [if_pos hfound]
    have ⟨v', opened', hstep, hle, hinv⟩ := h.existing hchk hne hfound hfinds
    exact ⟨v', lines, opened', hstep, hle, hinv⟩
  rw [if_neg hfound]
  have hno := eq_false_of_ne_true hfound
  have hstart := h.laststart_le
  by_cases hblank : byteAt text v.current = ch ' '
  · rw [if_pos hblank]
    by_cases hfull : (v.current : Int) - v.laststart ≥ linelength
    · have ⟨v', lines', hstep, hsame, hinv⟩ := h.breakLine hchk hlt hno true hstart
        (Nat.le_refl _) (fun _ => hblank) (fun hfalse => absurd hfalse (by decide)) v.current
        (Nat.le_add_right _ _) hfull
        (fun p hp _ _ => by rw [Bool.toNat_true]; omega)
        (fun _ hwidth => by rw [Bool.toNat_true]; omega)
      rw [if_pos hfull]
      exact ⟨v', lines', [], hstep, by omega, hinv⟩
    · rw [if_neg hfull]
      exact ⟨_, lines, opened, rfl, Nat.le_refl _,
        h.skip hlt hno (Or.inr ⟨rfl, hblank⟩) fun _ _ => by omega⟩
  rw [if_neg hblank]
  by_cases hforced : (v.current : Int) - v.laststart ≥ linelength ∧ docut = true ∧
      v.laststart ≥ v.lastspace
  · have ⟨v', lines', hstep, hsame, hinv⟩ := h.breakLine hchk hlt hno false hstart
      (Nat.le_refl _) (fun hfalse => absurd hfalse (by decide)) (fun _ => hforced.2.1)
      v.current (Nat.le_refl _) hforced.1 (fun p hp _ hwidth => by rw [Bool.toNat_false]; omega)
      (fun _ hwidth => by rw [Bool.toNat_false]; omega)
    rw [if_pos hforced]
    exact ⟨v', lines', [], hstep, by omega, hinv⟩
  rw [if_neg hforced]
  by_cases hword : (v.current : Int) - v.laststart ≥ linelength ∧ v.laststart < v.lastspace
  · have ⟨hbefore, hspace⟩ := h.space hword.2
    have ⟨v', lines', hstep, hsame, hinv⟩ := h.breakLine hchk hlt hno true
      (Nat.le_of_lt hword.2) (Nat.le_of_lt hbefore) (fun _ => hspace)
      (fun hfalse => absurd hfalse (by decide)) (v.lastspace + 1) (Nat.le_refl _)
      hword.1 (fun p _ hplace _ => Nat.lt_succ_of_le (hplace hword.2))
      (fun hdocut hwidth => by
        have hfits := (h.narrow hdocut hwidth).2.2
        rw [Bool.toNat_true]
        omega)
    rw [if_pos hword]
    exact ⟨v', lines', [], hstep, by omega, hinv⟩
  · rw [if_neg hword]
    refine ⟨v, lines, opened, rfl, Nat.le_refl _,
      h.skip hlt hno (Or.inl rfl) fun hdocut _ => ?_⟩
    by_contra hfull
    by_cases hless : v.laststart < v.lastspace
    · exact hword ⟨by omega, hless⟩
    · exact hforced ⟨by omega, hdocut, by omega⟩

end

theorem loop (hne : breakchar ≠ [])
    (hfinds : docut = true → 0 < linelength → FindsBreaks text breakchar) {fuel : Nat} :
    ∀ {v : WrapVars} {lines : List (List UInt8 × Bool)} {opened : List UInt8},
      WrapInv text breakchar linelength docut lines opened v →
      text.length - v.current ≤ fuel →
      ∃ v' lines' opened', WrapVars.loop text breakchar linelength docut fuel v = some v' ∧
        WrapInv text breakchar linelength docut lines' opened' v' ∧ v'.current = text.length := by
  induction fuel with
  | zero =>
    intro v lines opened h hfuel
    have hle := h.current_le
    refine ⟨v, lines, opened, ?_, h, by omega⟩
    unfold WrapVars.loop
    rw [if_neg (by omega)]
  | succ fuel ih =>
    intro v lines opened h hfuel
    have hle := h.current_le
    unfold WrapVars.loop
    by_cases hlt : v.current < text.length
    · have ⟨v₁, hgrow, hchk, hcurrent, h₁⟩ := h.grow hlt
      have ⟨v₂, lines₂, opened₂, hbody, hmoved, h₂⟩ := h₁.body hchk (by omega) hne hfinds
      rw [if_pos hlt, hgrow, Option.bind_some, hbody, Option.bind_some]
      exact ih h₂ (by show text.length - (v₂.current + 1) ≤ fuel; omega)
    · rw [if_neg hlt]
      exact ⟨v, lines, opened, rfl, h, by omega⟩

theorem start (docut : Bool)
    (hsize : text.length + breaksAtMost text.length linelength * breakchar.length + 1 < 2 ^ 31) :
    ∃ v, WrapVars.start text.length breakchar.length linelength = some v ∧
      WrapInv text breakchar linelength docut [] [] v ∧ text.length - v.current ≤ text.length := by
  have hchk : 0 ≤ (if linelength > 0 then (text.length : Int).tdiv linelength + 1
        else text.length) ∧
      (if linelength > 0 then (text.length : Int).tdiv linelength + 1 else text.length) ≤
        (breaksAtMost text.length linelength : Int) ∧
      (if linelength > 0 then (text.length : Int).tdiv linelength + 1 else text.length) ≤
        (text.length : Int) + 1 ∧
      (linelength ≤ 0 → (text.length : Int) ≤ if linelength > 0 then
        (text.length : Int).tdiv linelength + 1 else text.length) := by
    unfold breaksAtMost
    by_cases hwidth : 0 < linelength
    · obtain ⟨w, rfl⟩ : ∃ w : Nat, linelength = w := ⟨linelength.toNat, by omega⟩
      have hself := Nat.div_le_self text.length w
      have hdiv : (text.length : Int).tdiv w = ((text.length / w : Nat) : Int) :=
        Int.ofNat_tdiv _ _ |>.symm
      simp only [gt_iff_lt, if_pos hwidth, hdiv, Int.toNat_natCast]
      clear hdiv
      generalize text.length / w = q at hself ⊢
      omega
    · simp only [gt_iff_lt, if_neg hwidth]
      omega
  unfold WrapVars.start
  dsimp only
  generalize (if linelength > 0 then (text.length : Int).tdiv linelength + 1 else text.length) = chk
    at hchk ⊢
  obtain ⟨hnonneg, hle, hself, hleft⟩ := hchk
  have hmul := Int.mul_le_mul_of_nonneg_right hle (Int.natCast_nonneg breakchar.length)
  have hcast : ((breaksAtMost text.length linelength * breakchar.length : Nat) : Int) =
    (breaksAtMost text.length linelength : Int) * breakchar.length := Int.natCast_mul _ _
  refine ⟨_, if_pos (by omega), ⟨Nat.zero_le _, .first, Nat.le_refl _, Nat.le_refl _,
    fun h => absurd h (Nat.lt_irrefl _), rfl, rfl, fun l hl => absurd hl not_mem_nil, ?_, hnonneg,
    hself, Nat.le_refl _, ?_, hsize, ?_, ?_⟩, Nat.sub_le _ _⟩
  · show (text.length : Int) + (((0 : Nat) : Int) + chk) * breakchar.length + 1 ≤ _
    rw [Int.natCast_zero, Int.zero_add]
  · refine fun _ => ⟨0, ?_, .inl rfl, fun h => absurd h (Nat.lt_irrefl _)⟩
    show ((0 : Nat) : Int) * (linelength + 1) ≤ ((0 : Nat) : Int) + ((0 : Nat) : Int)
    rw [Int.natCast_zero, Int.zero_mul, Int.add_zero]
  · intro hwidth
    have hleft := hleft hwidth
    show (text.length : Int) - ((0 : Nat) : Int) ≤ chk
    omega
  · intro _ hwidth
    refine ⟨fun l hl => absurd hl not_mem_nil, .inl rfl, ?_⟩
    show ((0 : Nat) : Int) - ((0 : Nat) : Int) ≤ linelength
    omega

theorem finish (h : WrapInv text breakchar linelength docut lines opened v)
    (hend : v.current = text.length) :
    ∃ result, v.finish text = some result ∧ ∃ w : Wrapping docut breakchar text result,
      docut = true → 0 < linelength →
        ∀ p ∈ w.pieces, ¬ breakchar <:+: p → (p.length : Int) ≤ linelength := by
  have hstart := h.laststart_le
  have hroom := h.room_for (Nat.le_refl text.length)
  have hpos : 0 ≤ v.chk * breakchar.length := Int.mul_nonneg h.chk_nonneg (Int.natCast_nonneg _)
  have hsmall := (h.newtext_small (Nat.le_refl text.length)).1
  have hrest : (text.drop v.laststart).take (text.length - v.laststart) = text.drop v.laststart := by
    apply take_of_length_le
    rw [length_drop]
  have hwrite : v.finish text = some (v.newtext ++ text.drop v.laststart) := by
    unfold WrapVars.finish
    by_cases hleft : v.laststart ≠ v.current
    · rw [if_pos hleft, h.writeText_eq hstart (by omega), hend, hrest, Option.bind_some, if_pos]
      show ((v.newtext ++ text.drop v.laststart).length : Int) < v.alloced ∧
        (v.newtext ++ text.drop v.laststart).length + 1 < 2 ^ 31
      rw [length_append, length_drop]
      omega
    · have hnil : text.drop v.laststart = [] := by
        apply drop_eq_nil_of_le
        omega
      rw [if_neg hleft, Option.bind_some, hnil, List.append_nil, if_pos (by omega)]
  refine ⟨_, hwrite, ⟨lines, opened ++ text.drop v.laststart, ?_, ?_, h.cut⟩, ?_⟩
  · show text = linesText lines ++ _
    rw [← append_assoc, ← h.text_eq, take_append_drop]
  · show _ = linesBroken breakchar lines ++ _
    rw [h.newtext_eq, append_assoc]
  · intro hdocut hwidth p hp hbreak
    have ⟨hlines, hopened, hfits⟩ := h.narrow hdocut hwidth
    cases mem_append.mp hp with
    | inl hp =>
      have ⟨l, hl, hl'⟩ := mem_map.mp hp
      rw [← hl'] at hbreak ⊢
      exact hlines l hl hbreak
    | inr hp =>
      rw [mem_singleton.mp hp] at hbreak ⊢
      cases hopened with
      | inl hnil =>
        show ((opened ++ text.drop v.laststart).length : Int) ≤ linelength
        rw [hnil, nil_append, length_drop]
        omega
      | inr hinside =>
        exact absurd (hinside.trans (prefix_append opened _).isInfix) hbreak

end WrapInv

def Accepted (text : List UInt8) (linelength : Int) (docut : Bool) : Prop :=
  text = [] ∨ linelength ≠ 0 ∨ docut = false

theorem wrapsRight_of_findsBreaks (hne : breakchar ≠ []) (haccepted : Accepted text linelength docut)
    (hsizes : SizesFit text breakchar linelength docut)
    (hfinds : docut = true → 0 < linelength → FindsBreaks text breakchar) :
    WrapsRight text breakchar linelength docut := by
  have hpos := length_pos_of_ne_nil hne
  unfold WrapsRight phpWordwrap
  by_cases hempty : text = []
  · rw [hempty, if_pos length_nil]
    refine ⟨[], rfl, ⟨[], [], rfl, rfl, fun l hl => absurd hl (by simp)⟩, fun _ hwidth p hp _ => ?_⟩
    rw [mem_singleton.mp hp]
    show (0 : Int) ≤ linelength
    omega
  have hrefused : ¬(linelength = 0 ∧ docut = true) := by
    intro h
    cases haccepted with
    | inl hnil => exact hempty hnil
    | inr h' =>
      rw [h.1, h.2] at h'
      exact absurd h' (by decide)
  rw [if_neg (fun h => hempty (eq_nil_of_length_eq_zero h)), if_neg (by omega),
    if_neg hrefused]
  by_cases hsingle : breakchar.length = 1 ∧ docut = false
  · rw [if_pos hsingle]
    have ⟨b, hb⟩ := length_eq_one_iff.mp hsingle.1
    have ⟨result, hrun, hreplaced⟩ := singleLoop_replaced (b := b) linelength text text [] text 0 0 rfl
      (forall₂_same.mpr fun _ _ => Or.inl rfl) (Or.inl rfl)
    have ⟨w⟩ := wrapping_of_replaced hreplaced
    have hfirst : byteAt breakchar 0 = b := by
      rw [hb]
      rfl
    rw [hfirst, show singleLoop b linelength text 0 0 0 text = some result from hrun, hb, hsingle.2]
    exact ⟨result, rfl, w, fun hfalse => absurd hfalse (by decide)⟩
  · rw [if_neg hsingle]
    have ⟨v₀, hstart, hinv₀, hfuel⟩ := WrapInv.start docut (hsizes.resolve_left hsingle)
    have ⟨v, lines, opened, hloop, hinv, hend⟩ := WrapInv.loop hne hfinds hinv₀ hfuel
    have ⟨result, hfinish, hw⟩ := hinv.finish hend
    rw [hstart, Option.bind_some, hloop, Option.bind_some, hfinish]
    exact ⟨result, rfl, hw⟩

theorem prefix_of_strncmpEq {s t : List UInt8} (ht : Comparable t) (hlen : t.length ≤ s.length)
    (h : strncmpEq t.length s t = true) : t <+: s := by
  induction t generalizing s with
  | nil => exact nil_prefix
  | cons c t ih =>
    cases s with
    | nil => exact absurd hlen (by simp)
    | cons d s =>
      have hrest : Comparable t := fun u v huv => ht (c :: u) v (by rw [huv]; rfl)
      rw [length_cons, strncmpEq, headD_cons, headD_cons] at h
      by_cases hdc : d ≠ c
      · rw [if_pos hdc] at h
        exact absurd h (by decide)
      · have hdc := not_not.mp hdc
        rw [if_neg (not_not.mpr hdc)] at h
        rw [hdc]
        by_cases hzero : c = 0
        · have hnil : t = [] := ht [] t (by rw [hzero]; rfl)
          rw [hnil]
          exact ⟨s, rfl⟩
        · rw [if_neg (by rw [hdc]; exact hzero)] at h
          exact (prefix_cons_inj c).mpr (ih hrest (by simpa using hlen) h)

theorem findsBreaks_of_comparable (h : Comparable breakchar) : FindsBreaks text breakchar := by
  intro i _ hfound
  unfold existingBreak at hfound
  rw [Bool.and_eq_true, Bool.and_eq_true] at hfound
  have hinside := of_decide_eq_true hfound.1.2
  exact prefix_of_strncmpEq h (by rw [length_drop]; omega) hfound.2

def lookalike (u : List UInt8) (x : UInt8) (n : Nat) : List UInt8 :=
  u ++ 0 :: replicate (n + 1) x

theorem strncmpEq_upToNul (u s t : List UInt8) :
    strncmpEq (u ++ 0 :: t).length (u ++ 0 :: s) (u ++ 0 :: t) = true := by
  induction u with
  | nil => rfl
  | cons c u ih =>
    show (if c ≠ c then false else if c = 0 then true else strncmpEq _ _ _) = true
    rw [if_neg (not_not.mpr rfl)]
    split
    · rfl
    · exact ih

theorem takeWhile_upToNul {u : List UInt8} (hu : ∀ c ∈ u, c ≠ 0) (s : List UInt8) :
    (u ++ 0 :: s).takeWhile (· ≠ 0) = u := by
  rw [takeWhile_append_of_pos fun c hc => decide_eq_true (hu c hc),
    takeWhile_cons_of_neg (by decide), List.append_nil]

theorem lookalike_no_break {u v : List UInt8} {x : UInt8} (hu : ∀ c ∈ u, c ≠ 0) (hv : v ≠ [])
    (hx : x ≠ 0) (hxv : x ≠ v.headD 0) : ¬ u ++ 0 :: v <:+: lookalike u x v.length := by
  intro ⟨s, t, hst⟩
  unfold lookalike at hst
  cases s with
  | nil =>
    rw [nil_append, append_assoc, append_right_inj, cons_append,
      List.cons.injEq] at hst
    cases v with
    | nil => exact hv rfl
    | cons d v =>
      have hhead := (List.cons.inj hst.2).1
      exact hxv hhead.symm
  | cons y s =>
    have hlen := congrArg List.length hst
    simp only [length_append, length_cons, length_replicate] at hlen
    have hs : s = [] := eq_nil_of_length_eq_zero (by omega)
    have ht : t = [] := eq_nil_of_length_eq_zero (by omega)
    rw [hs, ht, List.append_nil] at hst
    cases u with
    | nil =>
      have hnul := (List.cons.inj (List.cons.inj hst).2).1
      exact hx hnul.symm
    | cons c u =>
      have htail : c :: u ++ 0 :: v = u ++ 0 :: replicate (v.length + 1) x :=
        (List.cons.inj hst).2
      have hrun := congrArg (takeWhile (· ≠ 0)) htail
      rw [takeWhile_upToNul hu, takeWhile_upToNul fun d hd => hu d (mem_cons_of_mem _ hd)]
        at hrun
      have hshort := congrArg List.length hrun
      rw [length_cons] at hshort
      omega

theorem byteAt_append_replicate (s : List UInt8) (x : UInt8) (n i : Nat)
    (h : s.length ≤ i) (hi : i < s.length + n) : byteAt (s ++ replicate n x) i = x := by
  rw [byteAt, getD_append_right _ _ _ _ h, getD_eq_getElem _ _ (by simp; omega),
    getElem_replicate]

theorem length_lookalike (u v : List UInt8) (x : UInt8) :
    (u ++ 0 :: v).length = u.length + v.length + 1 ∧
      (lookalike u x v.length).length = (u ++ 0 :: v).length + 1 := by
  unfold lookalike
  simp only [length_append, length_cons, length_replicate]
  omega

theorem loop_lookalike (u v : List UInt8) {x : UInt8} (hx : x ≠ ch ' ') (hv : v ≠ []) {alloced chk : Int}
    (halloced : (u.length + v.length + 2 : Nat) < alloced) (hchk : 2 ≤ chk)
    (hsize : u.length + v.length + 2 < 2 ^ 31) :
    WrapVars.loop (lookalike u x v.length) (u ++ 0 :: v) ((u ++ 0 :: v).length : Int) true
        (lookalike u x v.length).length ⟨[], alloced, chk, 0, 0, 0⟩ =
      some ⟨(lookalike u x v.length).take (u ++ 0 :: v).length, alloced, chk - 1,
        (lookalike u x v.length).length, (u ++ 0 :: v).length, (u ++ 0 :: v).length⟩ := by
  have hpos := length_pos_of_ne_nil hv
  obtain ⟨hblen, htlen⟩ := length_lookalike u v x
  have hfound : existingBreak (lookalike u x v.length) (u ++ 0 :: v) 0 = true := by
    have hfirst : byteAt (lookalike u x v.length) 0 = byteAt (u ++ 0 :: v) 0 := by
      cases u with
      | nil => rfl
      | cons c u => rfl
    unfold existingBreak
    rw [hfirst, decide_eq_true rfl, decide_eq_true (by omega : 0 + (u ++ 0 :: v).length < _)]
    exact strncmpEq_upToNul u _ v
  have hlost : existingBreak (lookalike u x v.length) (u ++ 0 :: v) (u ++ 0 :: v).length = false := by
    have hfar : ¬((u ++ 0 :: v).length + (u ++ 0 :: v).length < (lookalike u x v.length).length) := by
      omega
    unfold existingBreak
    rw [decide_eq_false hfar, Bool.and_false, Bool.false_and]
  have hlast : byteAt (lookalike u x v.length) (u ++ 0 :: v).length ≠ ch ' ' := by
    have hsplit : lookalike u x v.length = (u ++ [0]) ++ replicate (v.length + 1) x := by
      unfold lookalike
      rw [append_assoc]
      rfl
    have hu : (u ++ [0]).length = u.length + 1 := length_append
    rw [hsplit, byteAt_append_replicate _ _ _ _ (by omega) (by omega)]
    exact hx
  generalize lookalike u x v.length = text at htlen hfound hlost hlast ⊢
  generalize u ++ 0 :: v = breakchar at hblen htlen hfound hlost hlast ⊢
  have hback : breakchar.length - 1 + 1 = breakchar.length := by omega
  have hfirst : ((WrapVars.mk [] alloced chk 0 0 0).grow text.length breakchar.length
      breakchar.length).bind (WrapVars.body text breakchar breakchar.length true) =
        some ⟨text.take breakchar.length, alloced, chk - 1, breakchar.length - 1,
          breakchar.length, breakchar.length⟩ := by
    have hroom : (0 ≤ 0 + breakchar.length ∧ 0 + breakchar.length ≤ text.length ∧
        ((([] : List UInt8).length : Nat) + ((0 + breakchar.length : Nat) - (0 : Nat)) : Int) ≤
          alloced ∧
        ((([] : List UInt8).length : Nat) + ((0 + breakchar.length : Nat) - (0 : Nat)) : Int) <
          2 ^ 31) := by
      refine ⟨Nat.zero_le _, by omega, ?_⟩
      rw [length_nil]
      omega
    unfold WrapVars.grow
    rw [if_neg (show ¬chk ≤ 0 by omega), Option.bind_some]
    unfold WrapVars.body WrapVars.writeText
    rw [if_pos hfound, if_pos hroom, Option.map_some]
    simp only [Nat.zero_add, drop_zero, nil_append, Nat.sub_zero, hback]
  have hsecond : ((WrapVars.mk (text.take breakchar.length) alloced (chk - 1) breakchar.length
      breakchar.length breakchar.length).grow text.length breakchar.length
        breakchar.length).bind (WrapVars.body text breakchar breakchar.length true) =
        some ⟨text.take breakchar.length, alloced, chk - 1, breakchar.length,
          breakchar.length, breakchar.length⟩ := by
    have hnarrow : ¬((breakchar.length : Int) - breakchar.length ≥ breakchar.length) := by omega
    unfold WrapVars.grow
    rw [if_neg (show ¬chk - 1 ≤ 0 by omega), Option.bind_some]
    unfold WrapVars.body
    rw [if_neg (by rw [hlost]; decide), if_neg hlast, if_neg (fun h => hnarrow h.1),
      if_neg (fun h => hnarrow h.1)]
  have ⟨m, hm⟩ : ∃ m, breakchar.length = m + 1 := ⟨breakchar.length - 1, by omega⟩
  rw [htlen, WrapVars.loop, if_pos (show 0 < text.length by omega), hfirst, Option.bind_some]
  rw [hback]
  nth_rewrite 2 [hm]
  rw [WrapVars.loop, if_pos (show breakchar.length < text.length by omega), hsecond,
    Option.bind_some]
  have hover : ¬ breakchar.length + 1 < text.length := by omega
  cases m with
  | zero => rw [WrapVars.loop, if_neg hover]
  | succ m => rw [WrapVars.loop, if_neg hover]

theorem phpWordwrap_lookalike (u v : List UInt8) {x : UInt8} (hx : x ≠ ch ' ') (hv : v ≠ [])
    (hsize : 5 * (u ++ 0 :: v).length + 2 < 2 ^ 31) :
    phpWordwrap (lookalike u x v.length) (u ++ 0 :: v) ((u ++ 0 :: v).length : Int) true =
      some (.string (lookalike u x v.length)) := by
  have hpos := length_pos_of_ne_nil hv
  obtain ⟨hblen, htlen⟩ := length_lookalike u v x
  have hdiv : ((lookalike u x v.length).length : Int).tdiv (u ++ 0 :: v).length = 1 := by
    rw [Int.tdiv_eq_ediv_of_nonneg (Int.natCast_nonneg _), htlen, Int.natCast_add,
      Int.add_ediv_of_dvd_left (Int.dvd_refl _), Int.ediv_self (by omega), Int.ediv_eq_zero_of_lt]
    · rfl
    · decide
    · omega
  have hstart : WrapVars.start (lookalike u x v.length).length (u ++ 0 :: v).length
      (u ++ 0 :: v).length = some ⟨[], (lookalike u x v.length).length +
        2 * ((u ++ 0 :: v).length : Int) + 1, 2, 0, 0, 0⟩ := by
    unfold WrapVars.start
    dsimp only
    rw [if_pos (show ((u ++ 0 :: v).length : Int) > 0 by omega), hdiv]
    exact if_pos (by omega)
  unfold phpWordwrap
  rw [if_neg (by omega), if_neg (by omega), if_neg (fun h => by omega),
    if_neg (fun h => absurd h.2 (by decide)), hstart, Option.bind_some,
    loop_lookalike u v hx hv (by omega) (Int.le_refl 2) (by omega), Option.bind_some]
  generalize lookalike u x v.length = text at htlen ⊢
  generalize u ++ 0 :: v = breakchar at htlen hsize ⊢
  have hrest : (text.drop breakchar.length).take (text.length - breakchar.length) =
      text.drop breakchar.length := by
    apply take_of_length_le
    rw [length_drop]
  have hlen : (text.take breakchar.length).length = breakchar.length := length_take_of_le (by omega)
  unfold WrapVars.finish WrapVars.writeText
  rw [if_pos (show breakchar.length ≠ text.length by omega), if_pos, Option.bind_some, hrest,
    take_append_drop, if_pos]
  · rfl
  · show (text.length : Int) < text.length + 2 * (breakchar.length : Int) + 1 ∧
      text.length + 1 < 2 ^ 31
    omega
  · refine ⟨by show breakchar.length ≤ text.length; omega, Nat.le_refl _, ?_⟩
    rw [hlen]
    show (breakchar.length : Int) + ((text.length : Int) - breakchar.length) ≤
        text.length + 2 * (breakchar.length : Int) + 1 ∧
      (breakchar.length : Int) + ((text.length : Int) - breakchar.length) < 2 ^ 31
    omega

theorem Wrapping.pieces_of_same (w : Wrapping docut breakchar text text)
    (hlen : 2 ≤ breakchar.length) : w.pieces = [text] := by
  have hcount : ∀ lines : List (List UInt8 × Bool),
      (linesText lines).length + lines.length ≤ (linesBroken breakchar lines).length := by
    intro lines
    induction lines with
    | nil => exact Nat.le_refl _
    | cons l lines ih =>
      have hspace : (if l.2 then [ch ' '] else []).length ≤ 1 := by
        split <;> decide
      unfold linesText linesBroken at ih ⊢
      simp only [map_cons, flatten_cons, length_append, length_cons] at ih ⊢
      omega
  have htext := congrArg List.length w.text_eq
  have hresult := congrArg List.length w.result_eq
  have hlines := hcount w.lines
  unfold linesText linesBroken at hlines
  rw [length_append] at htext hresult
  have hnil : w.lines = [] := eq_nil_of_length_eq_zero (by omega)
  have hlast := w.text_eq
  rw [hnil] at hlast
  unfold Wrapping.pieces
  rw [hnil]
  exact congrArg (fun p => [p]) hlast.symm

theorem not_wrapsRight_of_nul {u v : List UInt8} (hu : ∀ c ∈ u, c ≠ 0) (hv : v ≠ [])
    (hsize : 5 * (u ++ 0 :: v).length + 2 < 2 ^ 31) :
    ∃ text, SizesFit text (u ++ 0 :: v) ((u ++ 0 :: v).length : Int) true ∧
      ¬ WrapsRight text (u ++ 0 :: v) ((u ++ 0 :: v).length : Int) true := by
  have ⟨x, hx, hxv, hblank⟩ : ∃ x : UInt8, x ≠ 0 ∧ x ≠ v.headD 0 ∧ x ≠ ch ' ' := by
    by_cases hone : v.headD 0 = 1
    · exact ⟨2, by decide, by rw [hone]; decide, by decide⟩
    · exact ⟨1, by decide, fun h => hone h.symm, by decide⟩
  have hpos := length_pos_of_ne_nil hv
  obtain ⟨hblen, htlen⟩ := length_lookalike u v x
  refine ⟨lookalike u x v.length, .inr ?_, ?_⟩
  · have hdiv : ((u ++ 0 :: v).length + 1) / (u ++ 0 :: v).length = 1 := by
      rw [Nat.add_div_left _ (by omega), Nat.div_eq_of_lt (by omega)]
    unfold breaksAtMost
    rw [if_pos (by omega), Int.toNat_natCast, htlen, hdiv]
    omega
  intro ⟨result, hrun, w, hpieces⟩
  rw [phpWordwrap_lookalike u v hblank hv hsize, Option.some.injEq, WrapReturn.string.injEq] at hrun
  subst hrun
  have hone := w.pieces_of_same (by omega)
  have hwide := hpieces rfl (by omega) (lookalike u x v.length) (by rw [hone]; exact mem_cons_self)
    (lookalike_no_break hu hv hx hxv)
  omega

example : phpWordwrap ("ab abcde".toList.map ch) ("--".toList.map ch) 3 true =
    some (.string ("ab--abc--de".toList.map ch)) := by decide

end Php53.Standard
