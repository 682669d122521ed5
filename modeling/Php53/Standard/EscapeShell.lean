import Mathlib.Data.Bool.AllAny
import Php53.Zend.Decimal

/-!
# EscapeShell — `escapeshellarg` and `escapeshellcmd`

What the two functions make is read again by a shell.  Its rules of quoting are stated apart from the
functions: the reader of a command has no result where a special character acts.
-/

namespace Php53.Standard

open Zend (ch)
open List

/-- `php_mblen` at what is left of a string: the length of the character there, negative where there
is none. -/
abbrev Mblen := List UInt8 → Int

variable {σ : Type} {mblen : Mblen} {c : UInt8} {str : List UInt8}

/-- The loops of both functions, which differ in what is put for one byte. -/
def escapeLoop (mblen : Mblen) (put : σ → UInt8 → List UInt8 → List UInt8 × σ) :
    σ → List UInt8 → List UInt8
  | _, [] => []
  | p, c :: str =>
    if mblen (c :: str) < 0 then escapeLoop mblen put p str
    else if 1 < mblen (c :: str) then
      (c :: str).take (mblen (c :: str)).toNat ++
        escapeLoop mblen put p (str.drop ((mblen (c :: str)).toNat - 1))
    else (put p c str).1 ++ escapeLoop mblen put (put p c str).2 str
termination_by _ str => str.length
decreasing_by all_goals simp; try omega

/-- The string up to its NUL. -/
def strlen (str : List UInt8) : List UInt8 := str.takeWhile (· ≠ 0)

def shellArgPut (_ : Unit) (c : UInt8) (_ : List UInt8) : List UInt8 × Unit :=
  (if c = ch '\'' then [ch '\'', ch '\\', ch '\'', c] else [c], ())

/-- There is no result where the `int` `(4 * l) + 3` overflows. -/
def phpEscapeShellArg (mblen : Mblen) (str : List UInt8) : Option (List UInt8) :=
  if 4 * (strlen str).length + 3 < 2 ^ 31 then
    some (ch '\'' :: (escapeLoop mblen shellArgPut () (strlen str) ++ [ch '\'']))
  else none

def shellCmdEscaped : List UInt8 := "#&;`|*?~<>^()[]\x7b\x7d$\\\n".toList.map ch ++ [0xff]

/-- `p` is the character at the place that `p` points to. -/
def shellCmdPut (p : Option UInt8) (c : UInt8) (str : List UInt8) : List UInt8 × Option UInt8 :=
  if c = ch '"' ∨ c = ch '\'' then
    if p = none ∧ c ∈ str then ([c], some c)
    else if p = some c then ([c], none)
    else ([ch '\\', c], p)
  else (if c ∈ shellCmdEscaped then [ch '\\', c] else [c], p)

/-- There is no result where the `int` `(2 * l) + 1` overflows. -/
def phpEscapeShellCmd (mblen : Mblen) (str : List UInt8) : Option (List UInt8) :=
  if 2 * (strlen str).length + 1 < 2 ^ 31 then
    some (escapeLoop mblen shellCmdPut none (strlen str))
  else none

/-- Where the shell stands between quotes. -/
inductive Quoting where
  | plain | escaped | single | double | doubleEscaped
deriving DecidableEq

/-- The place behind a character, and what the character stands for; `special` are the characters that
act where they are not quoted. -/
def shStep (special : UInt8 → Bool) : Quoting → UInt8 → Option (Quoting × List UInt8)
  | .plain, c =>
    if c = ch '\'' then some (.single, [])
    else if c = ch '"' then some (.double, [])
    else if c = ch '\\' then some (.escaped, [])
    else if special c then none else some (.plain, [c])
  | .escaped, c => some (.plain, if c = ch '\n' then [] else [c])
  | .single, c => some (if c = ch '\'' then (.plain, []) else (.single, [c]))
  | .double, c =>
    if c = ch '"' then some (.plain, [])
    else if c = ch '\\' then some (.doubleEscaped, [])
    else if c = ch '$' ∨ c = ch '`' then none else some (.double, [c])
  | .doubleEscaped, c =>
    some (.double, if c = ch '\n' then []
      else if c ∈ [ch '$', ch '`', ch '"', ch '\\'] then [c] else [ch '\\', c])

def shRead (special : UInt8 → Bool) : Quoting → List UInt8 → Option (Quoting × List UInt8)
  | q, [] => some (q, [])
  | q, c :: s => (shStep special q c).bind fun r =>
    (shRead special r.1 s).map fun r' => (r'.1, r.2 ++ r'.2)

/-- The characters that are operators, begin an expansion or a comment. -/
def shSpecials : List UInt8 := "#&;`|*?~<>^()[]\x7b\x7d$\n".toList.map ch

def shSpecial (c : UInt8) : Bool := c ∈ shSpecials

variable {special : UInt8 → Bool} {q q' q'' : Quoting} {s t v w : List UInt8}

theorem shRead_append (h : shRead special q s = some (q', v)) (h' : shRead special q' t = some (q'', w)) :
    shRead special q (s ++ t) = some (q'', v ++ w) := by
  induction s generalizing q v with
  | nil =>
    cases h
    exact h'
  | cons c s ih =>
    obtain ⟨r, hstep, hrest⟩ := Option.bind_eq_some_iff.mp h
    obtain ⟨r', hread, hpair⟩ := Option.map_eq_some_iff.mp hrest
    cases hpair
    rw [cons_append, shRead, hstep, Option.bind_some, ih hread, Option.map_some, append_assoc]

theorem shRead_one (h : shStep special q c = some (q', v)) : shRead special q [c] = some (q', v) := by
  rw [shRead, h]
  show some (q', v ++ []) = _
  rw [List.append_nil]

theorem shRead_all (h : ∀ c ∈ s, shStep special q c = some (q, [c])) :
    shRead special q s = some (q, s) := by
  induction s with
  | nil => rfl
  | cons c s ih =>
    have hrest := ih fun d hd => h d (mem_cons_of_mem c hd)
    exact shRead_append (shRead_one (h c mem_cons_self)) hrest

/-- As in a character set that has ASCII as a part: a character of several bytes has none of it. -/
structure Mblen.AsciiSafe (mblen : Mblen) : Prop where
  one : ∀ c str, c < 0x80 → 0 ≤ mblen (c :: str) ∧ mblen (c :: str) ≤ 1
  many : ∀ str, 1 < mblen str → ∀ c ∈ str.take (mblen str).toNat, 0x80 ≤ c

/-- The string without the bytes that begin no character. -/
def validBytes (mblen : Mblen) (str : List UInt8) : List UInt8 :=
  escapeLoop mblen (fun (_ : Unit) c _ => ([c], ())) () str

/-- A string that is made of characters. -/
inductive Text (mblen : Mblen) : List UInt8 → Prop where
  | nil : Text mblen []
  | cons {c : UInt8} {str : List UInt8} : 0 ≤ mblen (c :: str) →
      Text mblen (str.drop ((mblen (c :: str)).toNat - 1)) → Text mblen (c :: str)

theorem take_append_drop_char {n : Nat} (hn : 0 < n) (c : UInt8) (str : List UInt8) :
    (c :: str).take n ++ str.drop (n - 1) = c :: str := by
  obtain ⟨n, rfl⟩ := Nat.exists_eq_succ_of_ne_zero hn.ne'
  rw [take_succ_cons, Nat.succ_sub_one, cons_append, take_append_drop]

theorem validBytes_eq (h : Text mblen str) : validBytes mblen str = str := by
  induction h with
  | nil => rw [validBytes, escapeLoop]
  | @cons c str hchar _ ih =>
    unfold validBytes at ih ⊢
    rw [escapeLoop, if_neg (Int.not_lt.mpr hchar)]
    by_cases hmany : 1 < mblen (c :: str)
    · rw [if_pos hmany, ih, take_append_drop_char (by omega)]
    · rw [if_neg hmany]
      have hnone : (mblen (c :: str)).toNat - 1 = 0 := by omega
      rw [hnone, drop_zero] at ih
      exact congrArg (c :: ·) ih

theorem length_escapeLoop (put : σ → UInt8 → List UInt8 → List UInt8 × σ) {k : Nat} (hk : 0 < k)
    (hput : ∀ p c str, (put p c str).1.length ≤ k) (p : σ) (str : List UInt8) :
    (escapeLoop mblen put p str).length ≤ k * str.length := by
  induction p, str using escapeLoop.induct mblen put with
  | case1 p =>
    rw [escapeLoop]
    exact Nat.zero_le _
  | case2 p c str hneg ih =>
    rw [escapeLoop, if_pos hneg, length_cons, Nat.mul_succ]
    exact Nat.le_add_right_of_le ih
  | case3 p c str hneg hmany ih =>
    have hsplit := take_append_drop_char (show 0 < (mblen (c :: str)).toNat by omega) c str
    rw [escapeLoop, if_neg hneg, if_pos hmany, length_append, ← congrArg length hsplit, length_append,
      Nat.mul_add]
    exact Nat.add_le_add (Nat.le_mul_of_pos_left _ hk) ih
  | case4 p c str hneg hone ih =>
    rw [escapeLoop, if_neg hneg, if_neg hone, length_append, length_cons, Nat.mul_succ, Nat.add_comm]
    exact Nat.add_le_add ih (hput p c str)

-- The induction over both loops: where the shell stands is known from what the loop remembers.
theorem shRead_escapeLoop (special : UInt8 → Bool) (put : σ → UInt8 → List UInt8 → List UInt8 × σ)
    (place : σ → Quoting) (value : σ → UInt8 → List UInt8 → List UInt8)
    (Inside : σ → List UInt8 → Prop) (hsafe : mblen.AsciiSafe)
    (hquiet : ∀ p c, 0x80 ≤ c → shStep special (place p) c = some (place p, [c]))
    (hskip : ∀ p s t, (∀ c ∈ s, 0x80 ≤ c) → Inside p (s ++ t) → Inside p t)
    (hput : ∀ p c str, Inside p (c :: str) → Inside (put p c str).2 str ∧
      shRead special (place p) (put p c str).1 = some (place (put p c str).2, value p c str))
    (p : σ) (str : List UInt8) (h : Inside p str) :
    ∃ p', Inside p' [] ∧ shRead special (place p) (escapeLoop mblen put p str) =
      some (place p', escapeLoop mblen (fun p c str => (value p c str, (put p c str).2)) p str) := by
  induction p, str using escapeLoop.induct mblen put with
  | case1 p =>
    rw [escapeLoop, escapeLoop]
    exact ⟨p, h, rfl⟩
  | case2 p c str hneg ih =>
    rw [escapeLoop, escapeLoop, if_pos hneg, if_pos hneg]
    have hhigh : 0x80 ≤ c := UInt8.not_lt.mp fun hc => absurd (hsafe.one c str hc).1 (by omega)
    exact ih (hskip p [c] str (forall_mem_singleton.mpr hhigh) h)
  | case3 p c str hneg hmany ih =>
    have hhigh := hsafe.many (c :: str) hmany
    rw [← take_append_drop_char (show 0 < (mblen (c :: str)).toNat by omega) c str] at h
    obtain ⟨p', hinside, hread⟩ := ih (hskip p _ _ hhigh h)
    rw [escapeLoop, escapeLoop, if_neg hneg, if_neg hneg, if_pos hmany, if_pos hmany]
    exact ⟨p', hinside, shRead_append (shRead_all fun d hd => hquiet p d (hhigh d hd)) hread⟩
  | case4 p c str hneg hone ih =>
    obtain ⟨hnext, hfirst⟩ := hput p c str h
    obtain ⟨p', hinside, hread⟩ := ih hnext
    rw [escapeLoop, escapeLoop, if_neg hneg, if_neg hneg, if_neg hone, if_neg hone]
    exact ⟨p', hinside, shRead_append hfirst hread⟩

theorem ne_of_high {d : UInt8} (hc : 0x80 ≤ c) (hd : d < 0x80) : c ≠ d := by
  rintro rfl
  exact UInt8.not_lt.mpr hc hd

theorem shStep_single (hc : c ≠ ch '\'') : shStep special .single c = some (.single, [c]) := by
  rw [shStep, if_neg hc]

-- Out of the quotes, the quote itself behind a backslash, and into the quotes again.
theorem shellArgPut_reads (p : Unit) (c : UInt8) (str : List UInt8) :
    shRead special .single (shellArgPut p c str).1 = some (.single, [c]) := by
  unfold shellArgPut
  by_cases hc : c = ch '\''
  · rw [if_pos hc, hc]
    rfl
  · rw [if_neg hc]
    exact shRead_one (shStep_single hc)

/-- For every string of a length that `(4 * l) + 3` can hold and every such character set the shell
reads the argument back as one word in which no character acts, and the word is the whole string
where it is made of characters; the buffer of `4 * l + 3` bytes is large enough. -/
theorem escapeshellarg_is_one_word (hsafe : mblen.AsciiSafe) (str : List UInt8)
    (hfits : 4 * (strlen str).length + 3 < 2 ^ 31) :
    ∃ cmd, phpEscapeShellArg mblen str = some cmd ∧
      shRead (fun _ => true) .plain cmd = some (.plain, validBytes mblen (strlen str)) ∧
      (Text mblen (strlen str) → validBytes mblen (strlen str) = strlen str) ∧
      cmd.length + 1 ≤ 4 * (strlen str).length + 3 := by
  refine ⟨_, if_pos hfits, ?_, validBytes_eq, ?_⟩
  · obtain ⟨-, -, hread⟩ := shRead_escapeLoop (fun _ => true) shellArgPut (fun _ => .single)
      (fun _ c _ => [c]) (fun _ _ => True) hsafe
      (fun _ _ hc => shStep_single (ne_of_high hc (by decide))) (fun _ _ _ _ _ => trivial)
      (fun p c str _ => ⟨trivial, shellArgPut_reads p c str⟩) () (strlen str) trivial
    have hclose : shRead (fun _ => true) .single [ch '\''] = some (.plain, []) := rfl
    have hopen : shRead (fun _ => true) .plain [ch '\''] = some (.single, []) := rfl
    have hall := shRead_append hopen (shRead_append hread hclose)
    rw [List.append_nil, nil_append] at hall
    exact hall
  · have hlen := @length_escapeLoop _ mblen shellArgPut 4 (by decide) (by
      intro p c str
      unfold shellArgPut
      dsimp only
      split
      · exact Nat.le_refl 4
      · exact Nat.succ_pos 3) () (strlen str)
    rw [length_cons, length_append, length_singleton]
    omega

/-- `php_mblen` without `mblen`. -/
def oneByte : Mblen := fun _ => 1

theorem oneByte_asciiSafe : oneByte.AsciiSafe :=
  ⟨fun _ _ _ => ⟨Int.one_nonneg, Int.le_refl 1⟩, fun _ h => absurd h (Int.lt_irrefl 1)⟩

theorem escapeshellarg_is_one_word_quote :
    ∃ cmd, phpEscapeShellArg oneByte [105, 39, 115] = some cmd ∧
      shRead (fun _ => true) .plain cmd =
        some (.plain, validBytes oneByte (strlen [105, 39, 115])) ∧
      (Text oneByte (strlen [105, 39, 115]) →
        validBytes oneByte (strlen [105, 39, 115]) = strlen [105, 39, 115]) ∧
      cmd.length + 1 ≤ 4 * (strlen [105, 39, 115]).length + 3 :=
  escapeshellarg_is_one_word oneByte_asciiSafe _ (by decide)

/-- The shell stands in the quotes that are open. -/
def cmdPlace (p : Option UInt8) : Quoting :=
  if p = some (ch '\'') then .single else if p = some (ch '"') then .double else .plain

/-- An open quote is closed further on. -/
def CmdInside (p : Option UInt8) (str : List UInt8) : Prop :=
  ∀ d, p = some d → (d = ch '"' ∨ d = ch '\'') ∧ d ∈ str

theorem cmdPlace_cases (p : Option UInt8) :
    cmdPlace p = .plain ∨ cmdPlace p = .single ∨ cmdPlace p = .double := by
  unfold cmdPlace
  split
  · exact .inr (.inl rfl)
  · split
    · exact .inr (.inr rfl)
    · exact .inl rfl

theorem shSpecials_eq : shSpecials = [35, 38, 59, 96, 124, 42, 63, 126, 60, 62, 94, 40, 41, 91, 93, 123,
    125, 36, 10] := by
  unfold shSpecials
  rw [String.toList_ofList]
  rfl

theorem shSpecial_low (h : shSpecial c = true) : c < 0x80 := by
  have hall : ∀ d ∈ shSpecials, d < 0x80 := by
    rw [shSpecials_eq]
    exact List.all_iff_forall_prop.mp (by decide +kernel)
  exact hall c (of_decide_eq_true h)

theorem shellCmdEscaped_eq : shellCmdEscaped = [35, 38, 59, 96, 124, 42, 63, 126, 60, 62, 94, 40, 41,
    91, 93, 123, 125, 36, 92, 10, 255] := by
  unfold shellCmdEscaped
  rw [String.toList_ofList]
  rfl

theorem shSpecials_escaped : ∀ c ∈ shSpecials, c ∈ shellCmdEscaped := by
  rw [shSpecials_eq, shellCmdEscaped_eq]
  exact List.all_iff_forall_prop.mp (by decide +kernel)

-- A character that does not act leaves the shell where it stands.
theorem shStep_quiet {p : Option UInt8} (hquote : ¬ (c = ch '"' ∨ c = ch '\''))
    (hback : c ≠ ch '\\') (hspecial : shSpecial c = false) :
    shStep shSpecial (cmdPlace p) c = some (cmdPlace p, [c]) := by
  rw [not_or] at hquote
  rcases cmdPlace_cases p with h | h | h
  · rw [h, shStep, if_neg hquote.2, if_neg hquote.1, if_neg hback, hspecial]
    rfl
  · rw [h, shStep_single hquote.2]
  · have hdollar : c ≠ ch '$' := fun hc => by
      rw [hc, shSpecial, shSpecials_eq] at hspecial
      cases hspecial
    have htick : c ≠ ch '`' := fun hc => by
      rw [hc, shSpecial, shSpecials_eq] at hspecial
      cases hspecial
    rw [h, shStep, if_neg hquote.1, if_neg hback, if_neg (not_or.mpr ⟨hdollar, htick⟩)]

-- Behind a backslash no character acts, but a single quote does where single quotes are open.
theorem shRead_escaped {q : Quoting} (hq : q = .plain ∨ q = .single ∨ q = .double)
    (hc : q = .single → c ≠ ch '\'') :
    ∃ v, shRead shSpecial q [ch '\\', c] = some (q, v) := by
  rcases hq with rfl | rfl | rfl
  · exact ⟨_, rfl⟩
  · exact ⟨_, shRead_append (shRead_one (shStep_single (by decide))) (shRead_one (shStep_single (hc rfl)))⟩
  · exact ⟨_, rfl⟩

theorem shellCmdPut_reads (p : Option UInt8) (c : UInt8) (str : List UInt8)
    (h : CmdInside p (c :: str)) : CmdInside (shellCmdPut p c str).2 str ∧
      ∃ v, shRead shSpecial (cmdPlace p) (shellCmdPut p c str).1 =
        some (cmdPlace (shellCmdPut p c str).2, v) := by
  have hrest : p ≠ some c → CmdInside p str := fun hne d hd =>
    ⟨(h d hd).1, (mem_cons.mp (h d hd).2).resolve_left fun hdc => hne (hdc ▸ hd)⟩
  unfold shellCmdPut
  by_cases hquote : c = ch '"' ∨ c = ch '\''
  · rw [if_pos hquote]
    by_cases hopen : p = none ∧ c ∈ str
    · rw [if_pos hopen, hopen.1]
      refine ⟨fun d hd => ?_, [], ?_⟩
      · cases hd
        exact ⟨hquote, hopen.2⟩
      · rcases hquote with rfl | rfl <;> rfl
    · rw [if_neg hopen]
      by_cases hclose : p = some c
      · rw [if_pos hclose, hclose]
        refine ⟨fun d hd => ?_, [], ?_⟩
        · cases hd
        · rcases hquote with rfl | rfl <;> rfl
      · rw [if_neg hclose]
        refine ⟨hrest hclose, shRead_escaped (cmdPlace_cases p) fun hsingle hc => hclose ?_⟩
        unfold cmdPlace at hsingle
        split at hsingle
        · next hp => rw [hp, hc]
        · split at hsingle <;> cases hsingle
  · rw [if_neg hquote]
    have hne : p ≠ some c := fun hp => hquote (h c hp).1
    refine ⟨hrest hne, ?_⟩
    by_cases hescaped : c ∈ shellCmdEscaped
    · rw [if_pos hescaped]
      exact shRead_escaped (cmdPlace_cases p) fun _ hc => hquote (.inr hc)
    · rw [if_neg hescaped]
      have hback : c ≠ ch '\\' := fun hc => hescaped (by
        rw [hc, shellCmdEscaped_eq]
        decide)
      have hspecial : shSpecial c = false := decide_eq_false fun hc => hescaped (shSpecials_escaped c hc)
      exact ⟨[c], shRead_one (shStep_quiet hquote hback hspecial)⟩

/-- For every string of a length that `(2 * l) + 1` can hold and every such character set the shell
finds no operator, no expansion, no comment and no open quote in the command; the buffer of
`2 * l + 1` bytes is large enough. -/
theorem escapeshellcmd_is_one_command (hsafe : mblen.AsciiSafe) (str : List UInt8)
    (hfits : 2 * (strlen str).length + 1 < 2 ^ 31) :
    ∃ cmd, phpEscapeShellCmd mblen str = some cmd ∧
      (∃ v, shRead shSpecial .plain cmd = some (.plain, v)) ∧
      cmd.length + 1 ≤ 2 * (strlen str).length + 1 := by
  refine ⟨_, if_pos hfits, ?_, ?_⟩
  · have hquiet : ∀ p c, 0x80 ≤ c → shStep shSpecial (cmdPlace p) c = some (cmdPlace p, [c]) := by
      intro p c hc
      apply shStep_quiet
      · exact not_or.mpr ⟨ne_of_high hc (by decide), ne_of_high hc (by decide)⟩
      · exact ne_of_high hc (by decide)
      · exact Bool.eq_false_iff.mpr fun hspecial => UInt8.not_lt.mpr hc (shSpecial_low hspecial)
    have hskip : ∀ p s t, (∀ c ∈ s, 0x80 ≤ c) → CmdInside p (s ++ t) → CmdInside p t := by
      intro p s t hs h d hd
      obtain ⟨hquote, hmem⟩ := h d hd
      refine ⟨hquote, (mem_append.mp hmem).resolve_left fun hds => ?_⟩
      rcases hquote with rfl | rfl
      · exact absurd (hs _ hds) (by decide)
      · exact absurd (hs _ hds) (by decide)
    obtain ⟨p', hinside, hread⟩ := shRead_escapeLoop shSpecial shellCmdPut cmdPlace
      (fun p c str =>
        ((shRead shSpecial (cmdPlace p) (shellCmdPut p c str).1).map Prod.snd).getD [])
      CmdInside hsafe hquiet hskip (by
        intro p c str h
        obtain ⟨hnext, v, hv⟩ := shellCmdPut_reads p c str h
        refine ⟨hnext, ?_⟩
        rw [hv]
        rfl) none (strlen str) (fun d hd => by cases hd)
    have hclosed : p' = none := Option.eq_none_iff_forall_ne_some.mpr fun d hd =>
      absurd (hinside d hd).2 not_mem_nil
    rw [hclosed] at hread
    exact ⟨_, hread⟩
  · refine Nat.succ_le_succ (length_escapeLoop shellCmdPut (by decide) ?_ none (strlen str))
    intro p c str
    unfold shellCmdPut
    split
    · split
      · exact Nat.succ_pos 1
      · split
        · exact Nat.succ_pos 1
        · exact Nat.le_refl 2
    · split
      · exact Nat.le_refl 2
      · exact Nat.succ_pos 1

theorem escapeshellcmd_is_one_command_quote :
    ∃ cmd, phpEscapeShellCmd oneByte [39, 59, 39, 39] = some cmd ∧
      (∃ v, shRead shSpecial .plain cmd = some (.plain, v)) ∧
      cmd.length + 1 ≤ 2 * (strlen [39, 59, 39, 39]).length + 1 :=
  escapeshellcmd_is_one_command oneByte_asciiSafe _ (by decide)

end Php53.Standard
