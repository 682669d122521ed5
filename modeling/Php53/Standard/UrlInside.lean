import Php53.Standard.Url

/-!
# UrlInside — which bytes `php_url_parse_ex` reads

All reads but two are of the bytes of the text or of the NUL behind them.  The one looks for a drive
letter two bytes behind `file:///`, the other walks on in front of the text when the authority has
no ':'.
-/

namespace Php53.Standard

open Reasoning
open Zend (ch isDigit digitsNat)

variable {str : List UInt8} {s e p ue : ℕ} {c : UInt8} {b : UInt8}

theorem urlAt_lt (h : urlAt str p = some b) (hne : b ≠ 0) : p < str.length :=
  lt_of_readAt h hne

theorem urlAt_gives (h : p ≤ str.length) : Gives (urlAt str p) fun b => urlAt str p = some b :=
  readAt_gives h

theorem memchr_gives (hs : s ≤ ue) (hue : ue ≤ str.length) :
    Gives (memchr str c s ue) (IsFirst (urlAt str) (· == c) s ue) := by
  unfold memchr
  rw [if_pos hs]
  have h := @firstIn_gives _ (urlAt str) (· == c) (ue - s) s fun j _ hj => by
    have ⟨b, hb, _⟩ := @urlAt_gives str j (by omega)
    exact ⟨b, hb⟩
  rw [Nat.add_sub_cancel' hs] at h
  exact h

/-- A match in `[s, e)`, or there is none. -/
def IsMatch (str : List UInt8) (c : UInt8) (s e : ℕ) : Option ℕ → Prop
  | none => ∀ j, s ≤ j → j < e → urlAt str j ≠ some c
  | some p => s ≤ p ∧ p < e ∧ urlAt str p = some c

theorem memrchrLoop_gives {len : ℕ} (h : s + len ≤ str.length) :
    Gives (memrchrLoop str c s len) (IsMatch str c s (s + len)) := by
  induction len with
  | zero => exact Gives.pure fun j h1 h2 => by omega
  | succ len ih =>
    unfold memrchrLoop
    apply Gives.bind (urlAt_gives (by omega))
    intro b hb
    apply Gives.ite
    · intro hc
      exact Gives.pure ⟨by omega, by omega, by rw [hb, hc]⟩
    · intro hc
      apply (ih (by omega)).conseq
      intro r hr
      cases r with
      | some p => exact ⟨hr.1, by have := hr.2.1; omega, hr.2.2⟩
      | none =>
        intro j h1 h2 hj
        by_cases hlast : j = s + len
        · rw [hlast, hb] at hj
          exact hc (Option.some.inj hj)
        · exact hr j h1 (by omega) hj

theorem zendMemrchr_gives (hs : s ≤ e) (he : e ≤ str.length) :
    Gives (zendMemrchr str c s e) (IsMatch str c s e) := by
  unfold zendMemrchr
  rw [if_pos hs]
  have h := @memrchrLoop_gives str s c (e - s) (by omega)
  rw [Nat.add_sub_cancel' hs] at h
  exact h

theorem strchrLoop_gives (hc : c ≠ 0) {fuel : ℕ} (hs : s ≤ str.length)
    (hfuel : str.length < s + fuel) :
    Gives (strchrLoop str c fuel s) fun r =>
      ∀ pp, r = some pp → s ≤ pp ∧ pp < str.length ∧ urlAt str pp = some c := by
  induction fuel generalizing s with
  | zero => omega
  | succ fuel ih =>
    unfold strchrLoop
    apply Gives.bind (urlAt_gives hs)
    intro b hb
    apply Gives.ite
    · intro hbc
      apply Gives.pure
      intro pp hpp
      have hlt := urlAt_lt hb (by rw [hbc]; exact hc)
      rw [← Option.some.inj hpp]
      exact ⟨Nat.le_refl _, hlt, by rw [hb, hbc]⟩
    · intro _
      apply Gives.ite
      · exact fun _ => Gives.pure fun pp hpp => absurd hpp.symm (Option.some_ne_none pp)
      · intro hzero
        have hlt := urlAt_lt hb hzero
        apply (ih (by omega) (by omega)).conseq
        intro r hr pp hpp
        have ⟨h1, h2, h3⟩ := hr pp hpp
        exact ⟨by omega, h2, h3⟩

theorem strchr_gives (hc : c ≠ 0) (hs : s ≤ str.length) :
    Gives (strchr str c s) fun r =>
      ∀ pp, r = some pp → s ≤ pp ∧ pp < str.length ∧ urlAt str pp = some c :=
  strchrLoop_gives hc hs (by omega)

/-- `pp` is behind the digits from `p` on, or behind the first `k` of them. -/
structure DigitsUpTo (str : List UInt8) (k p pp : ℕ) : Prop where
  le : p ≤ pp
  le_add : pp ≤ p + k
  inside : pp ≤ str.length
  digits : ∀ j b, p ≤ j → j < pp → urlAt str j = some b → isDigit b = true
  stop : pp < p + k → ∃ b, urlAt str pp = some b ∧ isDigit b = false

theorem skipDigits_gives {k : ℕ} (hp : p ≤ str.length) :
    Gives (skipDigits str k p) (DigitsUpTo str k p) := by
  induction k generalizing p with
  | zero => exact Gives.pure ⟨by omega, by omega, hp, fun j b h1 h2 => by omega, by omega⟩
  | succ k ih =>
    unfold skipDigits
    apply Gives.bind (urlAt_gives hp)
    intro b hb
    apply Gives.ite
    · intro hdigit
      have hne : b ≠ 0 := by
        intro hzero
        rw [hzero] at hdigit
        exact absurd hdigit (by decide)
      have hlt := urlAt_lt hb hne
      apply (ih (by omega)).conseq
      intro pp hpp
      have hle := hpp.le
      have hadd := hpp.le_add
      refine ⟨by omega, by omega, hpp.inside, fun j d h1 h2 hd => ?_, fun h => hpp.stop (by omega)⟩
      by_cases hj : j = p
      · rw [hj, hb] at hd
        rw [← Option.some.inj hd]
        exact hdigit
      · exact hpp.digits j d (by omega) h2 hd
    · intro hdigit
      exact Gives.pure ⟨by omega, by omega, hp, fun j b h1 h2 => by omega,
        fun _ => ⟨b, hb, Bool.eq_false_of_not_eq_true hdigit⟩⟩

def UrlPart (str text : List UInt8) : Prop :=
  ∃ part, part <:+: str ∧ text = part.map controlReplaced

structure Url.PartsOf (u : Url) (str : List UInt8) : Prop where
  scheme : ∀ text ∈ u.scheme, UrlPart str text
  user : ∀ text ∈ u.user, UrlPart str text
  pass : ∀ text ∈ u.pass, UrlPart str text
  host : ∀ text ∈ u.host, UrlPart str text
  path : ∀ text ∈ u.path, UrlPart str text
  query : ∀ text ∈ u.query, UrlPart str text
  fragment : ∀ text ∈ u.fragment, UrlPart str text

theorem Url.partsOf_blank (port : ℕ) : { Url.blank with port := port }.PartsOf str := by
  constructor <;> exact fun text h => absurd h (Option.not_mem_none text)

theorem estrndup_eq (hse : s ≤ e) (he : e ≤ str.length) :
    estrndup str s e = some (rangeOf str s e) := by
  unfold estrndup
  rw [if_pos ⟨hse, by omega⟩, rangeOf, List.drop_append_of_le_length (by omega),
    List.take_append_of_le_length (by rw [List.length_drop]; omega)]
  rfl

theorem component_eq (hse : s ≤ e) (he : e ≤ str.length) :
    component str s e = some ((rangeOf str s e).map controlReplaced) := by
  unfold component
  rw [estrndup_eq hse he]
  rfl

theorem component_gives (hse : s ≤ e) (he : e ≤ str.length) :
    Gives (component str s e) (UrlPart str) :=
  ⟨_, component_eq hse he, _, rangeOf_isInfix str s e, rfl⟩

theorem UrlPart.stored {text : List UInt8} (h : UrlPart str text) :
    ∀ t ∈ some text, UrlPart str t := by
  intro t ht
  rw [← Option.mem_some_iff.mp ht]
  exact h

variable {ret : Url}

section

variable (h : ret.PartsOf str)

include h

theorem withPath_gives (hsp : s ≤ p) (hp : p ≤ str.length) :
    Gives (withPath str ret s p) (·.PartsOf str) := by
  unfold withPath
  apply Gives.ite
  · intro _
    apply Gives.bind (component_gives hsp hp)
    exact fun path hpath => Gives.pure { h with path := hpath.stored }
  · exact fun _ => Gives.pure h

theorem withQuery_gives (hpe : p ≤ e) (he : e ≤ str.length) :
    Gives (withQuery str ret p e) (·.PartsOf str) := by
  unfold withQuery
  apply Gives.ite
  · intro _
    apply Gives.bind (component_gives hpe he)
    exact fun query hquery => Gives.pure { h with query := hquery.stored }
  · exact fun _ => Gives.pure h

theorem withFragment_gives (hp : p ≤ ue) (hue : ue ≤ str.length) :
    Gives (withFragment str ret p ue) (·.PartsOf str) := by
  unfold withFragment
  apply Gives.ite
  · intro _
    apply Gives.bind (component_gives hp hue)
    exact fun fragment hfragment => Gives.pure { h with fragment := hfragment.stored }
  · exact fun _ => Gives.pure h

theorem withUser_gives (hp : p ≤ str.length) :
    Gives (withUser str ret s p) (·.PartsOf str) := by
  unfold withUser
  apply Gives.ite
  · intro hsp
    apply Gives.bind (component_gives hsp.le hp)
    exact fun user huser => Gives.pure { h with user := huser.stored }
  · exact fun _ => Gives.pure h

theorem withPass_gives (hp : p ≤ str.length) :
    Gives (withPass str ret s p) (·.PartsOf str) := by
  unfold withPass
  apply Gives.ite
  · intro hsp
    apply Gives.bind (component_gives hsp.le hp)
    exact fun pass hpass => Gives.pure { h with pass := hpass.stored }
  · exact fun _ => Gives.pure h

theorem urlQuery_gives (hsp : s ≤ p) (hp : p < str.length) {pp : Option ℕ}
    (hpp : ∀ q, pp = some q → s ≤ q ∧ q < str.length)
    (hne : pp ≠ some p) : Gives (urlQuery str ret s str.length p pp) (·.PartsOf str) := by
  cases pp with
  | some q =>
    have ⟨hsq, hq⟩ := hpp q rfl
    have hqp : q ≠ p := fun heq => hne (congrArg some heq)
    unfold urlQuery
    apply Gives.ite
    · intro hlt
      apply Gives.bind (withPath_gives h hsq hq.le)
      exact fun ret h => withFragment_gives h (by omega) (by omega)
    · intro hlt
      apply Gives.bind (withPath_gives h hsp hp.le)
      intro ret h
      apply Gives.bind (withQuery_gives h (by omega) hq.le)
      exact fun ret h => withFragment_gives h (by omega) (by omega)
  | none =>
    unfold urlQuery
    apply Gives.bind (withPath_gives h hsp hp.le)
    exact fun ret h => withQuery_gives h (by omega) (by omega)

theorem urlNohost_gives (hs : s ≤ str.length) :
    Gives (urlNohost str ret s str.length) (·.PartsOf str) := by
  unfold urlNohost
  apply Gives.bind (memchr_gives hs (Nat.le_refl _))
  intro r hr
  cases r with
  | some p =>
    have ⟨hsp, hp, ⟨b, hb, hmark⟩, _⟩ := hr
    apply Gives.bind (strchr_gives (by decide) hs)
    intro pp hpp
    apply urlQuery_gives h hsp hp fun q hq => ⟨(hpp q hq).1, (hpp q hq).2.1⟩
    intro heq
    -- one byte is not a '?' and a '#'
    have hhash := (hpp p heq).2.2
    rw [hb, eq_of_beq hmark] at hhash
    exact absurd (Option.some.inj hhash) (by decide)
  | none =>
    apply Gives.bind (memchr_gives hs (Nat.le_refl _))
    intro r hr
    cases r with
    | some p =>
      have ⟨hsp, hp, _⟩ := hr
      apply Gives.bind (withPath_gives h hsp hp.le)
      exact fun ret h => withFragment_gives h (by omega) (by omega)
    | none =>
      apply Gives.bind (component_gives hs (Nat.le_refl _))
      exact fun path hpath => Gives.pure { h with path := hpath.stored }

theorem justPath_gives {length : ℕ} (hs : s + length = str.length) :
    Gives (justPath str ret s length) (·.PartsOf str) := by
  unfold justPath
  rw [hs]
  exact urlNohost_gives h (by omega)

end

/-- The first '/' in `[s, ue)`, or else the first '?' or '#', or else `ue`. -/
def AuthorityEnd (str : List UInt8) (s ue e : ℕ) : Prop :=
  IsFirst (urlAt str) (· == ch '/') s ue (some e) ∨
    (IsFirst (urlAt str) (· == ch '/') s ue none ∧
      (IsFirst (urlAt str) (fun b => b == ch '?' || b == ch '#') s ue (some e) ∨
        (IsFirst (urlAt str) (fun b => b == ch '?' || b == ch '#') s ue none ∧ e = ue)))

theorem AuthorityEnd.bounds (h : AuthorityEnd str s ue e) (hs : s ≤ ue) : s ≤ e ∧ e ≤ ue := by
  rcases h with ⟨h1, h2, _⟩ | ⟨_, ⟨h1, h2, _⟩ | ⟨_, h1⟩⟩ <;> omega

theorem AuthorityEnd.stop (h : AuthorityEnd str s ue e) (he : e < ue)
    (hb : urlAt str e = some b) : b = ch '/' ∨ b = ch '?' ∨ b = ch '#' := by
  rcases h with ⟨_, _, ⟨d, hd, hmark⟩, _⟩ | ⟨_, ⟨_, _, ⟨d, hd, hmark⟩, _⟩ | ⟨_, h⟩⟩
  · rw [hb] at hd
    exact Or.inl (Option.some.inj hd ▸ eq_of_beq hmark)
  · rw [hb] at hd
    rw [← Option.some.inj hd, Bool.or_eq_true, beq_iff_eq, beq_iff_eq] at hmark
    exact Or.inr hmark
  · omega

theorem AuthorityEnd.unique {e' : ℕ} (h : AuthorityEnd str s ue e) (h' : AuthorityEnd str s ue e') :
    e = e' := by
  rcases h with h | ⟨h, hmark⟩ <;> rcases h' with h' | ⟨h', hmark'⟩
  · exact Option.some.inj (h.unique h')
  · exact absurd (h.unique h') (Option.some_ne_none _)
  · exact absurd (h'.unique h) (Option.some_ne_none _)
  · rcases hmark with hmark | ⟨hmark, he⟩ <;> rcases hmark' with hmark' | ⟨hmark', he'⟩
    · exact Option.some.inj (hmark.unique hmark')
    · exact absurd (hmark.unique hmark') (Option.some_ne_none _)
    · exact absurd (hmark'.unique hmark) (Option.some_ne_none _)
    · rw [he, he']

theorem isFirst_earlier {query fragment : Option ℕ}
    (hq : IsFirst (urlAt str) (· == ch '?') s ue query)
    (hf : IsFirst (urlAt str) (· == ch '#') s ue fragment) :
    IsFirst (urlAt str) (fun b => b == ch '?' || b == ch '#') s ue
        (some (earlier ue query fragment)) ∨
      (IsFirst (urlAt str) (fun b => b == ch '?' || b == ch '#') s ue none ∧
        earlier ue query fragment = ue) := by
  have hfirst := hq.or hf
  cases query with
  | none =>
    cases fragment with
    | none => exact Or.inr ⟨hfirst, rfl⟩
    | some k' => exact Or.inl hfirst
  | some k =>
    cases fragment with
    | none => exact Or.inl hfirst
    | some k' =>
      have hmin : earlier ue (some k) (some k') = min k k' := by
        show (if k > k' then k' else k) = min k k'
        split <;> omega
      rw [hmin]
      exact Or.inl hfirst

theorem authorityEnd_gives (hs : s ≤ ue) (hue : ue ≤ str.length) :
    Gives (authorityEnd str s ue) (AuthorityEnd str s ue) := by
  unfold authorityEnd
  apply Gives.bind (memchr_gives hs hue)
  intro r hr
  cases r with
  | some p => exact Gives.pure (Or.inl hr)
  | none =>
    apply Gives.bind (memchr_gives hs hue)
    intro query hquery
    apply Gives.bind (memchr_gives hs hue)
    intro fragment hfragment
    exact Gives.pure (Or.inr ⟨hr, isFirst_earlier hquery hfragment⟩)

/-- What `urlLogin` leaves: the host starts where the authority does, or behind an '@'. -/
def LoginTaken (str : List UInt8) (s e : ℕ) (login : Url × ℕ) : Prop :=
  login.1.PartsOf str ∧
    ((login.2 = s ∧ ∀ j, s ≤ j → j < e → urlAt str j ≠ some (ch '@')) ∨
      (s < login.2 ∧ login.2 ≤ e ∧ ∃ j, s ≤ j ∧ j < e ∧ urlAt str j = some (ch '@')))

theorem urlLogin_gives (h : ret.PartsOf str) (hs : s ≤ e) (he : e ≤ str.length) :
    Gives (urlLogin str ret s e) (LoginTaken str s e) := by
  unfold urlLogin
  apply Gives.bind (zendMemrchr_gives hs he)
  intro r hr
  cases r with
  | none => exact Gives.pure ⟨h, Or.inl ⟨rfl, hr⟩⟩
  | some p =>
    have ⟨hsp, hp, hat⟩ := hr
    have hbehind : s < p + 1 ∧ p + 1 ≤ e ∧ ∃ j, s ≤ j ∧ j < e ∧ urlAt str j = some (ch '@') :=
      ⟨by omega, by omega, p, hsp, hp, hat⟩
    apply Gives.bind (memchr_gives hsp (by omega))
    intro r hr
    cases r with
    | none =>
      apply Gives.bind (component_gives hsp (by omega))
      exact fun user huser => Gives.pure ⟨{ h with user := huser.stored }, Or.inr hbehind⟩
    | some pp =>
      have ⟨_, hpp, _⟩ := hr
      apply Gives.bind (withUser_gives h (by omega))
      intro ret h
      apply Gives.bind (withPass_gives h (by omega))
      exact fun ret h => Gives.pure ⟨h, Or.inr hbehind⟩

def InBrackets (str : List UInt8) (s e : ℕ) : Prop :=
  urlAt str s = some (ch '[') ∧ urlBefore str e = some (ch ']')

theorem bracketed_gives (hs : s ≤ e) (he : e ≤ str.length)
    (hstart : 0 < e ∨ urlAt str s ≠ some (ch '[')) :
    Gives (bracketed str s e) fun brackets => brackets = true ↔ InBrackets str s e := by
  unfold bracketed
  apply Gives.bind (urlAt_gives (by omega))
  intro b hb
  apply Gives.ite
  · intro hopen
    rw [hopen] at hb
    cases e with
    | zero => exact absurd hb (hstart.resolve_left (by omega))
    | succ e =>
      apply Gives.bind (urlAt_gives (by omega))
      intro c hc
      apply Gives.pure
      rw [beq_iff_eq]
      constructor
      · intro hclose
        exact ⟨hb, by rw [hclose] at hc; exact hc⟩
      · intro hin
        exact Option.some.inj (hc.symm.trans hin.2)
  · intro hopen
    apply Gives.pure
    constructor
    · exact fun h => absurd h (by decide)
    · intro hin
      exact absurd (Option.some.inj (hb.symm.trans hin.1)) hopen

theorem portScan_gives {k : ℕ} (hk : k ≤ str.length + 1)
    (hstop : (0 < s ∧ s ≤ k) ∨ ∃ j, j < k ∧ urlAt str j = some (ch ':')) :
    Gives (portScan str s k) fun p => p < k := by
  induction k with
  | zero =>
    rcases hstop with h | ⟨j, hj, _⟩ <;> omega
  | succ k ih =>
    unfold portScan
    apply Gives.bind (urlAt_gives (by omega))
    intro b hb
    apply Gives.ite
    · intro hgo
      have hrest : (0 < s ∧ s ≤ k) ∨ ∃ j, j < k ∧ urlAt str j = some (ch ':') := by
        rcases hstop with h | ⟨j, hj, hcolon⟩
        · exact Or.inl ⟨h.1, hgo.2⟩
        · right
          refine ⟨j, ?_, hcolon⟩
          by_contra hge
          rw [show j = k by omega, hb] at hcolon
          exact hgo.1 (Option.some.inj hcolon)
      exact (ih (by omega) hrest).conseq fun p hp => by omega
    · exact fun _ => Gives.pure (by omega)

theorem portScan_eq_none {k : ℕ} (h : ∀ j, j < k → urlAt str j ≠ some (ch ':')) :
    portScan str 0 k = none := by
  induction k with
  | zero => rfl
  | succ k ih =>
    unfold portScan
    cases hb : urlAt str k with
    | none => rfl
    | some b =>
      show (if b ≠ ch ':' ∧ 0 ≤ k then portScan str 0 k else some k) = none
      have hne : b ≠ ch ':' := fun hcolon => h k (by omega) (by rw [hb, hcolon])
      rw [if_pos ⟨hne, Nat.zero_le k⟩]
      exact ih fun j hj => h j (by omega)

/-- `none` for NULL. -/
def NullOrParts (str : List UInt8) (r : Option Url) : Prop := ∀ u, r = some u → u.PartsOf str

theorem nullOrParts_none : NullOrParts str none := fun u h => absurd h.symm (Option.some_ne_none u)

theorem nullOrParts_some (h : ret.PartsOf str) : NullOrParts str (some ret) := by
  intro u hu
  rw [← Option.some.inj hu]
  exact h

theorem withPort_gives (h : ret.PartsOf str) (he : e ≤ str.length) :
    Gives (withPort str ret p e) (NullOrParts str) := by
  unfold withPort
  apply Gives.ite
  · exact fun _ => Gives.pure (nullOrParts_some h)
  · intro _
    apply Gives.ite
    · exact fun _ => Gives.pure nullOrParts_none
    · intro _
      apply Gives.ite
      · intro hport
        rw [estrndup_eq (by omega) he]
        show Gives (if portValid (rangeOf str p e) then _ else _) _
        apply Gives.ite
        · exact fun _ => Gives.pure (nullOrParts_some { h with })
        · exact fun _ => Gives.pure nullOrParts_none
      · exact fun _ => Gives.pure (nullOrParts_some h)

theorem withHost_gives {r : Option Url} (h : NullOrParts str r) (he : e ≤ str.length)
    (hp : p ≤ str.length) :
    Gives (withHost str s e str.length p r) (NullOrParts str) := by
  cases r with
  | none => exact Gives.pure nullOrParts_none
  | some ret =>
    have hret := h ret rfl
    unfold withHost
    apply Gives.ite
    · exact fun _ => Gives.pure nullOrParts_none
    · intro hsp
      apply Gives.bind (component_gives (by omega) hp)
      intro host hhost
      have hstored : { ret with host := some host }.PartsOf str :=
        { hret with host := hhost.stored }
      apply Gives.ite
      · exact fun _ => Gives.pure (nullOrParts_some hstored)
      · intro _
        apply Gives.bind (urlNohost_gives hstored he)
        exact fun ret h => Gives.pure (nullOrParts_some h)

theorem urlPort_gives (h : ret.PartsOf str) (hp : p ≤ e) (he : e ≤ str.length) :
    Gives (urlPort str ret s e str.length p) (NullOrParts str) := by
  unfold urlPort
  apply Gives.ite
  · intro _
    apply Gives.bind (urlAt_gives (by omega))
    intro b _
    apply Gives.ite
    · intro _
      apply Gives.bind (withPort_gives h he)
      exact fun r hr => withHost_gives hr he (by omega)
    · exact fun _ => withHost_gives (nullOrParts_some h) he he
  · exact fun _ => withHost_gives (nullOrParts_some h) he he

def ScanFails (str : List UInt8) (e : ℕ) : Prop :=
  (∀ j, j ≤ e → urlAt str j ≠ some (ch ':')) ∧ (∀ j, j < e → urlAt str j ≠ some (ch '@')) ∧
    ¬ InBrackets str 0 e

theorem not_open_of_zero (h : AuthorityEnd str 0 str.length 0) : urlAt str 0 ≠ some (ch '[') := by
  intro hopen
  have hlt := urlAt_lt hopen (by decide)
  rcases h.stop hlt hopen with heq | heq | heq <;> exact absurd heq (by decide)

theorem urlHost_gives (h : ret.PartsOf str) (hs : s ≤ str.length)
    (hsafe : s = 0 → ∀ e, AuthorityEnd str 0 str.length e → ¬ ScanFails str e) :
    Gives (urlHost str ret s str.length) (NullOrParts str) := by
  unfold urlHost
  apply Gives.bind (authorityEnd_gives hs (Nat.le_refl _))
  intro e he
  have ⟨hse, hend⟩ := he.bounds hs
  apply Gives.bind (urlLogin_gives h hse hend)
  intro login hlogin
  have hstart : s ≤ login.2 ∧ login.2 ≤ e := by
    rcases hlogin.2 with h | h <;> omega
  have hopen : 0 < e ∨ urlAt str login.2 ≠ some (ch '[') := by
    by_cases hzero : e = 0
    · right
      subst hzero
      rw [show login.2 = 0 by omega]
      exact not_open_of_zero (show s = 0 by omega ▸ he)
    · exact Or.inl (by omega)
  have hpointer : Gives (portPointer str login.2 e) fun p => p ≤ e := by
    unfold portPointer
    apply Gives.bind (bracketed_gives hstart.2 hend hopen)
    intro brackets hbrackets
    apply Gives.ite
    · exact fun _ => Gives.pure hstart.2
    · intro hno
      have hstop : (0 < login.2 ∧ login.2 ≤ e + 1) ∨
          ∃ j, j < e + 1 ∧ urlAt str j = some (ch ':') := by
        by_cases hpos : 0 < login.2
        · exact Or.inl ⟨hpos, by omega⟩
        · have hzero : s = 0 := by omega
          have hlogin0 : login.2 = 0 := by omega
          right
          by_contra hcolon
          have hnoat := (hlogin.2.resolve_right (by omega)).2
          rw [hlogin0] at hbrackets
          apply hsafe hzero e (hzero ▸ he)
          exact ⟨fun j hj heq => hcolon ⟨j, by omega, heq⟩, fun j hj => hnoat j (by omega) hj,
            fun hin => hno (hbrackets.mpr hin)⟩
      exact (portScan_gives (by omega) hstop).conseq fun p hp => by omega
  apply Gives.bind hpointer
  exact fun p hp => urlPort_gives hlogin.1 hp hend

theorem urlHost_eq_none (h : ret.PartsOf str) (he : AuthorityEnd str 0 str.length e)
    (hfails : ScanFails str e) : urlHost str ret 0 str.length = none := by
  have ⟨hcolon, hat, hbrackets⟩ := hfails
  have ⟨_, hend⟩ := he.bounds (Nat.zero_le _)
  have ⟨e', heq, he'⟩ := @authorityEnd_gives str 0 str.length (Nat.zero_le _) (Nat.le_refl _)
  obtain rfl := he.unique he'
  have ⟨login, hlogin, htaken⟩ := urlLogin_gives h (Nat.zero_le e) hend
  have hstart : login.2 = 0 := by
    rcases htaken.2 with h | ⟨_, _, j, _, hj, hat'⟩
    · exact h.1
    · exact absurd hat' (hat j hj)
  have hopen : 0 < e ∨ urlAt str 0 ≠ some (ch '[') := by
    by_cases hzero : e = 0
    · subst hzero
      exact Or.inr (not_open_of_zero he)
    · exact Or.inl (by omega)
  have ⟨brackets, hb, hin⟩ := bracketed_gives (Nat.zero_le e) hend hopen
  have hno : brackets = false := Bool.eq_false_of_not_eq_true fun htrue => hbrackets (hin.mp htrue)
  have hscan : portScan str 0 (e + 1) = none := portScan_eq_none fun j hj => hcolon j (by omega)
  have hpointer : portPointer str login.2 e = none := by
    unfold portPointer
    rw [hstart, hb, hno]
    exact hscan
  unfold urlHost
  rw [heq]
  show (urlLogin str ret 0 e >>= _) = none
  rw [hlogin]
  show (portPointer str login.2 e >>= _) = none
  rw [hpointer]
  rfl

/-- Up to five digits from `p` on with the value of a port, and then a '/' or a NUL. -/
def PortAt (str : List UInt8) (p : ℕ) : Prop :=
  ∃ pp, p < pp ∧ pp ≤ p + 5 ∧ (∀ j b, p ≤ j → j < pp → urlAt str j = some b → isDigit b = true) ∧
    (urlAt str pp = some (ch '/') ∨ urlAt str pp = some 0) ∧ portValid (rangeOf str p pp) = true

theorem DigitsUpTo.eq_of_portAt {k pp q : ℕ} (h : DigitsUpTo str k p pp) (hk : 5 < k)
    (hq : p < q) (hle : q ≤ p + 5)
    (hdigits : ∀ j b, p ≤ j → j < q → urlAt str j = some b → isDigit b = true)
    (hmark : urlAt str q = some (ch '/') ∨ urlAt str q = some 0) : pp = q := by
  have hfrom := h.le
  rcases Nat.lt_trichotomy pp q with hbefore | heq | hbehind
  · have ⟨b, hb, hstop⟩ := h.stop (by omega)
    rw [hdigits pp b hfrom hbefore hb] at hstop
    exact absurd hstop (by decide)
  · exact heq
  · rcases hmark with hb | hb
    · exact absurd (h.digits q _ hq.le hbehind hb) (by decide)
    · exact absurd (h.digits q _ hq.le hbehind hb) (by decide)

theorem parsePort_gives (he : e < str.length)
    (hsafe : PortAt str (e + 1) → ∀ d, AuthorityEnd str 0 str.length d → ¬ ScanFails str d) :
    Gives (parsePort str e) (NullOrParts str) := by
  have hpath : Gives ((justPath str Url.blank 0 str.length).map some) (NullOrParts str) := by
    have ⟨u, hu, hparts⟩ := justPath_gives (Url.partsOf_blank 0) (Nat.zero_add str.length)
    rw [show justPath str Url.blank 0 str.length = some u from hu]
    exact Gives.pure (nullOrParts_some hparts)
  unfold parsePort
  apply Gives.bind (skipDigits_gives (by omega))
  intro pp hpp
  apply Gives.ite
  · intro hlen
    apply Gives.bind (urlAt_gives hpp.inside)
    intro b hb
    apply Gives.ite
    · intro hmark
      rw [estrndup_eq hpp.le hpp.inside]
      show Gives (if portValid (rangeOf str (e + 1) pp) then _ else _) _
      apply Gives.ite
      · intro hvalid
        apply urlHost_gives (Url.partsOf_blank _) (Nat.zero_le _)
        intro _
        apply hsafe
        refine ⟨pp, by omega, by omega, hpp.digits, ?_, hvalid⟩
        rw [hb]
        exact hmark.imp (congrArg some) (congrArg some)
      · exact fun _ => Gives.pure nullOrParts_none
    · exact fun _ => hpath
  · intro _
    apply Gives.ite
    · intro _
      apply Gives.bind (urlAt_gives hpp.inside)
      intro b _
      apply Gives.ite
      · exact fun _ => Gives.pure nullOrParts_none
      · exact fun _ => hpath
    · exact fun _ => hpath

theorem parsePort_eq_none (he : e < str.length) (hport : PortAt str (e + 1)) {d : ℕ}
    (hd : AuthorityEnd str 0 str.length d) (hfails : ScanFails str d) : parsePort str e = none := by
  have ⟨q, hlt, hle, hdigits, hmark, hvalid⟩ := hport
  have ⟨pp, heq, hpp⟩ := @skipDigits_gives str (e + 1) 6 (by omega)
  obtain rfl := hpp.eq_of_portAt (by omega) hlt hle hdigits hmark
  have ⟨b, hb, hbmark⟩ : ∃ b, urlAt str pp = some b ∧ (b = ch '/' ∨ b = 0) := by
    rcases hmark with h | h
    · exact ⟨_, h, Or.inl rfl⟩
    · exact ⟨_, h, Or.inr rfl⟩
  unfold parsePort
  show (skipDigits str 6 (e + 1) >>= _) = none
  rw [heq]
  show (if 0 < pp - (e + 1) ∧ pp - (e + 1) < 6 then _ else _) = none
  rw [if_pos (by omega), hb]
  show (if b = ch '/' ∨ b = 0 then _ else _) = none
  rw [if_pos hbmark, estrndup_eq hpp.le hpp.inside]
  show (if portValid (rangeOf str (e + 1) pp) then _ else _) = none
  rw [if_pos hvalid]
  exact urlHost_eq_none (Url.partsOf_blank _) hd hfails

/-- The bytes from the start of the text up to `e` may stand in a scheme. -/
def SchemeUpTo (str : List UInt8) (e : ℕ) : Prop :=
  ∀ j b, j < e → urlAt str j = some b → schemeChar b = true

theorem SchemeUpTo.not_scanFails (h : SchemeUpTo str e) (he : urlAt str e = some (ch ':')) {d : ℕ}
    (hd : AuthorityEnd str 0 str.length d) : ¬ ScanFails str d := by
  intro hfails
  have hlt : d < e := by
    by_contra hge
    exact hfails.1 e (by omega) he
  have hin : d < str.length := lt_trans hlt (urlAt_lt he (by decide))
  have ⟨b, hb, _⟩ := @urlAt_gives str d hin.le
  have hscheme := h d b hlt hb
  rcases hd.stop hin hb with heq | heq | heq <;> rw [heq] at hscheme <;>
    exact absurd hscheme (by decide)

theorem mem_rangeOf_zero (he : e ≤ str.length) (h : b ∈ rangeOf str 0 e) :
    ∃ j, j < e ∧ urlAt str j = some b := by
  have ⟨j, hj, hget⟩ := List.mem_iff_getElem.mp h
  unfold rangeOf at hj hget
  rw [List.drop_zero, Nat.sub_zero, List.length_take] at hj
  refine ⟨j, by omega, ?_⟩
  rw [show urlAt str j = str[j]? from readAt_of_lt (by omega), ← hget,
    List.getElem?_eq_getElem (by omega)]
  simp

theorem schemeChar_plain (h : schemeChar b = true) : controlReplaced b = b ∧ b ≠ 0 := by
  have hrange : 43 ≤ b.toNat ∧ b.toNat ≤ 122 := by
    simp only [schemeChar, isAlpha, isDigit, Bool.or_eq_true, Bool.and_eq_true, decide_eq_true_eq,
      beq_iff_eq, UInt8.le_iff_toNat_le, ← UInt8.toNat_inj] at h
    change ((((97 ≤ b.toNat ∧ b.toNat ≤ 122 ∨ 65 ≤ b.toNat ∧ b.toNat ≤ 90) ∨
      48 ≤ b.toNat ∧ b.toNat ≤ 57) ∨ b.toNat = 43) ∨ b.toNat = 46) ∨ b.toNat = 45 at h
    omega
  constructor
  · have hplain : iscntrl b = false := by
      unfold iscntrl
      rw [Bool.or_eq_false_iff, decide_eq_false_iff_not, beq_eq_false_iff_ne, UInt8.lt_iff_toNat_lt,
        ne_eq, ← UInt8.toNat_inj]
      change ¬ b.toNat < 32 ∧ ¬ b.toNat = 127
      omega
    unfold controlReplaced
    rw [hplain]
    rfl
  · intro hzero
    rw [hzero] at hrange
    exact absurd hrange (by decide)

theorem SchemeUpTo.component_eq (h : SchemeUpTo str e) (he : e ≤ str.length) :
    component str 0 e = some (rangeOf str 0 e) := by
  rw [Standard.component_eq (Nat.zero_le e) he]
  have hplain : (rangeOf str 0 e).map controlReplaced = (rangeOf str 0 e).map id := by
    apply List.map_congr_left
    intro b hb
    have ⟨j, hj, hat⟩ := mem_rangeOf_zero he hb
    exact (schemeChar_plain (h j b hj hat)).1
  rw [hplain, List.map_id]

theorem SchemeUpTo.partsOf (h : SchemeUpTo str e) (he : e ≤ str.length) :
    { Url.blank with scheme := some (rangeOf str 0 e) }.PartsOf str := by
  have ⟨text, heq, hpart⟩ := component_gives (Nat.zero_le e) he
  rw [h.component_eq he] at heq
  rw [← Option.some.inj heq] at hpart
  exact { Url.partsOf_blank 0 with scheme := hpart.stored }

/-- The bytes of `file`, in either case of each letter. -/
def IsFile (name : List UInt8) : Prop := name.map Main.tolower = [ch 'f', ch 'i', ch 'l', ch 'e']

theorem tolower_eq {a : UInt8} (h : Main.tolower a = b) :
    a = b ∨ (ch 'A' ≤ a ∧ a ≤ ch 'Z' ∧ a = b - 32) := by
  unfold Main.tolower at h
  split at h
  · rename_i hupper
    exact Or.inr ⟨hupper.1, hupper.2, by rw [← h, UInt8.add_sub_cancel]⟩
  · exact Or.inl h

theorem isFile_of_isFileScheme {name : List UInt8} (hne : ∀ b ∈ name, b ≠ 0)
    (h : isFileScheme name = true) : IsFile name := by
  have heq := eq_of_beq h
  match name with
  | [] | [_] | [_, _] | [_, _, _] =>
    have hlength := congrArg List.length heq
    simp at hlength
  | [a, b, c, d] => exact (List.append_left_inj [0]).mp heq
  | a :: b :: c :: d :: x :: rest =>
    have hx : Main.tolower x = 0 := by
      have hlast := congrArg (·[4]?) heq
      simpa using hlast
    have hzero : x = 0 := by
      rcases tolower_eq hx with h | ⟨_, hle, h⟩
      · exact h
      · rw [h] at hle
        exact absurd hle (by decide)
    exact absurd hzero (hne x (by simp))

/-- `file:///` and nothing behind it. -/
def FileRoot (str : List UInt8) : Prop :=
  ∃ name, IsFile name ∧ str = name ++ [ch ':', ch '/', ch '/', ch '/']

theorem drive_inside (hfile : IsFile (rangeOf str 0 e)) (he : urlAt str e = some (ch ':'))
    (he1 : urlAt str (e + 1) = some (ch '/')) (he2 : urlAt str (e + 2) = some (ch '/'))
    (he3 : urlAt str (e + 3) = some (ch '/')) (hroot : ¬ FileRoot str) : e + 5 ≤ str.length := by
  have hlt := urlAt_lt he3 (by decide)
  by_contra hgt
  apply hroot
  refine ⟨rangeOf str 0 e, hfile, ?_⟩
  have hdrop : str.drop e = [ch ':', ch '/', ch '/', ch '/'] := by
    rw [drop_of_readAt he (by omega), drop_of_readAt he1 (by omega), drop_of_readAt he2 (by omega),
      drop_of_readAt he3 hlt, List.drop_eq_nil_of_le (by omega)]
  rw [← hdrop]
  exact (List.take_append_drop e str).symm

theorem some_gives {u : Option Url} (h : Gives u (·.PartsOf str)) :
    Gives (u.map some) (NullOrParts str) := by
  have ⟨ret, hret, hparts⟩ := h
  rw [hret]
  exact Gives.pure (nullOrParts_some hparts)

theorem urlSlash_gives (hscheme : SchemeUpTo str e) (he : urlAt str e = some (ch ':'))
    (he1 : urlAt str (e + 1) = some (ch '/')) (hroot : ¬ FileRoot str) :
    Gives (urlSlash str e) (NullOrParts str) := by
  have hlt := urlAt_lt he (by decide)
  have hlt1 := urlAt_lt he1 (by decide)
  have hret := hscheme.partsOf hlt.le
  unfold urlSlash
  rw [hscheme.component_eq hlt.le]
  apply Gives.bind (urlAt_gives (show e + 2 ≤ str.length by omega))
  intro b hb
  apply Gives.ite
  · intro hslash
    rw [hslash] at hb
    have hlt2 := urlAt_lt hb (by decide)
    have hhost := @urlHost_gives str (e + 3) _ hret (by omega) (by omega)
    apply Gives.ite
    · intro hfile
      apply Gives.bind (urlAt_gives (show e + 3 ≤ str.length by omega))
      intro b3 hb3
      apply Gives.ite
      · intro hslash3
        rw [hslash3] at hb3
        have hname : IsFile (rangeOf str 0 e) := by
          apply isFile_of_isFileScheme _ hfile
          intro d hd
          have ⟨j, hj, hat⟩ := mem_rangeOf_zero hlt.le hd
          exact (schemeChar_plain (hscheme j d hj hat)).2
        have hlt3 := urlAt_lt hb3 (by decide)
        apply Gives.bind (urlAt_gives (drive_inside hname he he1 hb hb3 hroot))
        intro b5 _
        apply some_gives
        apply urlNohost_gives hret
        split <;> omega
      · exact fun _ => hhost
    · exact fun _ => hhost
  · intro _
    apply Gives.ite
    · exact fun _ => some_gives (urlNohost_gives hret (by omega))
    · exact fun _ => some_gives (justPath_gives hret (by omega))

theorem urlScheme_gives (hscheme : SchemeUpTo str e) (he : urlAt str e = some (ch ':'))
    (hroot : ¬ FileRoot str) : Gives (urlScheme str e) (NullOrParts str) := by
  have hlt := urlAt_lt he (by decide)
  have hret := hscheme.partsOf hlt.le
  unfold urlScheme
  rw [hscheme.component_eq hlt.le]
  apply Gives.bind (urlAt_gives (by omega))
  intro b hb
  apply Gives.ite
  · exact fun _ => Gives.pure (nullOrParts_some hret)
  · intro _
    apply Gives.ite
    · intro _
      apply Gives.bind (skipDigits_gives (by omega))
      intro p hp
      apply Gives.bind (urlAt_gives hp.inside)
      intro b _
      apply Gives.ite
      · exact fun _ => parsePort_gives hlt fun _ d hd => hscheme.not_scanFails he hd
      · exact fun _ => some_gives (justPath_gives hret (by omega))
    · intro hslash
      rw [not_not.mp hslash] at hb
      exact urlSlash_gives hscheme he hb hroot

def StaysInside (str : List UInt8) : Prop := Gives (phpUrlParseEx str) (NullOrParts str)

/-- A port behind the first ':', and the authority of the text (up to the first '/', or else up to
the first '?' or '#') is in front of it, has no '@' and is not in brackets. -/
def PortBehindAuthority (str : List UInt8) : Prop :=
  ∃ colon d, IsFirst (urlAt str) (· == ch ':') 0 str.length (some colon) ∧ PortAt str (colon + 1) ∧
    AuthorityEnd str 0 str.length d ∧ d < colon ∧ (∀ j, j < d → urlAt str j ≠ some (ch '@')) ∧
    ¬ InBrackets str 0 d

theorem IsFirst.colon (h : IsFirst (urlAt str) (· == c) 0 str.length (some e)) :
    urlAt str e = some c ∧ ∀ j, j < e → urlAt str j ≠ some c := by
  have ⟨_, _, ⟨b, hb, hmatch⟩, hbefore⟩ := h
  constructor
  · rw [hb, eq_of_beq hmatch]
  · intro j hj hat
    have hno : (c == c) = false := hbefore j c (Nat.zero_le j) hj hat
    rw [beq_self_eq_true] at hno
    exact absurd hno (by decide)

theorem staysInside_of (hroot : ¬ FileRoot str) (hport : ¬ PortBehindAuthority str) :
    StaysInside str := by
  have hpath := some_gives (justPath_gives (Url.partsOf_blank 0) (Nat.zero_add str.length))
  unfold StaysInside phpUrlParseEx
  apply Gives.bind (memchr_gives (Nat.zero_le _) (Nat.le_refl _))
  intro r hr
  cases r with
  | none => exact hpath
  | some e =>
    have ⟨he, hbefore⟩ := IsFirst.colon hr
    have hlt := urlAt_lt he (by decide)
    have hsafe : PortAt str (e + 1) → ∀ d, AuthorityEnd str 0 str.length d → ¬ ScanFails str d := by
      intro hp d hd hfails
      have hde : d < e := by
        by_contra hge
        exact hfails.1 e (by omega) he
      exact hport ⟨e, d, hr, hp, hd, hde, hfails.2.1, hfails.2.2⟩
    show Gives (if e = 0 then parsePort str 0 else urlPrefixed str e) (NullOrParts str)
    by_cases hzero : e = 0
    · rw [if_pos hzero]
      subst hzero
      exact parsePort_gives hlt hsafe
    · rw [if_neg hzero]
      unfold urlPrefixed
      apply Gives.bind (firstIn_gives fun j _ hj => by
        have ⟨b, hb, _⟩ := @urlAt_gives str j (by omega)
        exact ⟨b, hb⟩)
      intro bad hbad
      cases bad with
      | some k =>
        show Gives (if e + 1 < str.length then parsePort str e else _) (NullOrParts str)
        apply Gives.ite
        · exact fun _ => parsePort_gives hlt hsafe
        · exact fun _ => hpath
      | none =>
        apply urlScheme_gives _ he hroot
        intro j b hj hb
        have hno := hbad j b (Nat.zero_le j) (by omega) hb
        rw [Bool.not_eq_false'] at hno
        exact hno

theorem portBehindAuthority_reads (h : PortBehindAuthority str) : phpUrlParseEx str = none := by
  have ⟨colon, d, hcolon, hport, hd, hlt, hat, hbrackets⟩ := h
  have ⟨he, hbefore⟩ := IsFirst.colon hcolon
  have hin := urlAt_lt he (by decide)
  have hfails : ScanFails str d := ⟨fun j hj => hbefore j (by omega), hat, hbrackets⟩
  have ⟨r, hr, hfirst⟩ := @memchr_gives str 0 str.length (ch ':') (Nat.zero_le _) (Nat.le_refl _)
  obtain rfl := hcolon.unique hfirst
  have ⟨bad, heq, hbad⟩ := @firstIn_gives _ (urlAt str) (fun b => !schemeChar b) colon 0
    fun j _ hj => by
      have ⟨b, hb, _⟩ := @urlAt_gives str j (by omega)
      exact ⟨b, hb⟩
  have hsome : bad.isSome = true := by
    cases bad with
    | some k => rfl
    | none =>
      -- the end of the authority is no character of a scheme
      have hscheme : SchemeUpTo str colon := by
        intro j b hj hb
        have hno := hbad j b (Nat.zero_le j) (by omega) hb
        rw [Bool.not_eq_false'] at hno
        exact hno
      exact absurd hfails (hscheme.not_scanFails he hd)
  have hnext : colon + 1 < str.length := by
    have ⟨q, hq, _, _, hmark, _⟩ := hport
    have hqin : q ≤ str.length := by
      rcases hmark with hb | hb
      · exact le_of_readAt hb
      · exact le_of_readAt hb
    omega
  unfold phpUrlParseEx
  rw [hr]
  show (if colon = 0 then parsePort str 0 else urlPrefixed str colon) = none
  rw [if_neg (by omega)]
  unfold urlPrefixed
  rw [heq]
  show (if bad.isSome then if colon + 1 < str.length then parsePort str colon else _ else _) = none
  rw [if_pos hsome, if_pos hnext]
  exact parsePort_eq_none hin hport hd hfails

theorem fileRoot_reads (h : FileRoot str) : phpUrlParseEx str = none := by
  have ⟨name, hname, hstr⟩ := h
  match name with
  | [] | [_] | [_, _] | [_, _, _] | _ :: _ :: _ :: _ :: _ :: _ =>
    have hlength := congrArg List.length hname
    simp at hlength
  | [a, b, c, d] =>
    unfold IsFile at hname
    simp only [List.map_cons, List.map_nil, List.cons.injEq, and_true] at hname
    have ⟨ha, hb, hc, hd⟩ := hname
    subst hstr
    rcases tolower_eq ha with rfl | ⟨_, _, rfl⟩ <;> rcases tolower_eq hb with rfl | ⟨_, _, rfl⟩ <;>
      rcases tolower_eq hc with rfl | ⟨_, _, rfl⟩ <;>
        rcases tolower_eq hd with rfl | ⟨_, _, rfl⟩ <;> decide

theorem url_parse_stays_inside_iff (str : List UInt8) :
    StaysInside str ↔ ¬ FileRoot str ∧ ¬ PortBehindAuthority str := by
  constructor
  · intro h
    exact ⟨fun hroot => h.ne_none (fileRoot_reads hroot),
      fun hport => h.ne_none (portBehindAuthority_reads hport)⟩
  · exact fun h => staysInside_of h.1 h.2

theorem url_parse_reads_outside :
    ¬ StaysInside ("file:///".toList.map ch) ∧ ¬ StaysInside ("a/b:80".toList.map ch) :=
  ⟨fun h => h.ne_none (by decide), fun h => h.ne_none (by decide)⟩

end Php53.Standard
