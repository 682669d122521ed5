import Mathlib.Data.Bool.AllAny
import Mathlib.Data.List.Lex
import Mathlib.Logic.Function.Iterate
import Php53.Zend.Decimal

/-!
# IncrementString — `++` on a string that is no number

`increment_string` counts with the digits, the upper case and the lower case letters, each position
in the alphabet of its own character.  A string is the list of its bytes.
-/

namespace Php53.Zend

open List

/-- `NUMERIC`, `UPPER_CASE` and `LOWER_CASE` -/
inductive CharClass where
  | numeric | upperCase | lowerCase
  deriving DecidableEq, Repr

def charClass (c : UInt8) : Option CharClass :=
  if ch 'a' ≤ c ∧ c ≤ ch 'z' then some .lowerCase
  else if ch 'A' ≤ c ∧ c ≤ ch 'Z' then some .upperCase
  else if ch '0' ≤ c ∧ c ≤ ch '9' then some .numeric
  else none

namespace CharClass

def top : CharClass → UInt8
  | numeric => ch '9'
  | upperCase => ch 'Z'
  | lowerCase => ch 'z'

def bottom : CharClass → UInt8
  | numeric => ch '0'
  | upperCase => ch 'A'
  | lowerCase => ch 'a'

/-- `t[0]`, when the carry runs out of the string. -/
def lead : CharClass → UInt8
  | numeric => ch '1'
  | upperCase => ch 'A'
  | lowerCase => ch 'a'

end CharClass

/-- The loop, from the last byte on; `carry` is `last` if there is a carry. -/
def incrementLoop (carry : Option CharClass) : List UInt8 → List UInt8 × Option CharClass
  | [] => ([], carry)
  | c :: s =>
    match charClass c with
    | some last =>
      if c = last.top then
        let (s, carry) := incrementLoop (some last) s
        (last.bottom :: s, carry)
      else ((c + 1) :: s, none)
    | none => (c :: s, none)

example : incrementLoop none [ch 'z', ch 'a'] = ([ch 'a', ch 'b'], none) := by
  rw [incrementLoop]
  rfl

def incrementString (str : List UInt8) : List UInt8 :=
  if str.length = 0 then [ch '1']
  else
    match incrementLoop none str.reverse with
    | (s, none) => s.reverse
    | (s, some last) => last.lead :: s.reverse

def CharLess (c d : UInt8) : Prop := charClass c = charClass d ∧ c < d

def StringLess (s t : List UInt8) : Prop :=
  s.length < t.length ∨ s.length = t.length ∧ List.Lex CharLess s t

/-- A string over `[0-9A-Za-z]`. -/
def Alphanumeric (s : List UInt8) : Prop := ∀ c ∈ s, (charClass c).isSome = true

variable {s : List UInt8}

theorem StringLess.trans {t u : List UInt8} (h₁ : StringLess s t) (h₂ : StringLess t u) :
    StringLess s u := by
  cases h₁ with
  | inl h₁ =>
    left
    cases h₂ with
    | inl h₂ => omega
    | inr h₂ => omega
  | inr h₁ =>
    cases h₂ with
    | inl h₂ =>
      left
      omega
    | inr h₂ =>
      right
      have htrans : ∀ {c d e : UInt8}, CharLess c d → CharLess d e → CharLess c e := by
        intro c d e hcd hde
        exact ⟨hcd.1.trans hde.1, UInt8.lt_trans hcd.2 hde.2⟩
      exact ⟨h₁.1.trans h₂.1, lex_trans htrans h₁.2 h₂.2⟩

theorem StringLess.irrefl (s : List UInt8) : ¬ StringLess s s := by
  intro h
  cases h with
  | inl h => omega
  | inr h => exact lex_irrefl (fun c hc => UInt8.lt_irrefl c hc.2) s h.2

theorem charClass_succ {c : UInt8} {k : CharClass} (h : charClass c = some k) (htop : c ≠ k.top) :
    CharLess c (c + 1) := by
  have htable : ∀ n < 256, ∀ k ∈ [CharClass.numeric, .upperCase, .lowerCase],
      charClass (UInt8.ofNat n) = some k → UInt8.ofNat n ≠ k.top →
        charClass (UInt8.ofNat n) = charClass (UInt8.ofNat n + 1) ∧
          UInt8.ofNat n < UInt8.ofNat n + 1 := by decide +kernel
  have hc := htable c.toNat c.toNat_lt k (by cases k <;> decide)
  rw [UInt8.ofNat_toNat] at hc
  exact hc h htop

theorem charClass_bottom (k : CharClass) : charClass k.bottom = some k := by
  cases k <;> decide

theorem charClass_lead (k : CharClass) : charClass k.lead = some k := by
  cases k <;> decide

theorem incrementLoop_class (carry : Option CharClass) (s : List UInt8) :
    (incrementLoop carry s).1.map charClass = s.map charClass := by
  induction s generalizing carry with
  | nil => rfl
  | cons c s ih =>
    rw [incrementLoop]
    cases hk : charClass c with
    | none => rfl
    | some k =>
      show (if c = k.top then _ else _ : List UInt8 × Option CharClass).1.map charClass = _
      by_cases htop : c = k.top
      · rw [if_pos htop]
        show charClass k.bottom :: (incrementLoop (some k) s).1.map charClass = _
        rw [ih, charClass_bottom, map_cons, hk]
      · rw [if_neg htop, map_cons, map_cons, ← (charClass_succ hk htop).1]

theorem incrementLoop_length (carry : Option CharClass) (s : List UInt8) :
    (incrementLoop carry s).1.length = s.length := by
  have hlen := congrArg List.length (incrementLoop_class carry s)
  rwa [length_map, length_map] at hlen

theorem incrementLoop_less {carry : Option CharClass} (hs : Alphanumeric s)
    (hne : s ≠ [] ∨ carry ≠ none) (h : (incrementLoop carry s).2 = none) (x y : List UInt8) :
    List.Lex CharLess (s.reverse ++ x) ((incrementLoop carry s).1.reverse ++ y) := by
  -- the positions with a carry move into `x` and `y`
  induction s generalizing carry x y with
  | nil =>
    cases hne with
    | inl hne => exact absurd rfl hne
    | inr hne => exact absurd h hne
  | cons c s ih =>
    have hs' : Alphanumeric s := fun d hd => hs d (mem_cons_of_mem _ hd)
    rw [incrementLoop] at h ⊢
    cases hk : charClass c with
    | none =>
      have hc := hs c (mem_cons_self ..)
      rw [hk] at hc
      exact nomatch hc
    | some k =>
      rw [hk] at h
      change (if c = k.top then _ else _ : List UInt8 × Option CharClass).2 = none at h
      show List.Lex CharLess _
        ((if c = k.top then _ else _ : List UInt8 × Option CharClass).1.reverse ++ y)
      by_cases htop : c = k.top
      · rw [if_pos htop] at h ⊢
        have hless := ih hs' (Or.inr (Option.some_ne_none k)) h (c :: x) (k.bottom :: y)
        simpa only [reverse_cons, append_assoc, singleton_append] using hless
      · rw [if_neg htop]
        simp only [reverse_cons, append_assoc, singleton_append]
        exact List.Lex.append_left CharLess (List.Lex.rel (charClass_succ hk htop)) s.reverse

theorem incrementString_less (hs : Alphanumeric s) :
    StringLess s (incrementString s) ∧
      s.map charClass <:+ (incrementString s).map charClass := by
  unfold incrementString
  by_cases hlen : s.length = 0
  · rw [if_pos hlen, length_eq_zero_iff.mp hlen]
    exact ⟨Or.inl Nat.zero_lt_one, nil_suffix⟩
  rw [if_neg hlen]
  have hne : s.reverse ≠ [] := by
    intro hnil
    rw [reverse_eq_nil_iff.mp hnil] at hlen
    exact hlen rfl
  have hclass := incrementLoop_class none s.reverse
  have hlength := incrementLoop_length none s.reverse
  have hs' : Alphanumeric s.reverse := fun c hc => hs c (mem_reverse.mp hc)
  have hless : (incrementLoop none s.reverse).2 = none → ∀ x y, List.Lex CharLess
      (s.reverse.reverse ++ x) ((incrementLoop none s.reverse).1.reverse ++ y) :=
    incrementLoop_less hs' (Or.inl hne)
  generalize incrementLoop none s.reverse = r at hclass hlength hless
  have hclass : r.1.reverse.map charClass = s.map charClass := by
    rw [map_reverse, hclass, map_reverse, reverse_reverse]
  rw [length_reverse] at hlength
  cases r with
  | mk s' carry =>
    cases carry with
    | none =>
      have hless := hless rfl [] []
      rw [List.append_nil, List.append_nil, reverse_reverse] at hless
      refine ⟨Or.inr ⟨?_, hless⟩, ?_⟩
      · rw [length_reverse]
        exact hlength.symm
      · show _ <:+ s'.reverse.map charClass
        exact ⟨[], Eq.symm hclass⟩
    | some last =>
      refine ⟨Or.inl ?_, ?_⟩
      · show s.length < s'.reverse.length + 1
        rw [length_reverse, show s'.length = s.length from hlength]
        exact Nat.lt_succ_self _
      · show _ <:+ charClass last.lead :: s'.reverse.map charClass
        rw [show s'.reverse.map charClass = s.map charClass from hclass]
        exact suffix_cons _ _

theorem incrementString_alphanumeric (hs : Alphanumeric s) :
    Alphanumeric (incrementString s) := by
  -- only the character in front may be new
  unfold incrementString
  by_cases hlen : s.length = 0
  · rw [if_pos hlen]
    intro c hc
    rw [mem_singleton.mp hc]
    rfl
  rw [if_neg hlen]
  have hclass := incrementLoop_class none s.reverse
  generalize incrementLoop none s.reverse = r at hclass
  have hmem : ∀ c ∈ r.1.reverse, (charClass c).isSome = true := by
    intro c hc
    have hc : charClass c ∈ s.reverse.map charClass := by
      rw [← hclass]
      exact mem_map_of_mem (mem_reverse.mp hc)
    have ⟨d, hd, heq⟩ := mem_map.mp hc
    rw [← heq]
    exact hs d (mem_reverse.mp hd)
  cases r with
  | mk s' carry =>
    cases carry with
    | none => exact hmem
    | some last =>
      intro c hc
      cases mem_cons.mp hc with
      | inl hc =>
        rw [hc, charClass_lead]
        rfl
      | inr hc => exact hmem c hc

theorem iterate_incrementString_less (hs : Alphanumeric s) (m n : Nat) :
    StringLess (incrementString^[m] s) (incrementString^[m + (n + 1)] s) := by
  have halnum : ∀ k, Alphanumeric (incrementString^[k] s) := by
    intro k
    induction k with
    | zero => exact hs
    | succ k ih =>
      rw [Function.iterate_succ_apply']
      exact incrementString_alphanumeric ih
  induction n with
  | zero =>
    rw [Function.iterate_succ_apply']
    exact (incrementString_less (halnum m)).1
  | succ n ih =>
    apply StringLess.trans ih
    rw [← Nat.add_assoc m (n + 1) 1, Function.iterate_succ_apply']
    exact (incrementString_less (halnum _)).1

example : incrementString ("9Zz".toList.map ch) = "10Aa".toList.map ch := by decide +kernel

end Php53.Zend
