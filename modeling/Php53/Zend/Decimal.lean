import Php53.Zend.Hash.Table

/-!
# Decimal — the digits of a `long`

The loops that print a `long` and the loops that parse one are inverse to each other.
-/

namespace Php53.Zend

open List

variable {c : UInt8} {fuel n : Nat} {digits : List UInt8}

abbrev ch (c : Char) : UInt8 := UInt8.ofNat c.toNat

def isDigit (c : UInt8) : Bool := ch '0' ≤ c && c ≤ ch '9'

/-- The value of a run of digits, as the loops of `parse_iv2` and `parse_uiv` compute it. -/
def digitsValue (digits : List UInt8) : BitVec 64 :=
  digits.foldl (fun result c => result * 10 + BitVec.ofNat 64 (c.toNat - 48)) 0

/-- The decimal digits of `n`, at most `fuel` of them, the last one first. -/
def reversedDigits : Nat → Nat → List UInt8
  | 0, _ => []
  | fuel + 1, n =>
    if n < 10 then [UInt8.ofNat (48 + n)]
    else UInt8.ofNat (48 + n % 10) :: reversedDigits fuel (n / 10)

example : reversedDigits 20 120 = [ch '0', ch '2', ch '1'] := by
  rw [reversedDigits]
  rfl

/-- A `long` in decimal, as `smart_str_append_long` and `convert_to_string` write it. -/
def printLong (l : BitVec 64) : List UInt8 :=
  if l.toInt < 0 then ch '-' :: (reversedDigits 20 l.toInt.natAbs).reverse
  else (reversedDigits 20 l.toInt.natAbs).reverse


def digitsNat (digits : List UInt8) : Nat := digits.foldl (fun n c => n * 10 + (c.toNat - 48)) 0

theorem digitsNat_concat (digits : List UInt8) (c : UInt8) :
    digitsNat (digits ++ [c]) = digitsNat digits * 10 + (c.toNat - 48) := by
  rw [digitsNat, foldl_append]
  rfl

theorem digitsValue_concat (digits : List UInt8) (c : UInt8) :
    digitsValue (digits ++ [c]) = digitsValue digits * 10 + BitVec.ofNat 64 (c.toNat - 48) := by
  rw [digitsValue, foldl_append]
  rfl

theorem digitsValue_eq (digits : List UInt8) :
    digitsValue digits = BitVec.ofNat 64 (digitsNat digits) := by
  induction digits using reverseRecOn with
  | nil => rfl
  | append_singleton digits c ih =>
    rw [digitsValue_concat, digitsNat_concat, ih, BitVec.ofNat_add, BitVec.ofNat_mul]
    rfl

theorem isDigit_iff : isDigit c = true ↔ 48 ≤ c.toNat ∧ c.toNat ≤ 57 := by
  rw [isDigit, Bool.and_eq_true, decide_eq_true_eq, decide_eq_true_eq, UInt8.le_iff_toNat_le,
    UInt8.le_iff_toNat_le]
  rfl

theorem toNat_digit (h : n < 10) : (UInt8.ofNat (48 + n)).toNat = 48 + n := by
  rw [UInt8.toNat_ofNat']
  omega

theorem isDigit_of_lt (h : n < 10) : isDigit (UInt8.ofNat (48 + n)) = true := by
  rw [isDigit_iff, toNat_digit h]
  omega

theorem isDigit_of_mem_reversedDigits (h : c ∈ reversedDigits fuel n) : isDigit c = true := by
  induction fuel generalizing n with
  | zero => exact nomatch h
  | succ fuel ih =>
    rw [reversedDigits] at h
    split at h
    · rw [mem_singleton.mp h]
      exact isDigit_of_lt ‹_›
    · rcases mem_cons.mp h with rfl | h
      · exact isDigit_of_lt (Nat.mod_lt _ (by decide))
      · exact ih h

theorem reversedDigits_ne_nil (fuel n : Nat) : reversedDigits (fuel + 1) n ≠ [] := by
  rw [reversedDigits]
  split <;> exact cons_ne_nil _ _

theorem digitsNat_reversedDigits (h : n < 10 ^ fuel) :
    digitsNat (reversedDigits fuel n).reverse = n := by
  induction fuel generalizing n with
  | zero =>
    have : n = 0 := by omega
    rw [this]
    rfl
  | succ fuel ih =>
    rw [reversedDigits]
    split
    · rename_i hlt
      change 0 * 10 + ((UInt8.ofNat (48 + n)).toNat - 48) = n
      rw [toNat_digit hlt]
      omega
    · have hdiv : n / 10 < 10 ^ fuel := by
        rw [Nat.div_lt_iff_lt_mul (by decide), ← pow_succ]
        exact h
      rw [reverse_cons, digitsNat_concat, ih hdiv, toNat_digit (Nat.mod_lt _ (by decide))]
      omega

theorem length_reversedDigits_le {k : Nat} (h : n < 10 ^ (k + 1)) :
    (reversedDigits fuel n).length ≤ k + 1 := by
  induction fuel generalizing k n with
  | zero => exact Nat.zero_le _
  | succ fuel ih =>
    rw [reversedDigits]
    split
    · exact Nat.succ_le_succ (Nat.zero_le _)
    · obtain ⟨k, rfl⟩ : ∃ j, k = j + 1 := by
        cases k with
        | zero => omega
        | succ k => exact ⟨k, rfl⟩
      have hdiv : n / 10 < 10 ^ (k + 1) := by
        rw [Nat.div_lt_iff_lt_mul (by decide), ← pow_succ]
        exact h
      exact Nat.succ_le_succ (ih hdiv)

theorem head_reversedDigits (hpos : 0 < n) (h : n < 10 ^ fuel) :
    (reversedDigits fuel n).reverse.head? ≠ some (ch '0') := by
  rw [List.head?_reverse]
  induction fuel generalizing n with
  | zero => omega
  | succ fuel ih =>
    rw [reversedDigits]
    split
    · rename_i hlt
      rw [List.getLast?_singleton]
      intro heq
      have hzero := congrArg UInt8.toNat (Option.some.inj heq)
      rw [toNat_digit hlt] at hzero
      change 48 + n = 48 at hzero
      omega
    · have hdiv : n / 10 < 10 ^ fuel := by
        rw [Nat.div_lt_iff_lt_mul (by decide), ← pow_succ]
        exact h
      have hne : reversedDigits fuel (n / 10) ≠ [] := by
        cases fuel with
        | zero => omega
        | succ fuel => exact reversedDigits_ne_nil fuel _
      rw [List.getLast?_cons, List.getLast?_eq_getLast_of_ne_nil hne, Option.getD_some,
        ← List.getLast?_eq_getLast_of_ne_nil hne]
      exact ih (by omega) hdiv

theorem reversedDigits_digitsNat (hdigit : ∀ c ∈ digits, isDigit c = true) (hne : digits ≠ [])
    (hlead : 1 < digits.length → digits.head? ≠ some (ch '0')) (hfuel : digits.length ≤ fuel) :
    (reversedDigits fuel (digitsNat digits)).reverse = digits := by
  induction digits using reverseRecOn generalizing fuel with
  | nil => exact absurd rfl hne
  | append_singleton digits c ih =>
    have hc := isDigit_iff.mp (hdigit c (mem_append_right _ (mem_singleton_self _)))
    have hback : UInt8.ofNat (48 + (c.toNat - 48)) = c := by
      rw [Nat.add_sub_cancel' hc.1, UInt8.ofNat_toNat]
    rw [length_append, length_singleton] at hfuel hlead
    obtain ⟨fuel, rfl⟩ : ∃ f, fuel = f + 1 := Nat.exists_eq_add_one.mpr (by omega)
    rw [digitsNat_concat, reversedDigits]
    by_cases hnil : digits = []
    · subst hnil
      have hzero : digitsNat [] = 0 := rfl
      rw [hzero, Nat.zero_mul, Nat.zero_add, if_pos (by omega), hback]
      rfl
    · have hlen := length_pos_iff.mpr hnil
      have hhead := hlead (by omega)
      rw [List.head?_append_of_ne_nil _ hnil] at hhead
      have hrec : (reversedDigits fuel (digitsNat digits)).reverse = digits :=
        ih (fun x hx => hdigit x (mem_append_left _ hx)) hnil (fun _ => hhead) (by omega)
      -- the digits in front do not stand for `0`, which is printed as a zero
      have hpos : digitsNat digits ≠ 0 := by
        intro hzero
        rw [hzero] at hrec
        obtain ⟨f, rfl⟩ : ∃ f, fuel = f + 1 := Nat.exists_eq_add_one.mpr (by omega)
        rw [← hrec] at hhead
        exact hhead rfl
      have hmod : (digitsNat digits * 10 + (c.toNat - 48)) % 10 = c.toNat - 48 := by omega
      have hdiv : (digitsNat digits * 10 + (c.toNat - 48)) / 10 = digitsNat digits := by omega
      rw [if_neg (by omega), hmod, hdiv, hback, reverse_cons, hrec]

theorem natAbs_lt (l : BitVec 64) : l.toInt.natAbs < 10 ^ 20 := by
  have := BitVec.toInt_lt (x := l)
  have := BitVec.le_toInt (x := l)
  omega

/-- The digits of a `long`, without its sign. -/
def longDigits (l : BitVec 64) : List UInt8 := (reversedDigits 20 l.toInt.natAbs).reverse

theorem longDigits_ne_nil (l : BitVec 64) : longDigits l ≠ [] := by
  rw [longDigits, ne_eq, reverse_eq_nil_iff]
  exact reversedDigits_ne_nil 19 _

theorem isDigit_of_mem_longDigits {l : BitVec 64} (h : c ∈ longDigits l) :
    isDigit c = true :=
  isDigit_of_mem_reversedDigits (mem_reverse.mp h)

theorem digitsValue_longDigits (l : BitVec 64) :
    digitsValue (longDigits l) = BitVec.ofNat 64 l.toInt.natAbs := by
  rw [digitsValue_eq, longDigits, digitsNat_reversedDigits (natAbs_lt l)]

theorem printLong_eq (l : BitVec 64) :
    printLong l = if l.toInt < 0 then ch '-' :: longDigits l else longDigits l := rfl

theorem printLong_of_digits (hdigit : ∀ c ∈ digits, isDigit c = true) (hne : digits ≠ [])
    (hlead : 1 < digits.length → digits.head? ≠ some (ch '0')) (hlen : digits.length ≤ 20)
    {l : BitVec 64} (hl : l.toInt.natAbs = digitsNat digits) :
    longDigits l = digits := by
  rw [longDigits, hl, reversedDigits_digitsNat hdigit hne hlead hlen]

theorem digitsNat_lt (hdigit : ∀ c ∈ digits, isDigit c = true) :
    digitsNat digits < 10 ^ digits.length := by
  induction digits using reverseRecOn with
  | nil => exact Nat.one_pos
  | append_singleton digits c ih =>
    have hc := isDigit_iff.mp (hdigit c (mem_append_right _ (mem_singleton_self _)))
    have := ih fun x hx => hdigit x (mem_append_left _ hx)
    rw [digitsNat_concat, length_append, length_singleton, pow_succ]
    omega

end Php53.Zend
