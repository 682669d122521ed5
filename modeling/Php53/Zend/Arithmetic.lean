import Php53.Reasoning.Rounding

/-!
# Arithmetic — `add_function` … `mod_function` of longs

A `double` is a rational number with 53 significant bits, a `long double` one with 64.  A long wraps
around; the quotient and the remainder trap on zero and where the quotient is no long.
-/

open Reasoning

namespace Php53.Zend

inductive OperatorResult where
  | bool (b : Bool)
  | long (lval : BitVec 64)
  | double (dval : ℚ)

def longSignMask : BitVec 64 := 1#64 <<< 63

def longMin : BitVec 64 := BitVec.ofInt 64 (-2 ^ 63)

/-- `(double)` -/
def asDouble (l : BitVec 64) : ℚ := roundTo 53 l.toInt

/-- `(long double)` -/
def asLongDouble (l : BitVec 64) : ℚ := roundTo 64 l.toInt

/-- `/`, nothing where it traps. -/
def quotient (a b : BitVec 64) : Option (BitVec 64) :=
  if b = 0 ∨ (a = longMin ∧ b = -1) then none else some (a.sdiv b)

/-- `%`, nothing where it traps. -/
def remainder (a b : BitVec 64) : Option (BitVec 64) :=
  if b = 0 ∨ (a = longMin ∧ b = -1) then none else some (a.srem b)

def addFunction (op1 op2 : BitVec 64) : OperatorResult :=
  let lval := op1 + op2
  if op1 &&& longSignMask = op2 &&& longSignMask ∧ op1 &&& longSignMask ≠ lval &&& longSignMask then
    .double (roundTo 53 (asDouble op1 + asDouble op2))
  else .long lval

def subFunction (op1 op2 : BitVec 64) : OperatorResult :=
  let lval := op1 - op2
  if op1 &&& longSignMask ≠ op2 &&& longSignMask ∧ op1 &&& longSignMask ≠ lval &&& longSignMask then
    .double (roundTo 53 (asDouble op1 - asDouble op2))
  else .long lval

/-- `ZEND_SIGNED_MULTIPLY_LONG`, and the type that is set behind it. -/
def mulFunction (a b : BitVec 64) : OperatorResult :=
  let lres := a * b
  let dres := roundTo 64 (asLongDouble a * asLongDouble b)
  let delta := roundTo 64 (asLongDouble lres - dres)
  if roundTo 64 (dres + delta) ≠ dres then .double (roundTo 53 dres) else .long lres

def divFunction (op1 op2 : BitVec 64) : Option OperatorResult :=
  if op2 = 0 then some (.bool false)
  else if op2 = -1 ∧ op1 = longMin then
    some (.double (roundTo 53 (asDouble longMin / asDouble (-1))))
  else
    (remainder op1 op2).bind fun r =>
      if r = 0 then (quotient op1 op2).map OperatorResult.long
      else some (.double (roundTo 53 (asDouble op1 / asDouble op2)))

def modFunction (op1 op2 : BitVec 64) : Option OperatorResult :=
  if op2 = 0 then some (.bool false)
  else if op2 = -1 then some (.long 0)
  else (remainder op1 op2).map OperatorResult.long

/-- A long is returned for every integer in the range of longs, and it is that integer; a double is
returned for every other number. -/
structure Exact (z : OperatorResult) (x : ℚ) : Prop where
  long : ∀ n : ℤ, x = n → -2 ^ 63 ≤ n → n < 2 ^ 63 → ∃ lval, z = .long lval ∧ lval.toInt = n
  double : (∀ n : ℤ, x = n → n < -2 ^ 63 ∨ 2 ^ 63 ≤ n) → ∃ dval, z = .double dval

theorem toInt_range (l : BitVec 64) : -2 ^ 63 ≤ l.toInt ∧ l.toInt < 2 ^ 63 :=
  ⟨BitVec.le_toInt l, BitVec.toInt_lt⟩

theorem exact_long {lval : BitVec 64} {x : ℚ} (h : x = lval.toInt) : Exact (.long lval) x := by
  constructor
  · intro n hn _ _
    rw [h] at hn
    exact ⟨lval, rfl, Int.cast_inj.mp hn⟩
  · intro hout
    have hrange := toInt_range lval
    have hlong := hout lval.toInt h
    omega

theorem exact_double {dval x : ℚ} (h : ∀ n : ℤ, x = n → n < -2 ^ 63 ∨ 2 ^ 63 ≤ n) :
    Exact (.double dval) x := by
  constructor
  · intro n hn hlow hhigh
    have hout := h n hn
    omega
  · intro _
    exact ⟨dval, rfl⟩

theorem exact_double_int {dval : ℚ} {n : ℤ} (h : n < -2 ^ 63 ∨ 2 ^ 63 ≤ n) :
    Exact (.double dval) n := by
  apply exact_double
  intro m hm
  rw [← Int.cast_inj.mp hm]
  exact h

theorem and_longSignMask (l : BitVec 64) :
    l &&& longSignMask = if l.toInt < 0 then longSignMask else 0 := by
  have hmask : longSignMask = BitVec.twoPow 64 63 := by decide
  have hsign : l.getLsbD 63 = decide (l.toInt < 0) := by
    rw [← BitVec.msb_eq_toInt, BitVec.msb_eq_getLsbD_last]
  rw [hmask, BitVec.and_twoPow, hsign]
  simp

theorem and_longSignMask_eq_iff {l l' : BitVec 64} :
    l &&& longSignMask = l' &&& longSignMask ↔ (l.toInt < 0 ↔ l'.toInt < 0) := by
  have hmask : longSignMask ≠ 0#64 := by decide
  rw [and_longSignMask, and_longSignMask]
  by_cases h : l.toInt < 0 <;> by_cases h' : l'.toInt < 0 <;> simp [h, h', hmask, hmask.symm]

theorem exists_wrap (n : ℤ) : ∃ k : ℤ, n.bmod (2 ^ 64) = n - 2 ^ 64 * k := by
  rw [Int.bmod_def]
  have hcast : ((2 ^ 64 : ℕ) : ℤ) = 2 ^ 64 := by norm_num
  rw [hcast]
  split
  · exact ⟨n / 2 ^ 64, by omega⟩
  · exact ⟨n / 2 ^ 64 + 1, by omega⟩

theorem addFunction_exact (a b : BitVec 64) :
    Exact (addFunction a b) ((a.toInt + b.toInt : ℤ) : ℚ) := by
  have ha := toInt_range a
  have hb := toInt_range b
  have hr := toInt_range (a + b)
  have ⟨k, hwrap⟩ := exists_wrap (a.toInt + b.toInt)
  have hsum := (BitVec.toInt_add a b).trans hwrap
  unfold addFunction
  simp only [ne_eq, and_longSignMask_eq_iff]
  split
  · apply exact_double_int
    omega
  · apply exact_long
    rw [Int.cast_inj]
    omega

theorem subFunction_exact (a b : BitVec 64) :
    Exact (subFunction a b) ((a.toInt - b.toInt : ℤ) : ℚ) := by
  have ha := toInt_range a
  have hb := toInt_range b
  have hr := toInt_range (a - b)
  have ⟨k, hwrap⟩ := exists_wrap (a.toInt - b.toInt)
  have hsub := BitVec.toInt_sub.trans hwrap
  unfold subFunction
  simp only [ne_eq, and_longSignMask_eq_iff]
  split
  · apply exact_double_int
    omega
  · apply exact_long
    rw [Int.cast_inj]
    omega

theorem asLongDouble_eq (l : BitVec 64) : asLongDouble l = l.toInt := by
  have hl := toInt_range l
  unfold asLongDouble
  exact roundTo_eq_self (by decide) (hasSignificand_int (abs_lt.mpr (by omega)))

theorem lres_half {n l : ℤ} {k : ℤ} (hl : -2 ^ 63 ≤ l ∧ l < 2 ^ 63) (hwrap : l = n - 2 ^ 64 * k)
    (hout : n < -2 ^ 63 ∨ 2 ^ 63 ≤ n) :
    (0 < roundTo 64 n ∧ (l : ℚ) ≤ roundTo 64 n / 2) ∨
      (roundTo 64 n < 0 ∧ roundTo 64 n / 2 ≤ (l : ℚ)) := by
  have hpow : HasSignificand 64 (2 ^ (64 : ℤ)) := hasSignificand_zpow (by decide) 64
  by_cases hsmall : |n| < 2 ^ 64
  · -- the product is a `long double`, and the wrapped one has the other sign
    rw [roundTo_eq_self (by decide) (hasSignificand_int hsmall)]
    rw [abs_lt] at hsmall
    rcases hout with hlow | hhigh
    · right
      have hpos : 0 ≤ l := by omega
      have hneg : n < 0 := by omega
      have hpos' : (0 : ℚ) ≤ l := Int.cast_nonneg hpos
      have hneg' : (n : ℚ) < 0 := Int.cast_lt_zero.mpr hneg
      constructor <;> linarith
    · left
      have hneg : l ≤ 0 := by omega
      have hpos : 0 < n := by omega
      have hneg' : (l : ℚ) ≤ 0 := Int.cast_nonpos.mpr hneg
      have hpos' : (0 : ℚ) < n := Int.cast_pos.mpr hpos
      constructor <;> linarith
  · have hlow : (-2 ^ 63 : ℚ) ≤ l := by exact_mod_cast hl.1
    have hhigh : (l : ℚ) < 2 ^ 63 := by exact_mod_cast hl.2
    rw [abs_lt] at hsmall
    rcases hout with hneg | hpos
    · right
      have hle : (n : ℚ) ≤ -2 ^ (64 : ℤ) := by
        have hn : n ≤ -2 ^ 64 := by omega
        exact_mod_cast hn
      have hround := roundTo_le (by decide) hpow.neg hle
      norm_num at hround hlow
      constructor <;> linarith
    · left
      have hle : (2 : ℚ) ^ (64 : ℤ) ≤ n := by
        have hn : 2 ^ 64 ≤ n := by omega
        exact_mod_cast hn
      have hround := le_roundTo (by decide) hpow hle
      norm_num at hround hhigh
      constructor <;> linarith

theorem mulFunction_exact (a b : BitVec 64) :
    Exact (mulFunction a b) ((a.toInt * b.toInt : ℤ) : ℚ) := by
  have hl := toInt_range (a * b)
  have ⟨k, hwrap⟩ := exists_wrap (a.toInt * b.toInt)
  have hmul := (BitVec.toInt_mul a b).trans hwrap
  unfold mulFunction
  dsimp only
  rw [asLongDouble_eq, asLongDouble_eq, asLongDouble_eq, ← Int.cast_mul]
  by_cases hout : a.toInt * b.toInt < -2 ^ 63 ∨ 2 ^ 63 ≤ a.toInt * b.toInt
  · have hfar : roundTo 64 (roundTo 64 (a.toInt * b.toInt : ℤ) +
        roundTo 64 ((a * b).toInt - roundTo 64 (a.toInt * b.toInt : ℤ))) ≠
        roundTo 64 (a.toInt * b.toInt : ℤ) := by
      have hD := hasSignificand_roundTo (p := 64) (by decide) (a.toInt * b.toInt : ℤ)
      rcases lres_half hl hmul hout with ⟨hpos, hle⟩ | ⟨hneg, hle⟩
      · exact (roundTo_add_lt (by decide) hD hpos hle).ne
      · exact (lt_roundTo_add (by decide) hD hneg hle).ne'
    rw [if_pos hfar]
    exact exact_double_int hout
  · have hn : ((a.toInt * b.toInt : ℤ) : ℚ) = (a * b).toInt := by
      rw [Int.cast_inj]
      omega
    have hself : roundTo 64 ((a * b).toInt : ℚ) = (a * b).toInt :=
      roundTo_eq_self (by decide) (hasSignificand_int (abs_lt.mpr (by omega)))
    rw [hn, hself, sub_self, roundTo_zero, add_zero, hself, if_neg (not_not.mpr rfl)]
    exact exact_long rfl

theorem toInt_longMin : longMin.toInt = -2 ^ 63 := by decide

theorem toInt_ne_zero {b : BitVec 64} (hb : b ≠ 0) : b.toInt ≠ 0 := by
  intro h
  exact hb (BitVec.eq_of_toInt_eq h)

theorem div_eq_int_iff {a b n : ℤ} (hb : b ≠ 0) : (a : ℚ) / b = n ↔ a = n * b := by
  have hb' : (b : ℚ) ≠ 0 := Int.cast_ne_zero.mpr hb
  rw [div_eq_iff hb']
  exact_mod_cast Iff.rfl

theorem quotient_remainder {a b : BitVec 64} (hb : b ≠ 0) (h : ¬(b = -1 ∧ a = longMin)) :
    (∃ q, quotient a b = some q ∧ q.toInt = a.toInt.tdiv b.toInt) ∧
      ∃ r, remainder a b = some r ∧ r.toInt = a.toInt.tmod b.toInt := by
  have htrap : ¬(b = 0 ∨ (a = longMin ∧ b = -1)) := by tauto
  unfold quotient remainder
  rw [if_neg htrap, if_neg htrap]
  have hne : a ≠ BitVec.intMin 64 ∨ b ≠ -1 := by
    have hmin : longMin = BitVec.intMin 64 := by decide
    rw [← hmin]
    tauto
  exact ⟨⟨_, rfl, BitVec.toInt_sdiv_of_ne_or_ne a b hne⟩, _, rfl, BitVec.toInt_srem a b⟩

theorem divFunction_exact {a b : BitVec 64} (hb : b ≠ 0) :
    ∃ z, divFunction a b = some z ∧ Exact z ((a.toInt : ℚ) / b.toInt) := by
  have hzero := toInt_ne_zero hb
  unfold divFunction
  rw [if_neg hb]
  by_cases hmin : b = -1 ∧ a = longMin
  · rw [if_pos hmin]
    refine ⟨_, rfl, exact_double ?_⟩
    intro n hn
    rw [div_eq_int_iff hzero, hmin.1, hmin.2, toInt_longMin] at hn
    have hone : (-1 : BitVec 64).toInt = -1 := by decide
    rw [hone] at hn
    omega
  · rw [if_neg hmin]
    have ⟨⟨q, hq, hquot⟩, r, hr, hrem⟩ := quotient_remainder hb hmin
    have hdivides : r = 0 ↔ b.toInt ∣ a.toInt := by
      rw [Int.dvd_iff_tmod_eq_zero, ← hrem]
      exact ⟨fun h => by rw [h]; rfl, fun h => BitVec.eq_of_toInt_eq h⟩
    rw [hr, Option.bind_some]
    by_cases hdvd : r = 0
    · rw [if_pos hdvd, hq]
      refine ⟨_, rfl, exact_long ?_⟩
      rw [div_eq_int_iff hzero, hquot, Int.tdiv_mul_cancel (hdivides.mp hdvd)]
    · rw [if_neg hdvd]
      refine ⟨_, rfl, exact_double ?_⟩
      intro n hn
      rw [div_eq_int_iff hzero] at hn
      exact absurd (hdivides.mpr ⟨n, by rw [hn, mul_comm]⟩) hdvd

theorem modFunction_exact {a b : BitVec 64} (hb : b ≠ 0) :
    ∃ r, modFunction a b = some (.long r) ∧ r.toInt = a.toInt.tmod b.toInt := by
  unfold modFunction
  rw [if_neg hb]
  by_cases hone : b = -1
  · rw [if_pos hone]
    refine ⟨0, rfl, ?_⟩
    have hminus : (-1 : BitVec 64).toInt = -1 := by decide
    rw [hone, hminus, Int.tmod_neg, Int.tmod_one]
    rfl
  · rw [if_neg hone]
    have ⟨_, r, hr, hrem⟩ := quotient_remainder (a := a) hb fun h => hone h.1
    exact ⟨r, by rw [hr]; rfl, hrem⟩

/-- A long is returned if and only if the exact result is a long, and a remainder is exact; nothing
traps. -/
theorem arithmetic_exact (a b : BitVec 64) :
    Exact (addFunction a b) (a.toInt + b.toInt) ∧ Exact (subFunction a b) (a.toInt - b.toInt) ∧
      Exact (mulFunction a b) (a.toInt * b.toInt) ∧
      (b ≠ 0 → (∃ z, divFunction a b = some z ∧ Exact z (a.toInt / b.toInt)) ∧
        ∃ r, modFunction a b = some (.long r) ∧ r.toInt = a.toInt.tmod b.toInt) := by
  have hadd := addFunction_exact a b
  have hsub := subFunction_exact a b
  have hmul := mulFunction_exact a b
  push_cast at hadd hsub hmul
  exact ⟨hadd, hsub, hmul, fun hb => ⟨divFunction_exact hb, modFunction_exact hb⟩⟩

/-- The remainder of `LONG_MIN` by `-1` does not trap. -/
theorem arithmetic_exact_longMin : ∃ r, modFunction longMin (-1) = some (.long r) ∧ r.toInt = 0 :=
  ((arithmetic_exact longMin (-1)).2.2.2 (by decide)).2

end Php53.Zend
