import Mathlib.Data.Int.Log
import Mathlib.Data.Rat.Floor
import Mathlib.Tactic.Linarith
import Mathlib.Tactic.Positivity
import Mathlib.Tactic.FieldSimp
import Mathlib.Tactic.Ring

/-!
# Rounding — rational numbers with a significand of `p` bits

The nearest number with `p` significant bits, the even one of two.  The exponent is not bounded.
All that is needed of it is that it does not cross a number that has such a significand.
-/

namespace Reasoning

def roundEven (x : ℚ) : ℤ :=
  if x - ⌊x⌋ < 1 / 2 ∨ (x - ⌊x⌋ = 1 / 2 ∧ ⌊x⌋ % 2 = 0) then ⌊x⌋ else ⌊x⌋ + 1

def lastPlace (p : ℕ) (x : ℚ) : ℚ := 2 ^ (Int.log 2 |x| + 1 - p)

/-- The nearest number with `p` significant bits. -/
def roundTo (p : ℕ) (x : ℚ) : ℚ := roundEven (x / lastPlace p x) * lastPlace p x

/-- The numbers with `p` significant bits. -/
def HasSignificand (p : ℕ) (g : ℚ) : Prop := ∃ m e : ℤ, g = m * 2 ^ e ∧ |m| < 2 ^ p

theorem roundEven_le {x : ℚ} {k : ℤ} (h : x ≤ k) : roundEven x ≤ k := by
  have hle : ⌊x⌋ ≤ k := Int.cast_le.mp ((Int.floor_le x).trans h)
  unfold roundEven
  split
  · exact hle
  · next hup =>
    -- a number that is rounded up is no integer
    rw [not_or, not_lt] at hup
    have hlt : (⌊x⌋ : ℚ) < k := by linarith [hup.1]
    exact Int.cast_lt.mp hlt

theorem le_roundEven {x : ℚ} {k : ℤ} (h : (k : ℚ) ≤ x) : k ≤ roundEven x := by
  have hle : k ≤ ⌊x⌋ := Int.le_floor.mpr h
  unfold roundEven
  split
  · exact hle
  · omega

section

variable {p : ℕ} {x g : ℚ}

theorem lastPlace_pos (p : ℕ) (x : ℚ) : 0 < lastPlace p x := by
  unfold lastPlace
  exact zpow_pos (by norm_num) _

theorem log_bounds (hx : x ≠ 0) :
    (2 : ℚ) ^ Int.log 2 |x| ≤ |x| ∧ |x| < 2 ^ (Int.log 2 |x| + 1) := by
  have hpos := abs_pos.mpr hx
  exact ⟨by exact_mod_cast Int.zpow_log_le_self (by decide : 1 < 2) hpos,
    by exact_mod_cast Int.lt_zpow_succ_log_self (by decide : 1 < 2) |x|⟩

theorem exists_multiple {e : ℤ} (h : Int.log 2 |x| + 1 - p ≤ e) :
    ∃ k : ℤ, (2 : ℚ) ^ e = k * lastPlace p x := by
  have hnat : ((e - (Int.log 2 |x| + 1 - p)).toNat : ℤ) = e - (Int.log 2 |x| + 1 - p) :=
    Int.toNat_of_nonneg (by omega)
  refine ⟨2 ^ (e - (Int.log 2 |x| + 1 - p)).toNat, ?_⟩
  unfold lastPlace
  rw [Int.cast_pow, Int.cast_ofNat, ← zpow_natCast, hnat, ← zpow_add₀ (by norm_num)]
  congr 1
  omega

theorem HasSignificand.multiple (h : HasSignificand p g)
    (hle : (2 : ℚ) ^ Int.log 2 |x| ≤ |g|) : ∃ k : ℤ, g = k * lastPlace p x := by
  have ⟨m, e, hg, hm⟩ := h
  -- the exponent is no smaller than the one of the last place
  have he : Int.log 2 |x| + 1 - p ≤ e := by
    by_contra hlt
    have hpow : (0 : ℚ) < 2 ^ e := zpow_pos (by norm_num) _
    have habs : |g| < 2 ^ (p : ℤ) * 2 ^ e := by
      rw [hg, abs_mul, abs_of_pos hpow]
      have hm' : |(m : ℚ)| < 2 ^ (p : ℤ) := by
        rw [zpow_natCast]
        exact_mod_cast hm
      exact mul_lt_mul_of_pos_right hm' hpow
    rw [← zpow_add₀ (by norm_num)] at habs
    have hpow : (2 : ℚ) ^ ((p : ℤ) + e) ≤ 2 ^ Int.log 2 |x| :=
      zpow_le_zpow_right₀ (by norm_num) (by omega)
    linarith
  have ⟨k, hk⟩ := exists_multiple he
  exact ⟨m * k, by rw [hg, hk]; push_cast; ring⟩

theorem roundTo_le_of_multiple {k : ℤ} (h : x ≤ k * lastPlace p x) :
    roundTo p x ≤ k * lastPlace p x := by
  have hle := roundEven_le ((div_le_iff₀ (lastPlace_pos p x)).mpr h)
  exact mul_le_mul_of_nonneg_right (Int.cast_le.mpr hle) (lastPlace_pos p x).le

theorem le_roundTo_of_multiple {k : ℤ} (h : k * lastPlace p x ≤ x) :
    k * lastPlace p x ≤ roundTo p x := by
  have hle := le_roundEven ((le_div_iff₀ (lastPlace_pos p x)).mpr h)
  exact mul_le_mul_of_nonneg_right (Int.cast_le.mpr hle) (lastPlace_pos p x).le

@[simp] theorem roundTo_zero (p : ℕ) : roundTo p 0 = 0 := by
  unfold roundTo
  rw [zero_div, show roundEven 0 = 0 by decide +kernel, Int.cast_zero, zero_mul]

theorem roundTo_le (hp : 0 < p) (h : HasSignificand p g) (hle : x ≤ g) : roundTo p x ≤ g := by
  by_cases hx : x = 0
  · rw [hx, roundTo_zero]
    exact hx ▸ hle
  · by_cases hsmall : (2 : ℚ) ^ Int.log 2 |x| ≤ |g|
    · have ⟨k, hk⟩ := h.multiple hsmall
      rw [hk] at hle ⊢
      exact roundTo_le_of_multiple hle
    · -- between the two lies a power of two
      have ⟨hlow, _⟩ := log_bounds hx
      have hg := abs_lt.mp (not_le.mp hsmall)
      have hneg : x ≤ -2 ^ Int.log 2 |x| := by
        rcases abs_choice x with hpos | hneg
        · rw [hpos] at hlow hg
          linarith
        · linarith
      have ⟨k, hk⟩ := @exists_multiple p x (Int.log 2 |x|) (by omega)
      have hround : roundTo p x ≤ (-k : ℤ) * lastPlace p x := by
        apply roundTo_le_of_multiple
        push_cast
        linarith
      push_cast at hround
      linarith

theorem le_roundTo (hp : 0 < p) (h : HasSignificand p g) (hle : g ≤ x) : g ≤ roundTo p x := by
  by_cases hx : x = 0
  · rw [hx, roundTo_zero]
    exact hx ▸ hle
  · by_cases hsmall : (2 : ℚ) ^ Int.log 2 |x| ≤ |g|
    · have ⟨k, hk⟩ := h.multiple hsmall
      rw [hk] at hle ⊢
      exact le_roundTo_of_multiple hle
    · have ⟨hlow, _⟩ := log_bounds hx
      have hg := abs_lt.mp (not_le.mp hsmall)
      have hpos : 2 ^ Int.log 2 |x| ≤ x := by
        rcases abs_choice x with hpos | hneg
        · linarith
        · rw [hneg] at hlow hg
          linarith
      have ⟨k, hk⟩ := @exists_multiple p x (Int.log 2 |x|) (by omega)
      have hround : (k : ℚ) * lastPlace p x ≤ roundTo p x := le_roundTo_of_multiple (by linarith)
      linarith

theorem roundTo_eq_self (hp : 0 < p) (h : HasSignificand p g) : roundTo p g = g :=
  le_antisymm (roundTo_le hp h le_rfl) (le_roundTo hp h le_rfl)

theorem hasSignificand_int {n : ℤ} (h : |n| < 2 ^ p) : HasSignificand p n :=
  ⟨n, 0, by simp, h⟩

theorem hasSignificand_zpow (hp : 0 < p) (e : ℤ) : HasSignificand p (2 ^ e) :=
  ⟨1, e, by simp, by rw [abs_one]; exact one_lt_pow₀ (by norm_num) hp.ne'⟩

theorem HasSignificand.neg (h : HasSignificand p g) : HasSignificand p (-g) := by
  have ⟨m, e, hg, hm⟩ := h
  exact ⟨-m, e, by rw [hg]; push_cast; ring, by rwa [abs_neg]⟩

theorem HasSignificand.half (h : HasSignificand p g) : HasSignificand p (g / 2) := by
  have ⟨m, e, hg, hm⟩ := h
  exact ⟨m, e - 1, by rw [hg, zpow_sub₀ (by norm_num), zpow_one]; ring, hm⟩

theorem hasSignificand_roundTo (hp : 0 < p) (x : ℚ) : HasSignificand p (roundTo p x) := by
  by_cases hx : x = 0
  · rw [hx, roundTo_zero]
    exact ⟨0, 0, by simp, by positivity⟩
  · have ⟨_, hhigh⟩ := log_bounds hx
    have hplace : (2 : ℚ) ^ (Int.log 2 |x| + 1) = 2 ^ p * lastPlace p x := by
      unfold lastPlace
      rw [← zpow_natCast, ← zpow_add₀ (by norm_num)]
      congr 1
      omega
    rw [hplace] at hhigh
    have ⟨hlow, hhigh⟩ := abs_lt.mp hhigh
    have hdiv : x / lastPlace p x ≤ (2 ^ p : ℤ) ∧ ((-2 ^ p : ℤ) : ℚ) ≤ x / lastPlace p x := by
      rw [div_le_iff₀ (lastPlace_pos p x), le_div_iff₀ (lastPlace_pos p x)]
      push_cast
      constructor <;> linarith
    have hle := roundEven_le hdiv.1
    have hge := le_roundEven hdiv.2
    unfold roundTo
    by_cases hlt : |roundEven (x / lastPlace p x)| < 2 ^ p
    · exact ⟨_, _, rfl, hlt⟩
    · -- the carry runs through the whole significand
      have hcarry : HasSignificand p (2 ^ p * lastPlace p x) := hplace ▸ hasSignificand_zpow hp _
      have hcases : roundEven (x / lastPlace p x) = 2 ^ p ∨
          roundEven (x / lastPlace p x) = -2 ^ p := by
        rw [abs_lt] at hlt
        omega
      rcases hcases with heq | heq
      · rw [heq]
        push_cast
        exact hcarry
      · rw [heq]
        push_cast
        rw [neg_mul]
        exact hcarry.neg

theorem roundTo_add_lt (hp : 0 < p) (h : HasSignificand p g) (hpos : 0 < g) (hle : x ≤ g / 2) :
    roundTo p (g + roundTo p (x - g)) < g := by
  have hdelta : roundTo p (x - g) ≤ -(g / 2) := roundTo_le hp h.half.neg (by linarith)
  have hsum : roundTo p (g + roundTo p (x - g)) ≤ g / 2 := roundTo_le hp h.half (by linarith)
  linarith

theorem lt_roundTo_add (hp : 0 < p) (h : HasSignificand p g) (hneg : g < 0) (hle : g / 2 ≤ x) :
    g < roundTo p (g + roundTo p (x - g)) := by
  have hdelta : -(g / 2) ≤ roundTo p (x - g) := le_roundTo hp h.half.neg (by linarith)
  have hsum : g / 2 ≤ roundTo p (g + roundTo p (x - g)) := le_roundTo hp h.half (by linarith)
  linarith

end

end Reasoning
