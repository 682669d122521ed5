import Mathlib.Data.Nat.Log
import Mathlib.Tactic.Common
import Php53.Zend.Alloc.FreeLists

/-!
# Sizes — what the bit scans and the bucket numbers compute

`zend_mm_high_bit` is the binary logarithm and `zend_mm_low_bit` the least bit that is set.  A size
of at least `ZEND_MM_MAX_SMALL_SIZE` goes to the trie of its highest bit, and the bits below that
one are what the loop over `m` reads, one after the other.
-/

open Reasoning

namespace Php53.Zend

variable {size : BitVec 64} {k : ℕ}

theorem highBitLoop_eq (fuel : ℕ) (size : BitVec 64) (n : ℕ) (h : size.toNat < 2 ^ fuel) :
    highBitLoop fuel size n = n + if size = 0 then 0 else size.toNat.log2 + 1 := by
  induction fuel generalizing size n with
  | zero =>
    have h0 : size = 0 := by
      apply BitVec.eq_of_toNat_eq
      simpa using h
    simp [highBitLoop, h0]
  | succ fuel ih =>
    unfold highBitLoop
    by_cases h0 : size = 0
    · rw [if_neg (not_not.mpr h0), if_pos h0]
      rfl
    · have hpos : size.toNat ≠ 0 := fun he => h0 (BitVec.eq_of_toNat_eq he)
      have hshift : (size >>> 1).toNat = size.toNat / 2 := by
        rw [BitVec.toNat_ushiftRight, Nat.shiftRight_one]
      rw [if_pos h0, if_neg h0, ih]
      · rw [Nat.log2_def size.toNat]
        by_cases h1 : 2 ≤ size.toNat
        · have hne : size >>> 1 ≠ 0 := by
            intro he
            have := congrArg BitVec.toNat he
            rw [hshift] at this
            simp at this
            omega
          rw [if_neg hne, hshift, if_pos h1]
          omega
        · have he : size >>> 1 = 0 := by
            apply BitVec.eq_of_toNat_eq
            rw [hshift]
            show size.toNat / 2 = 0
            omega
          rw [if_pos he, if_neg h1]
      · rw [hshift]
        rw [Nat.pow_succ] at h
        omega

theorem zendMmHighBit_eq (h : size ≠ 0) : zendMmHighBit size = size.toNat.log2 := by
  have hpos : size.toNat ≠ 0 := fun he => h (BitVec.eq_of_toNat_eq he)
  have hlt : size.toNat.log2 < 64 := by
    rw [Nat.log2_lt hpos]
    exact size.isLt
  unfold zendMmHighBit zendMmNumBuckets
  rw [highBitLoop_eq _ _ _ size.isLt, if_neg h]
  omega

theorem div_highBit (h : size ≠ 0) : size.toNat / 2 ^ zendMmHighBit size = 1 := by
  have hpos : size.toNat ≠ 0 := fun he => h (BitVec.eq_of_toNat_eq he)
  rw [zendMmHighBit_eq h]
  have h1 := Nat.log2_self_le hpos
  have h2 := Nat.lt_log2_self (n := size.toNat)
  rw [Nat.pow_succ] at h2
  apply Nat.div_eq_of_lt_le
  · omega
  · omega

theorem zendMmHighBit_lt (h : size ≠ 0) : zendMmHighBit size < 64 := by
  have hpos : size.toNat ≠ 0 := fun he => h (BitVec.eq_of_toNat_eq he)
  rw [zendMmHighBit_eq h, Nat.log2_lt hpos]
  exact size.isLt

theorem zendMmMaxSmallSize_eq : zendMmMaxSmallSize = 544 := by decide

theorem zendMmAlignedMinHeaderSize_eq : zendMmAlignedMinHeaderSize = 32 := by decide

theorem zendMmSmallSize_iff (size : BitVec 64) : zendMmSmallSize size = true ↔ size.toNat < 544 := by
  unfold zendMmSmallSize
  rw [zendMmMaxSmallSize_eq, decide_eq_true_iff, BitVec.lt_def]
  rfl

theorem ne_zero_of_large (h : zendMmSmallSize size = false) : size ≠ 0 := by
  intro h0
  rw [h0] at h
  exact absurd h (by decide)

theorem zendMmBucketIndex_lt (hs : zendMmSmallSize size = true)
    (hmin : zendMmAlignedMinHeaderSize ≤ size) : zendMmBucketIndex size < 64 := by
  rw [zendMmSmallSize_iff] at hs
  rw [zendMmAlignedMinHeaderSize_eq, BitVec.le_def] at hmin
  have hmin : 32 ≤ size.toNat := hmin
  unfold zendMmBucketIndex zendMmAlignmentLog2
  rw [zendMmAlignedMinHeaderSize_eq, show (32 : BitVec 64) >>> 3 = 4 by decide, BitVec.toNat_sub,
    BitVec.toNat_ushiftRight, Nat.shiftRight_eq_div_pow]
  show (2 ^ 64 - 4 + size.toNat / 2 ^ 3) % 2 ^ 64 < 64
  omega

theorem shiftLeft_msb (size : BitVec 64) (hk : k ≠ 0) (hk' : k ≤ 64) :
    ((size <<< (64 - k)) >>> (zendMmNumBuckets - 1) &&& 1 == 1) = size.toNat.testBit (k - 1) := by
  have hbit : ((size <<< (64 - k)) >>> 63).getLsbD 0 = size.getLsbD (k - 1) := by
    rw [BitVec.getLsbD_ushiftRight, BitVec.getLsbD_shiftLeft]
    have h1 : 63 + 0 - (64 - k) = k - 1 := by omega
    have h2 : ¬ 63 + 0 < 64 - k := by omega
    rw [h1]
    simp
    omega
  rw [← BitVec.testBit_toNat] at hbit
  show ((size <<< (64 - k)) >>> 63 &&& 1 == 1) = _
  rw [← BitVec.testBit_toNat] at hbit
  rw [← hbit]
  have hlt : ((size <<< (64 - k)) >>> 63).toNat < 2 := by
    rw [BitVec.toNat_ushiftRight, Nat.shiftRight_eq_div_pow]
    have := (size <<< (64 - k)).isLt
    omega
  generalize (size <<< (64 - k)) >>> 63 = x at hlt ⊢
  have hx : x.toNat = 0 ∨ x.toNat = 1 := by omega
  rcases hx with hx | hx
  · have h0 : x = 0 := BitVec.eq_of_toNat_eq hx
    subst h0
    decide
  · have h1 : x = 1 := BitVec.eq_of_toNat_eq hx
    subst h1
    decide

theorem getLsbD_of_zero (i : ℕ) : (0 : BitVec 64).getLsbD i = false := BitVec.getLsbD_zero

theorem shiftLeft_mask (size : BitVec 64) (hk : k ≠ 0) (hk' : k ≤ 64) :
    (size <<< (64 - k)) &&& (1#64 <<< (zendMmNumBuckets - 1)) = 0 ↔
      size.toNat.testBit (k - 1) = false := by
  have hbit : (size <<< (64 - k)).getLsbD 63 = size.toNat.testBit (k - 1) := by
    rw [BitVec.getLsbD_shiftLeft, BitVec.testBit_toNat, show 63 - (64 - k) = k - 1 by omega]
    simp
    omega
  rw [← hbit]
  generalize size <<< (64 - k) = x
  constructor
  · intro h
    have h63 := congrArg (fun y : BitVec 64 => y.getLsbD 63) h
    simpa [zendMmNumBuckets] using h63
  · intro h
    apply BitVec.eq_of_getLsbD_eq
    intro i hi
    rw [BitVec.getLsbD_and, getLsbD_of_zero]
    by_cases hi63 : i = 63
    · rw [hi63, h, Bool.false_and]
    · have hmask : (1#64 <<< (zendMmNumBuckets - 1)).getLsbD i = false := by
        rw [BitVec.getLsbD_shiftLeft, zendMmNumBuckets, decide_eq_true (by omega : i < 64 - 1)]
        simp
      rw [hmask, Bool.and_false]

theorem shiftLeft_next (size : BitVec 64) (hk : k ≠ 0) (hk' : k ≤ 64) :
    (size <<< (64 - k)) <<< 1 = size <<< (64 - (k - 1)) := by
  rw [← BitVec.shiftLeft_add]
  congr 1
  omega

theorem lowBitLoop_spec (fuel : ℕ) (size : BitVec 64) (index : ℕ) (h : size.toNat < 16 ^ fuel)
    (hne : size ≠ 0) : ∃ r, lowBitLoop fuel size index = index + r ∧ size.getLsbD r = true ∧
      ∀ j < r, size.getLsbD j = false := by
  induction fuel generalizing size index with
  | zero =>
    have h0 : size = 0 := by
      apply BitVec.eq_of_toNat_eq
      simpa using h
    exact absurd h0 hne
  | succ fuel ih =>
    -- the four lowest bits decide, unless all of them are clear
    have hlow : ∀ j < 4, size.getLsbD j = (size &&& 15).getLsbD j := by
      intro j hj
      have h15 : (15 : BitVec 64).getLsbD j = true := by
        have : ∀ j < 4, (15 : BitVec 64).getLsbD j = true := by decide
        exact this j hj
      rw [BitVec.getLsbD_and, h15, Bool.and_true]
    have hlt : (size &&& 15).toNat < 16 := by
      rw [BitVec.toNat_and]
      exact Nat.lt_of_le_of_lt Nat.and_le_right (by decide)
    have htable : ∀ y : BitVec 64, y.toNat < 16 →
        (y = 0 ∧ lowBitOffset.getD y.toNat 0 = 4) ∨
        (lowBitOffset.getD y.toNat 0 < 4 ∧ y.getLsbD (lowBitOffset.getD y.toNat 0) = true ∧
          ∀ j < lowBitOffset.getD y.toNat 0, y.getLsbD j = false) := by
      intro y hy
      have hall : ∀ n < 16, (BitVec.ofNat 64 n = 0 ∧ lowBitOffset.getD n 0 = 4) ∨
          (lowBitOffset.getD n 0 < 4 ∧
            (BitVec.ofNat 64 n).getLsbD (lowBitOffset.getD n 0) = true ∧
            ∀ j < lowBitOffset.getD n 0, (BitVec.ofNat 64 n).getLsbD j = false) := by decide
      have hy' := hall y.toNat hy
      rwa [BitVec.ofNat_toNat, BitVec.setWidth_eq] at hy'
    unfold lowBitLoop
    rcases htable _ hlt with ⟨hzero, hn⟩ | ⟨hn, hbit, hbelow⟩
    · simp only [hn, if_true]
      have hshift : (size >>> 4).toNat = size.toNat / 16 := by
        rw [BitVec.toNat_ushiftRight, Nat.shiftRight_eq_div_pow]
      have hclear : ∀ j < 4, size.getLsbD j = false := by
        intro j hj
        rw [hlow j hj, hzero]
        exact getLsbD_of_zero j
      have hne' : size >>> 4 ≠ 0 := by
        intro h0
        apply hne
        apply BitVec.eq_of_getLsbD_eq
        intro j hj
        by_cases hj4 : j < 4
        · rw [hclear j hj4]
          exact (getLsbD_of_zero j).symm
        · have hb := congrArg (fun y : BitVec 64 => y.getLsbD (j - 4)) h0
          simp only [BitVec.getLsbD_ushiftRight] at hb
          rw [show 4 + (j - 4) = j by omega] at hb
          rw [hb, getLsbD_of_zero, getLsbD_of_zero]
      obtain ⟨r, hr, hbit, hbelow⟩ := ih (size >>> 4) (index + 4) (by
        rw [hshift]
        rw [Nat.pow_succ] at h
        omega) hne'
      refine ⟨r + 4, by rw [hr]; omega, ?_, ?_⟩
      · rw [BitVec.getLsbD_ushiftRight] at hbit
        rw [Nat.add_comm r 4]
        exact hbit
      · intro j hj
        by_cases hj4 : j < 4
        · exact hclear j hj4
        · have hb := hbelow (j - 4) (by omega)
          rw [BitVec.getLsbD_ushiftRight, show 4 + (j - 4) = j by omega] at hb
          exact hb
    · have hn4 : lowBitOffset.getD (size &&& 15).toNat 0 ≠ 4 := by omega
      simp only [hn4, if_false]
      refine ⟨_, rfl, ?_, ?_⟩
      · rw [hlow _ hn]
        exact hbit
      · intro j hj
        rw [hlow j (by omega)]
        exact hbelow j hj

theorem zendMmLowBit_spec (h : size ≠ 0) :
    size.getLsbD (zendMmLowBit size) = true ∧
      ∀ j < zendMmLowBit size, size.getLsbD j = false := by
  obtain ⟨r, hr, hbit, hbelow⟩ := lowBitLoop_spec 16 size 0 size.isLt h
  unfold zendMmLowBit
  rw [hr, Nat.zero_add]
  exact ⟨hbit, hbelow⟩

end Php53.Zend
