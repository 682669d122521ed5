import Php53.Zend.Alloc.Runs
import Php53.Zend.Alloc.Search

/-!
# BestFit — when the search for a large block finds the smallest one that fits

The search never fails, and it finds a block exactly when one fits.  It is meant to find a smallest
one, but its two walks turn to the right child where the smaller blocks are on the left, so that
below the root of the subtree they walk through they only see blocks larger than some they miss.
-/

open Reasoning Reasoning.BitTrie

namespace Php53.Zend.MmHeap

variable {B : Type}

variable {b x : B} {j : ℕ}

def Fits (h : MmHeap B) (S : Set B) (trueSize : BitVec 64) (b : B) : Prop :=
  b ∈ S ∧ zendMmSmallSize (h.size b) = false ∧ trueSize ≤ h.size b

/-- What a best fit search returns: nothing if nothing fits, and else a smallest block that does. -/
structure BestFit (h : MmHeap B) (S : Set B) (trueSize : BitVec 64) (r : Option (FreePtr B)) :
    Prop where
  none_iff : r = none ↔ ∀ b, ¬ h.Fits S trueSize b
  smallest : ∀ q, r = some q → ∃ b, q = .block b ∧ h.Fits S trueSize b ∧
    ∀ x, h.Fits S trueSize x → h.size b ≤ h.size x

/-- The nodes that the search sees before its walks turn right for the first time: those on the way
    of the size through its own trie, the root of the last right subtree left aside, and the roots
    of the tries of larger sizes. -/
def Met (h : MmHeap B) (tries : ℕ → BitTrie B) (trueSize : BitVec 64) (x : B) : Prop :=
  let i := zendMmLargeBucketIndex trueSize
  x ∈ way h.key trueSize.toNat i (tries i) ∨
    (aside h.key trueSize.toNat i (tries i) .empty).root? = some x ∨
    ∃ j, i < j ∧ (tries j).root? = some x

def SmallestMet (h : MmHeap B) (S : Set B) (tries : ℕ → BitTrie B) (trueSize : BitVec 64) : Prop :=
  (∃ b, h.Fits S trueSize b) → ∃ x, h.Met tries trueSize x ∧ h.Fits S trueSize x ∧
    ∀ y, h.Fits S trueSize y → h.size x ≤ h.size y

variable {h : MmHeap B} {S : Set B} {tries : ℕ → BitTrie B} {smalls : ℕ → List B}
variable {trueSize : BitVec 64}

theorem InLarge.bounds {i : ℕ} (hb : h.InLarge i b) :
    2 ^ i ≤ h.key b ∧ h.key b < 2 ^ (i + 1) := by
  have hdiv := hb.div_eq
  have hpos : 0 < 2 ^ i := Nat.two_pow_pos i
  constructor
  · have := Nat.div_mul_le_self (h.key b) (2 ^ i)
    rw [hdiv] at this
    omega
  · have := Nat.lt_mul_div_succ (h.key b) hpos
    rw [hdiv] at this
    rw [Nat.pow_succ]
    omega

theorem size_bounds (hn : trueSize ≠ 0) : 2 ^ zendMmLargeBucketIndex trueSize ≤ trueSize.toNat ∧
    trueSize.toNat < 2 ^ (zendMmLargeBucketIndex trueSize + 1) := by
  have hne : trueSize.toNat ≠ 0 := fun he => hn (BitVec.eq_of_toNat_eq he)
  unfold zendMmLargeBucketIndex
  rw [zendMmHighBit_eq hn]
  exact ⟨Nat.log2_self_le hne, Nat.lt_log2_self⟩

theorem InLarge.lt_of_index_lt {i : ℕ} (hb : h.InLarge i b) (hx : h.InLarge j x) (hij : i < j)
    : h.size b < h.size x := by
  rw [BitVec.lt_def]
  have h1 := hb.bounds.2
  have h2 := hx.bounds.1
  have h3 : 2 ^ (i + 1) ≤ 2 ^ j := Nat.pow_le_pow_right (by decide) hij
  exact Nat.lt_of_lt_of_le h1 (Nat.le_trans h3 h2)

theorem InLarge.fits_of_lt (hb : h.InLarge j b) (hn : trueSize ≠ 0)
    (hj : zendMmLargeBucketIndex trueSize < j) : trueSize ≤ h.size b := by
  rw [BitVec.le_def]
  have h1 := (size_bounds hn).2
  have h2 := hb.bounds.1
  have h3 : 2 ^ (zendMmLargeBucketIndex trueSize + 1) ≤ 2 ^ j :=
    Nat.pow_le_pow_right (by decide) hj
  exact Nat.le_of_lt (Nat.lt_of_lt_of_le h1 (Nat.le_trans h3 h2))

theorem InLarge.index_le_of_fits (hb : h.InLarge j b) (hn : trueSize ≠ 0) (hf : trueSize ≤ h.size b)
    : zendMmLargeBucketIndex trueSize ≤ j := by
  by_contra hlt
  have h1 := (size_bounds hn).1
  have h2 := hb.bounds.2
  have h3 : 2 ^ (j + 1) ≤ 2 ^ zendMmLargeBucketIndex trueSize :=
    Nat.pow_le_pow_right (by decide) (by omega)
  have h4 : trueSize.toNat ≤ h.key b := BitVec.le_def.mp hf
  omega

theorem FreeLists.fits_of_head (H : FreeLists h S tries smalls) (hx : x ∈ (tries j).heads)
    (hf : trueSize ≤ h.size x) : h.Fits S trueSize x := by
  obtain ⟨hS, hl⟩ := (H.mem_trie j x).mp (heads_subset _ hx)
  exact ⟨hS, hl.1, hf⟩

theorem FreeLists.next_of_head (H : FreeLists h S tries smalls) (hx : x ∈ (tries j).heads) :
    ∃ b, h.nextFreeBlock (.block x) = .block b ∧ b ∈ S ∧ h.size b = h.size x := by
  have hj : j < 64 := ((H.mem_trie j x).mp (heads_subset _ hx)).2.index_lt
  rw [heads_eq_map] at hx
  obtain ⟨c, hc, rfl⟩ := List.mem_map.mp hx
  have hm := ((H.ring j hj c hc).link_mem (x := FreePtr.block c.1) (by simp)).2.2.1
  obtain ⟨b, hb, he⟩ := List.mem_map.mp hm
  exact ⟨b, he.symm, ((H.ring_of_size hj hc).1 b).mp hb⟩

theorem FreeLists.empty_of_le (H : FreeLists h S tries smalls) (hj : 64 ≤ j) :
    tries j = .empty := by
  cases ht : tries j with
  | empty => rfl
  | node x rest left right =>
    have hx : x ∈ (tries j).blocks := by simp [ht]
    have hlt := ((H.mem_trie j x).mp hx).2.index_lt
    omega

def leftAside (h : MmHeap B) (tries : ℕ → BitTrie B) (trueSize : BitVec 64) : BitTrie B :=
  let i := zendMmLargeBucketIndex trueSize
  aside h.key trueSize.toNat i (tries i) .empty

def looked (h : MmHeap B) (tries : ℕ → BitTrie B) (trueSize : BitVec 64) : List B :=
  let i := zendMmLargeBucketIndex trueSize
  way h.key trueSize.toNat i (tries i) ++ (h.leftAside tries trueSize).spine

section

variable (H : FreeLists h S tries smalls)

include H

theorem FreeLists.leftAside_spec (hn : trueSize ≠ 0) :
    (∀ x ∈ (h.leftAside tries trueSize).heads,
      x ∈ (tries (zendMmLargeBucketIndex trueSize)).heads ∧ h.Fits S trueSize x) ∧
    (∀ x ∈ (h.leftAside tries trueSize).blocks, trueSize.toNat < h.key x) ∧
    (h.leftAside tries trueSize = .empty ∨
      ∃ q k pfx, k < 64 ∧ Rep h.slots h.parent q (h.leftAside tries trueSize) ∧
        Ordered h.key k pfx (h.leftAside tries trueSize)) := by
  have hilt : zendMmLargeBucketIndex trueSize < 64 := zendMmHighBit_lt hn
  have hdiv : trueSize.toNat / 2 ^ zendMmLargeBucketIndex trueSize = 1 := div_highBit hn
  have hord := H.ordered _ hilt
  unfold leftAside
  simp only
  rcases aside_cases hord hdiv .empty with he | ⟨-, hsub, hlt⟩
  · rw [he]
    exact ⟨by simp, by simp, Or.inl rfl⟩
  · refine ⟨?_, hlt, ?_⟩
    · intro x hx
      have hxt := hsub.heads_subset hx
      exact ⟨hxt, H.fits_of_head hxt (BitVec.le_def.mpr (Nat.le_of_lt
        (hlt x (heads_subset _ hx))))⟩
    · obtain ⟨q, hrep⟩ := rep_of_within hsub (H.stored _ hilt).rep
      obtain ⟨k, pfx, hk, ho⟩ := hsub.ordered hord
      exact Or.inr ⟨q, k, pfx, by omega, hrep, ho⟩

theorem FreeLists.looked_head (hn : trueSize ≠ 0) (hx : x ∈ h.looked tries trueSize) :
    x ∈ (tries (zendMmLargeBucketIndex trueSize)).heads := by
  rcases List.mem_append.mp hx with hx | hx
  · exact way_subset _ _ hx
  · exact ((H.leftAside_spec hn).1 x (spine_subset _ hx)).1

theorem FreeLists.none_fits (hn : trueSize ≠ 0)
    (hnone : ∀ x ∈ h.looked tries trueSize, ¬ trueSize ≤ h.size x) {y : B}
    (hy : y ∈ (tries (zendMmLargeBucketIndex trueSize)).blocks) : ¬ trueSize ≤ h.size y := by
  have hilt : zendMmLargeBucketIndex trueSize < 64 := zendMmHighBit_lt hn
  have hdiv : trueSize.toNat / 2 ^ zendMmLargeBucketIndex trueSize = 1 := div_highBit hn
  intro hfit
  have hmiss : ∀ x ∈ way h.key trueSize.toNat (zendMmLargeBucketIndex trueSize)
      (tries (zendMmLargeBucketIndex trueSize)), h.key x ≠ trueSize.toNat := by
    intro x hx he
    apply hnone x (List.mem_append_left _ hx)
    rw [BitVec.le_def]
    exact Nat.le_of_eq he.symm
  rcases way_or_aside (H.ordered _ hilt) hdiv hmiss .empty hy (BitVec.le_def.mp hfit) with
    ⟨x, hx, hkey⟩ | ⟨hne, -⟩
  · apply hnone x (List.mem_append_left _ hx)
    rw [size_eq_iff.mpr hkey]
    exact hfit
  · -- the root of the subtree left aside would fit
    obtain ⟨x, hroot⟩ : ∃ x, (h.leftAside tries trueSize).root? = some x := by
      apply Option.ne_none_iff_exists'.mp
      exact fun he => hne (root?_eq_none.mp he)
    have hxf := ((H.leftAside_spec hn).1 x (root?_mem hroot)).2
    exact hnone x (List.mem_append_right _ (root?_mem_spine hroot)) hxf.2.2

theorem FreeLists.searchSmallest_eq {index : ℕ} {bitmap : BitVec 64}
    (hb : ∀ j, bitmap.getLsbD j = h.largeFreeBitmap.getLsbD (index + j)) (hne : bitmap ≠ 0) :
    ∃ j x, index ≤ j ∧ (∀ i, index ≤ i → i < j → tries i = .empty) ∧ x ∈ (tries j).spine ∧
      (∀ y ∈ (tries j).spine, h.size x ≤ h.size y) ∧
      h.searchSmallest index bitmap = some (some (h.nextFreeBlock (.block x))) := by
  obtain ⟨hbit, hbelow⟩ := zendMmLowBit_spec hne
  rw [hb] at hbit
  have hlt : index + zendMmLowBit bitmap < 64 := by
    by_contra hge
    rw [BitVec.getLsbD_of_ge _ _ (Nat.le_of_not_lt hge)] at hbit
    exact nomatch hbit
  have hemp : tries (index + zendMmLowBit bitmap) ≠ .empty := (H.largeBitmap _ hlt).mp hbit
  obtain ⟨x, hroot⟩ : ∃ x, (tries (index + zendMmLowBit bitmap)).root? = some x := by
    apply Option.ne_none_iff_exists'.mp
    exact fun he => hemp (root?_eq_none.mp he)
  have hrep := (H.stored _ hlt).rep
  obtain ⟨y, hloop, hy, hyx, hmin⟩ := smallestLoop_eq hrep hroot (H.ordered _ hlt)
    (show _ < zendMmNumBuckets + 1 by unfold zendMmNumBuckets; omega) x (BitVec.le_refl _)
  refine ⟨_, y, Nat.le_add_right _ _, ?_, ?_, hmin, ?_⟩
  · intro i hi hij
    have hclear := hbelow (i - index) (by omega)
    rw [hb, show index + (i - index) = i by omega] at hclear
    by_contra hni
    rw [(H.largeBitmap i (by omega)).mpr hni] at hclear
    exact nomatch hclear
  · rcases hy with rfl | hy
    · exact root?_mem_spine hroot
    · exact hy
  · unfold searchSmallest
    rw [slot_eq_root? hrep, hroot]
    simp only [hloop]
    rfl

theorem FreeLists.empty_of_bitmap {index : ℕ} {bitmap : BitVec 64}
    (hb : ∀ j, bitmap.getLsbD j = h.largeFreeBitmap.getLsbD (index + j)) (hzero : bitmap = 0)
    (hj : index ≤ j) : tries j = .empty := by
  by_cases hlt : j < 64
  · by_contra hne
    have hbit := (H.largeBitmap j hlt).mpr hne
    rw [show j = index + (j - index) by omega, ← hb, hzero, getLsbD_of_zero] at hbit
    exact nomatch hbit
  · exact H.empty_of_le (Nat.le_of_not_lt hlt)

end

/-- The three ways a search ends. -/
inductive Outcome (h : MmHeap B) (tries : ℕ → BitTrie B) (trueSize : BitVec 64) :
    Option (FreePtr B) → Prop
  /-- the best block of those looked at in its own trie -/
  | own (x : B) : x ∈ h.looked tries trueSize → trueSize ≤ h.size x →
      (∀ y ∈ h.looked tries trueSize, trueSize ≤ h.size y → h.size x ≤ h.size y) →
      Outcome h tries trueSize (some (h.nextFreeBlock (.block x)))
  /-- nothing there, the best block of the spine of the next trie -/
  | higher (x : B) (j : ℕ) : (∀ y ∈ h.looked tries trueSize, ¬ trueSize ≤ h.size y) →
      zendMmLargeBucketIndex trueSize < j →
      (∀ i, zendMmLargeBucketIndex trueSize < i → i < j → tries i = .empty) →
      x ∈ (tries j).spine → (∀ y ∈ (tries j).spine, h.size x ≤ h.size y) →
      Outcome h tries trueSize (some (h.nextFreeBlock (.block x)))
  /-- nothing at all -/
  | nothing : (∀ y ∈ h.looked tries trueSize, ¬ trueSize ≤ h.size y) →
      (∀ j, zendMmLargeBucketIndex trueSize < j → tries j = .empty) →
      Outcome h tries trueSize none

theorem looked_of_empty (he : tries (zendMmLargeBucketIndex trueSize) = .empty) :
    h.looked tries trueSize = [] := by
  unfold looked leftAside
  simp only [he]
  rfl

theorem FreeLists.search_outcome (H : FreeLists h S tries smalls)
    (halign : ∀ b ∈ S, h.size b ≠ -1) (hn : trueSize ≠ 0) :
    ∃ r, h.zendMmSearchLargeBlock trueSize = some r ∧ Outcome h tries trueSize r := by
  have hilt : zendMmLargeBucketIndex trueSize < 64 := zendMmHighBit_lt hn
  have hdiv : trueSize.toNat / 2 ^ zendMmLargeBucketIndex trueSize = 1 := div_highBit hn
  have hbits : ∀ j, (h.largeFreeBitmap >>> zendMmLargeBucketIndex trueSize).getLsbD j =
      h.largeFreeBitmap.getLsbD (zendMmLargeBucketIndex trueSize + j) :=
    fun j => BitVec.getLsbD_ushiftRight ..
  have hone : h.largeFreeBitmap >>> zendMmLargeBucketIndex trueSize &&& 1 ≠ 0 ↔
      tries (zendMmLargeBucketIndex trueSize) ≠ .empty := by
    rw [← H.largeBitmap _ hilt]
    have h0 := hbits 0
    rw [Nat.add_zero] at h0
    rw [← h0]
    generalize h.largeFreeBitmap >>> zendMmLargeBucketIndex trueSize = x
    constructor
    · intro hx
      by_contra hb
      apply hx
      apply BitVec.eq_of_getLsbD_eq
      intro j hj
      rw [BitVec.getLsbD_and, getLsbD_of_zero]
      cases j with
      | zero => simpa using hb
      | succ j => simp
    · intro hb hx
      have hx0 := congrArg (fun y : BitVec 64 => y.getLsbD 0) hx
      simp only [BitVec.getLsbD_and, hb, Bool.true_and, getLsbD_of_zero] at hx0
      exact absurd hx0 (by decide)
  have hlooked : ∀ x ∈ h.looked tries trueSize, h.size x ≠ -1 := fun x hx =>
    halign x ((H.mem_trie _ x).mp (heads_subset _ (H.looked_head hn hx))).1
  unfold zendMmSearchLargeBlock
  simp only
  rw [if_neg (by unfold zendMmNumBuckets; omega)]
  by_cases hzero : h.largeFreeBitmap >>> zendMmLargeBucketIndex trueSize = 0
  · rw [if_pos hzero]
    have hempty := fun j hj => H.empty_of_bitmap hbits hzero (j := j) hj
    refine ⟨none, rfl, Outcome.nothing ?_ fun j hj => hempty j (Nat.le_of_lt hj)⟩
    rw [looked_of_empty (hempty _ (Nat.le_refl _))]
    simp
  · rw [if_neg hzero]
    by_cases hown : tries (zendMmLargeBucketIndex trueSize) = .empty
    · rw [if_neg fun hc => hone.mp hc hown]
      obtain ⟨j, x, hj, hbetween, hx, hmin, hsearch⟩ := H.searchSmallest_eq hbits hzero
      refine ⟨_, hsearch, Outcome.higher x j ?_ ?_ ?_ hx hmin⟩
      · rw [looked_of_empty hown]
        simp
      · by_contra hle
        have hji : j = zendMmLargeBucketIndex trueSize := by omega
        rw [hji, hown] at hx
        simp [spine] at hx
      · exact fun i hi hij => hbetween i (Nat.le_of_lt hi) hij
    · rw [if_pos (hone.mpr hown)]
      have hrep := (H.stored _ hilt).rep
      obtain ⟨p, hroot⟩ : ∃ p, (tries (zendMmLargeBucketIndex trueSize)).root? = some p := by
        apply Option.ne_none_iff_exists'.mp
        exact fun he => hown (root?_eq_none.mp he)
      rw [slot_eq_root? hrep, hroot]
      simp only
      rcases searchLoop_eq hrep hroot (H.ordered _ hilt) hdiv hilt
        (show _ < zendMmNumBuckets from hilt) .empty (-1, none) with ⟨y, hy, hys, hloop⟩ | ⟨hmiss, hloop⟩
      · -- a block of the very size
        change h.searchLoop trueSize zendMmNumBuckets
          (trueSize <<< (zendMmNumBuckets - zendMmLargeBucketIndex trueSize)) p none (-1, none) =
          _ at hloop
        rw [hloop]
        refine ⟨_, rfl, Outcome.own y (List.mem_append_left _ hy) ?_ ?_⟩
        · rw [hys]
          exact BitVec.le_refl _
        · intro z _ hz
          rw [hys]
          exact hz
      · change h.searchLoop trueSize zendMmNumBuckets
          (trueSize <<< (zendMmNumBuckets - zendMmLargeBucketIndex trueSize)) p none (-1, none) =
          some (.inr ((h.leftAside tries trueSize).root?, _)) at hloop
        rw [hloop]
        obtain ⟨hheads, hlt, hrest⟩ := H.leftAside_spec hn
        have hrestLoop : ∀ best, h.restLoop trueSize (zendMmNumBuckets + 1)
            (h.leftAside tries trueSize).root? best =
            some (.inr ((h.leftAside tries trueSize).spine.foldl (h.pick trueSize) best)) := by
          intro best
          rcases hrest with he | ⟨q, k, pfx, hk, hrepq, hordq⟩
          · rw [he]
            rfl
          · apply restLoop_eq hrepq hordq hlt
            unfold zendMmNumBuckets
            omega
        rw [Option.bind_some]
        simp only [hrestLoop, Option.bind_some]
        rw [← List.foldl_append]
        have hstart : IsBest h trueSize [] (-1, none) := ⟨rfl, by simp⟩
        have hbest := hstart.foldl hlooked
        rw [List.nil_append, looked] at hbest
        generalize List.foldl (h.pick trueSize) (-1, none) _ = best at hbest ⊢
        obtain ⟨size, fit⟩ := best
        cases fit with
        | some x => exact ⟨_, rfl, Outcome.own x hbest.1 hbest.2.2.1 hbest.2.2.2⟩
        | none =>
          simp only
          have hbits' : ∀ j, (h.largeFreeBitmap >>> zendMmLargeBucketIndex trueSize >>> 1).getLsbD j =
              h.largeFreeBitmap.getLsbD (zendMmLargeBucketIndex trueSize + 1 + j) := by
            intro j
            rw [BitVec.getLsbD_ushiftRight, hbits, Nat.add_assoc]
          by_cases hzero' : h.largeFreeBitmap >>> zendMmLargeBucketIndex trueSize >>> 1 = 0
          · rw [if_pos hzero']
            exact ⟨none, rfl, Outcome.nothing hbest.2
              fun j hj => H.empty_of_bitmap hbits' hzero' hj⟩
          · rw [if_neg hzero']
            obtain ⟨j, x, hj, hbetween, hx, hmin, hsearch⟩ := H.searchSmallest_eq hbits' hzero'
            exact ⟨_, hsearch, Outcome.higher x j hbest.2 hj
              (fun i hi hij => hbetween i hi hij) hx hmin⟩

theorem FreeLists.found_fits (H : FreeLists h S tries smalls) (hx : x ∈ (tries j).heads)
    (hf : trueSize ≤ h.size x) :
    (some (h.nextFreeBlock (.block x)) = none ↔ ∀ b, ¬ h.Fits S trueSize b) ∧
      ∀ q, some (h.nextFreeBlock (.block x)) = some q → ∃ b, q = .block b ∧ h.Fits S trueSize b := by
  obtain ⟨b, hb, hbS, hbs⟩ := H.next_of_head hx
  have hxf := H.fits_of_head hx hf
  constructor
  · constructor
    · exact fun he => by cases he
    · exact fun hnone => absurd hxf (hnone x)
  · intro q hq
    refine ⟨b, (Option.some.inj hq).symm.trans hb, hbS, ?_, ?_⟩
    · rw [hbs]
      exact hxf.2.1
    · rw [hbs]
      exact hf

theorem FreeLists.bestFit_iff (H : FreeLists h S tries smalls) (hx : x ∈ (tries j).heads)
    (hf : trueSize ≤ h.size x) :
    BestFit h S trueSize (some (h.nextFreeBlock (.block x))) ↔
      ∀ y, h.Fits S trueSize y → h.size x ≤ h.size y := by
  have hsome := (H.found_fits hx hf).1
  obtain ⟨b, hb, hbS, hbs⟩ := H.next_of_head hx
  have hxf := H.fits_of_head hx hf
  rw [hb] at hsome ⊢
  constructor
  · intro hbest
    obtain ⟨b', he, -, hmin⟩ := hbest.smallest _ rfl
    obtain rfl := FreePtr.block.inj he
    rw [← hbs]
    exact hmin
  · intro hmin
    refine ⟨hsome, fun q hq => ?_⟩
    obtain rfl := Option.some.inj hq
    refine ⟨b, rfl, ⟨hbS, ?_, ?_⟩, ?_⟩
    · rw [hbs]
      exact hxf.2.1
    · rw [hbs]
      exact hf
    · rw [hbs]
      exact hmin

theorem root_of_least {t : BitTrie B} {k pfx : ℕ} (hord : Ordered h.key k pfx t) (hx : x ∈ t.spine)
    (hfits : ∀ z ∈ t.heads, h.Fits S trueSize z)
    (hmin : ∀ y, h.Fits S trueSize y → h.size x ≤ h.size y) : t.root? = some x := by
  by_contra hroot
  obtain ⟨z, hz, hlt⟩ := hord.exists_lt_spine hx hroot
  have hle := BitVec.le_def.mp (hmin z (hfits z hz))
  exact absurd hlt (Nat.not_lt.mpr hle)

theorem FreeLists.not_fits (H : FreeLists h S tries smalls) (hn : trueSize ≠ 0)
    (hnone : ∀ y ∈ h.looked tries trueSize, ¬ trueSize ≤ h.size y) (hb : h.Fits S trueSize b) :
    ∃ j, zendMmLargeBucketIndex trueSize < j ∧ b ∈ (tries j).blocks := by
  have hbl : h.InLarge (zendMmLargeBucketIndex (h.size b)) b := ⟨hb.2.1, rfl⟩
  have hbt := (H.mem_trie _ b).mpr ⟨hb.1, hbl⟩
  refine ⟨_, ?_, hbt⟩
  have hle := hbl.index_le_of_fits hn hb.2.2
  by_contra hge
  have he : zendMmLargeBucketIndex (h.size b) = zendMmLargeBucketIndex trueSize := by omega
  rw [he] at hbt
  exact H.none_fits hn hnone hbt hb.2.2

/-- However the search ends, it has found a block that fits if there is one. -/
theorem FreeLists.outcome_fits (H : FreeLists h S tries smalls) (hn : trueSize ≠ 0)
    {r : Option (FreePtr B)} (hout : Outcome h tries trueSize r) :
    (r = none ↔ ∀ b, ¬ h.Fits S trueSize b) ∧
      ∀ q, r = some q → ∃ b, q = .block b ∧ h.Fits S trueSize b := by
  cases hout with
  | own x hx hf => exact H.found_fits (H.looked_head hn hx) hf
  | higher x j _ hj _ hx =>
    have hxh := spine_subset _ hx
    exact H.found_fits hxh (((H.mem_trie j x).mp (heads_subset _ hxh)).2.fits_of_lt hn hj)
  | nothing hnone hempty =>
    have hno : ∀ b, ¬ h.Fits S trueSize b := by
      intro b hb
      obtain ⟨j, hj, hbt⟩ := H.not_fits hn hnone hb
      rw [hempty j hj] at hbt
      simp at hbt
    exact ⟨⟨fun _ => hno, fun _ => rfl⟩, fun q hq => by cases hq⟩

theorem size_ne_of_aligned (halign : ∀ b ∈ S, zendMmAlignedSize (h.size b) = h.size b) :
    ∀ b ∈ S, h.size b ≠ -1 := by
  intro b hb he
  have hb' := halign b hb
  rw [he] at hb'
  exact absurd hb' (by decide)

/-- The search never fails and returns a block that fits whenever there is one.  The block is a
    smallest one if and only if a smallest one is met before the walks turn right. -/
theorem search_is_best_fit (H : FreeLists h S tries smalls)
    (halign : ∀ b ∈ S, zendMmAlignedSize (h.size b) = h.size b) (hn : trueSize ≠ 0) :
    ∃ r, h.zendMmSearchLargeBlock trueSize = some r ∧
      (r = none ↔ ∀ b, ¬ h.Fits S trueSize b) ∧
      (∀ q, r = some q → ∃ b, q = .block b ∧ h.Fits S trueSize b) ∧
      (BestFit h S trueSize r ↔ SmallestMet h S tries trueSize) := by
  obtain ⟨r, hr, hout⟩ := H.search_outcome (size_ne_of_aligned halign) hn
  have hfits := H.outcome_fits hn hout
  refine ⟨r, hr, hfits.1, hfits.2, ?_⟩
  cases hout with
  | own x hx hf hmin =>
    have hxh := H.looked_head hn hx
    have hxl := ((H.mem_trie _ x).mp (heads_subset _ hxh)).2
    rw [H.bestFit_iff hxh hf]
    constructor
    · intro hall _
      refine ⟨x, ?_, H.fits_of_head hxh hf, hall⟩
      rcases List.mem_append.mp hx with hw | hs
      · exact Or.inl hw
      · right
        left
        rcases (H.leftAside_spec hn).2.2 with he | ⟨q, k, pfx, -, -, hord⟩
        · rw [he] at hs
          simp [spine] at hs
        · exact root_of_least hord hs (fun z hz => ((H.leftAside_spec hn).1 z hz).2) hall
    · intro hmet
      obtain ⟨x', hm, hf', hall⟩ := hmet ⟨x, H.fits_of_head hxh hf⟩
      -- a smallest block met on the way or as the root left aside is among those looked at
      have hle : h.size x ≤ h.size x' := by
        rcases hm with hw | hroot | ⟨j, hj, hroot⟩
        · exact hmin x' (List.mem_append_left _ hw) hf'.2.2
        · exact hmin x' (List.mem_append_right _ (root?_mem_spine hroot)) hf'.2.2
        · have hl' := ((H.mem_trie j x').mp (heads_subset _ (root?_mem hroot))).2
          exact BitVec.le_of_lt (hxl.lt_of_index_lt hl' hj)
      exact fun y hy => BitVec.le_trans hle (hall y hy)
  | higher x j hnone hj hbetween hx hmin =>
    have hxh := spine_subset _ hx
    have hxl := ((H.mem_trie j x).mp (heads_subset _ hxh)).2
    have hf := hxl.fits_of_lt hn hj
    rw [H.bestFit_iff hxh hf]
    constructor
    · intro hall _
      refine ⟨x, Or.inr (Or.inr ⟨j, hj, ?_⟩), H.fits_of_head hxh hf, hall⟩
      apply root_of_least (H.ordered j hxl.index_lt) hx _ hall
      intro z hz
      have hzl := ((H.mem_trie j z).mp (heads_subset _ hz)).2
      exact H.fits_of_head hz (hzl.fits_of_lt hn hj)
    · intro hmet
      obtain ⟨x', hm, hf', hall⟩ := hmet ⟨x, H.fits_of_head hxh hf⟩
      have hle : h.size x ≤ h.size x' := by
        rcases hm with hw | hroot | ⟨j', hj', hroot⟩
        · exact absurd hf'.2.2 (hnone x' (List.mem_append_left _ hw))
        · exact absurd hf'.2.2 (hnone x' (List.mem_append_right _ (root?_mem_spine hroot)))
        · by_cases hjj : j' = j
          · rw [hjj] at hroot
            exact hmin x' (root?_mem_spine hroot)
          · have hlt : j < j' := by
              by_contra hge
              have hemp := hbetween j' hj' (by omega)
              rw [hemp] at hroot
              cases hroot
            have hl' := ((H.mem_trie j' x').mp (heads_subset _ (root?_mem hroot))).2
            exact BitVec.le_of_lt (hxl.lt_of_index_lt hl' hlt)
      exact fun y hy => BitVec.le_trans hle (hall y hy)
  | nothing hnone hempty =>
    constructor
    · rintro - ⟨b, hb⟩
      exact absurd hb (hfits.1.mp rfl b)
    · exact fun _ => ⟨hfits.1, fun q hq => by cases hq⟩

theorem search_sample : ∃ h, Run mmStep MmPermitted (sampleHeap.zendMmInit, ∅)
    ([] ++ [MmOp.add 1] ++ [MmOp.add 2]) (h, (insert 2 (insert 1 ∅) : Set ℕ)) ∧
    h.size 1 = 2000 ∧ h.size 2 = 1104 ∧ h.zendMmSearchLargeBlock 600 = some (some (.block 1)) := by
  refine ⟨_, Run.snoc (t := (_, _)) (Run.snoc (Run.nil _) ?_ rfl) ?_ rfl, rfl, rfl, ?_⟩
  · exact ⟨by simp, by decide⟩
  · exact ⟨by simp, by decide⟩
  · decide +kernel

theorem aligned_sample {h : MmHeap ℕ} (h1 : h.size 1 = 2000) (h2 : h.size 2 = 1104) :
    ∀ b ∈ (insert 2 (insert 1 ∅) : Set ℕ), zendMmAlignedSize (h.size b) = h.size b := by
  intro b hb
  rcases hb with rfl | rfl | hb
  · rw [h2]
    decide
  · rw [h1]
    decide
  · exact absurd hb (Set.notMem_empty b)

theorem search_is_best_fit_sample : ∃ (h : MmHeap ℕ) (S : Set ℕ) (tries : ℕ → BitTrie ℕ)
    (r : Option (FreePtr ℕ)), h.zendMmSearchLargeBlock 600 = some r ∧
      (BestFit h S 600 r ↔ SmallestMet h S tries 600) := by
  obtain ⟨h, hrun, h1, h2, -⟩ := search_sample
  obtain ⟨tries, smalls, H⟩ := freeLists_of_run hrun
  obtain ⟨r, hr, -, -, hiff⟩ := search_is_best_fit H (aligned_sample h1 h2)
    (show (600 : BitVec 64) ≠ 0 by decide)
  exact ⟨h, _, tries, r, hr, hiff⟩

theorem search_misses_the_smallest : ¬ ∀ (h : MmHeap ℕ) (S : Set ℕ) (tries : ℕ → BitTrie ℕ)
    (smalls : ℕ → List ℕ) (trueSize : BitVec 64), FreeLists h S tries smalls →
    (∀ b ∈ S, zendMmAlignedSize (h.size b) = h.size b) → trueSize ≠ 0 →
    ∃ r, h.zendMmSearchLargeBlock trueSize = some r ∧ BestFit h S trueSize r := by
  intro hclaim
  obtain ⟨h, hrun, h1, h2, hsearch⟩ := search_sample
  obtain ⟨tries, smalls, H⟩ := freeLists_of_run hrun
  obtain ⟨r, hr, hbest⟩ := hclaim h _ tries smalls 600 H (aligned_sample h1 h2) (by decide)
  obtain rfl := Option.some.inj (hsearch.symm.trans hr)
  obtain ⟨b, he, -, hmin⟩ := hbest.smallest _ rfl
  obtain rfl := FreePtr.block.inj he
  have hle := hmin 2 ⟨Set.mem_insert _ _, by rw [h2]; decide, by rw [h2]; decide⟩
  rw [h1, h2] at hle
  exact absurd hle (by decide)

end Php53.Zend.MmHeap
