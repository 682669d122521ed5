import Mathlib.Data.Set.Insert
import Php53.Reasoning.Ring
import Php53.Zend.Alloc.Surgery

/-!
# Invariant — what the free lists of a heap hold

`FreeLists h S tries smalls` says that the heap stores, in its 64 large buckets, the tries `tries i`
and, in its 64 small buckets, rings with the blocks `smalls i`, and that together these are the
blocks of `S`, each in the bucket of its size.  Every call changes one bucket, and `setLarge` and
`setSmall` are the two rules for that.
-/

open Reasoning Reasoning.BitTrie

namespace Php53.Zend.MmHeap

variable {B : Type} {h : MmHeap B} {b : B}

/-- The size of the block is one of large bucket `i`. -/
def InLarge (h : MmHeap B) (i : ℕ) (b : B) : Prop :=
  zendMmSmallSize (h.size b) = false ∧ zendMmLargeBucketIndex (h.size b) = i

/-- The size of the block is one of small bucket `i`. -/
def InSmall (h : MmHeap B) (i : ℕ) (b : B) : Prop :=
  zendMmSmallSize (h.size b) = true ∧ zendMmBucketIndex (h.size b) = i

/-- The free lists of the heap hold exactly the blocks of `S`. -/
structure FreeLists (h : MmHeap B) (S : Set B) (tries : ℕ → BitTrie B) (smalls : ℕ → List B) :
    Prop where
  minSize : ∀ b ∈ S, zendMmAlignedMinHeaderSize ≤ h.size b
  mem_trie : ∀ i b, b ∈ (tries i).blocks ↔ b ∈ S ∧ h.InLarge i b
  stored : ∀ i < 64, Stored h.slots h.parent (.root i) (tries i)
  ordered : ∀ i < 64, Ordered h.key i 1 (tries i)
  ring : ∀ i < 64, ∀ c ∈ (tries i).rings,
    Ring h.nextFreeBlock h.prevFreeBlock ((c.1 :: c.2).map .block)
  largeBitmap : ∀ i < 64, h.largeFreeBitmap.getLsbD i = true ↔ tries i ≠ .empty
  mem_small : ∀ i b, b ∈ smalls i ↔ b ∈ S ∧ h.InSmall i b
  smallRing : ∀ i < 64,
    Ring h.nextFreeBlock h.prevFreeBlock (.smallFreeBucket i :: (smalls i).map .block)
  smallBitmap : ∀ i < 64, h.freeBitmap.getLsbD i = true ↔ smalls i ≠ []

theorem InLarge.index_unique {i j : ℕ} (hi : h.InLarge i b)
    (hj : h.InLarge j b) : i = j := hi.2.symm.trans hj.2

theorem InSmall.not_large {i j : ℕ} (hi : h.InSmall i b) :
    ¬ h.InLarge j b := fun hj => Bool.noConfusion (hi.1.symm.trans hj.1)

theorem InLarge.index_lt {i : ℕ} (hb : h.InLarge i b) : i < 64 := by
  rw [← hb.2]
  exact zendMmHighBit_lt (ne_zero_of_large hb.1)

theorem InLarge.div_eq {i : ℕ} (hb : h.InLarge i b) :
    h.key b / 2 ^ i = 1 := by
  rw [← hb.2]
  exact div_highBit (ne_zero_of_large hb.1)

theorem FreeLists.small_lt {S : Set B} {tries : ℕ → BitTrie B} {smalls : ℕ → List B}
    (H : FreeLists h S tries smalls) {i : ℕ} (hb : b ∈ S) (hs : h.InSmall i b) : i < 64 := by
  rw [← hs.2]
  exact zendMmBucketIndex_lt hs.1 (H.minSize b hb)

variable {h h' : MmHeap B} {S S' : Set B} {tries : ℕ → BitTrie B} {smalls : ℕ → List B} {i : ℕ}

/-- The heaps agree on themselves and on the blocks of `S`; other blocks belong to somebody else,
    who writes to them what he likes. -/
structure AgreesOn (S : Set B) (h h' : MmHeap B) : Prop where
  freeBitmap : h'.freeBitmap = h.freeBitmap
  largeFreeBitmap : h'.largeFreeBitmap = h.largeFreeBitmap
  root : ∀ i, h'.slots (.root i) = h.slots (.root i)
  child : ∀ b ∈ S, ∀ side, h'.slots (.child b side) = h.slots (.child b side)
  parent : ∀ b ∈ S, h'.parent b = h.parent b
  nextBucket : ∀ i, h'.nextFreeBlock (.smallFreeBucket i) = h.nextFreeBlock (.smallFreeBucket i)
  prevBucket : ∀ i, h'.prevFreeBlock (.smallFreeBucket i) = h.prevFreeBlock (.smallFreeBucket i)
  next : ∀ b ∈ S, h'.nextFreeBlock (.block b) = h.nextFreeBlock (.block b)
  prev : ∀ b ∈ S, h'.prevFreeBlock (.block b) = h.prevFreeBlock (.block b)
  size : ∀ b ∈ S, h'.size b = h.size b

theorem AgreesOn.inLarge_iff (ha : AgreesOn S h h') (hb : b ∈ S) :
    h'.InLarge i b ↔ h.InLarge i b := by
  unfold InLarge
  rw [ha.size b hb]

theorem AgreesOn.inSmall_iff (ha : AgreesOn S h h') (hb : b ∈ S) :
    h'.InSmall i b ↔ h.InSmall i b := by
  unfold InSmall
  rw [ha.size b hb]

theorem FreeLists.congr (H : FreeLists h S tries smalls) (ha : AgreesOn S h h') :
    FreeLists h' S tries smalls := by
  have hmem : ∀ {i b}, b ∈ (tries i).blocks → b ∈ S := fun hb => ((H.mem_trie _ _).mp hb).1
  have hmems : ∀ {i b}, b ∈ smalls i → b ∈ S := fun hb => ((H.mem_small _ _).mp hb).1
  constructor
  case minSize =>
    intro b hb
    rw [ha.size b hb]
    exact H.minSize b hb
  case mem_trie =>
    intro i b
    rw [H.mem_trie]
    exact and_congr_right fun hb => (ha.inLarge_iff hb).symm
  case stored =>
    intro i hi
    have hst := H.stored i hi
    refine ⟨?_, hst.nodup, hst.outside⟩
    apply hst.rep.frame (ha.root i)
    · exact fun b hb side => ha.child b (hmem (heads_subset _ hb)) side
    · exact fun b hb => ha.parent b (hmem hb)
  case ordered =>
    intro i hi
    exact (H.ordered i hi).congr fun b hb => congrArg BitVec.toNat (ha.size b (hmem hb))
  case ring =>
    intro i hi c hc
    have hcS : ∀ p ∈ (c.1 :: c.2).map FreePtr.block, ∃ b ∈ S, p = .block b := by
      intro p hp
      obtain ⟨b, hb, rfl⟩ := List.mem_map.mp hp
      exact ⟨b, hmem (mem_blocks_iff.mpr ⟨c, hc, hb⟩), rfl⟩
    apply (H.ring i hi c hc).congr
    · intro p hp
      obtain ⟨b, hb, rfl⟩ := hcS p hp
      exact ha.next b hb
    · intro p hp
      obtain ⟨b, hb, rfl⟩ := hcS p hp
      exact ha.prev b hb
  case largeBitmap =>
    rw [ha.largeFreeBitmap]
    exact H.largeBitmap
  case mem_small =>
    intro i b
    rw [H.mem_small]
    exact and_congr_right fun hb => (ha.inSmall_iff hb).symm
  case smallRing =>
    intro i hi
    apply (H.smallRing i hi).congr
    · intro p hp
      rcases List.mem_cons.mp hp with rfl | hp
      · exact ha.nextBucket i
      · obtain ⟨b, hb, rfl⟩ := List.mem_map.mp hp
        exact ha.next b (hmems hb)
    · intro p hp
      rcases List.mem_cons.mp hp with rfl | hp
      · exact ha.prevBucket i
      · obtain ⟨b, hb, rfl⟩ := List.mem_map.mp hp
        exact ha.prev b (hmems hb)
  case smallBitmap =>
    rw [ha.freeBitmap]
    exact H.smallBitmap

section SameSizes

variable (hsize : h'.size = h.size)
include hsize

theorem inLarge_of_size : h'.InLarge i b ↔ h.InLarge i b := by
  unfold InLarge
  rw [hsize]

theorem inSmall_of_size : h'.InSmall i b ↔ h.InSmall i b := by
  unfold InSmall
  rw [hsize]

theorem key_of_size : h'.key = h.key := by
  funext b
  unfold key
  rw [hsize]

end SameSizes

/-- Nothing changes but what large bucket `i` may hold. -/
structure ChangesLarge (i : ℕ) (h h' : MmHeap B) : Prop where
  size : h'.size = h.size
  freeBitmap : h'.freeBitmap = h.freeBitmap
  bit : ∀ j, j ≠ i → h'.largeFreeBitmap.getLsbD j = h.largeFreeBitmap.getLsbD j
  slots : ∀ r, r ≠ .root i → (∀ b side, h.InLarge i b → r ≠ .child b side) →
    h'.slots r = h.slots r
  parent : ∀ b, ¬ h.InLarge i b → h'.parent b = h.parent b
  next : ∀ p, (∀ b, h.InLarge i b → p ≠ .block b) → h'.nextFreeBlock p = h.nextFreeBlock p
  prev : ∀ p, (∀ b, h.InLarge i b → p ≠ .block b) → h'.prevFreeBlock p = h.prevFreeBlock p

theorem FreeLists.setLarge (H : FreeLists h S tries smalls) (hc : ChangesLarge i h h')
    {t : BitTrie B} (hS : ∀ b, ¬ h.InLarge i b → (b ∈ S' ↔ b ∈ S))
    (hmin : ∀ b ∈ S', zendMmAlignedMinHeaderSize ≤ h.size b)
    (hmem : ∀ b, b ∈ t.blocks ↔ b ∈ S' ∧ h.InLarge i b)
    (hst : Stored h'.slots h'.parent (.root i) t) (hord : Ordered h.key i 1 t)
    (hring : ∀ c ∈ t.rings, Ring h'.nextFreeBlock h'.prevFreeBlock ((c.1 :: c.2).map .block))
    (hbit : h'.largeFreeBitmap.getLsbD i = true ↔ t ≠ .empty) :
    FreeLists h' S' (Function.update tries i t) smalls := by
  -- a block of another bucket is none of bucket `i`
  have hother : ∀ {j b}, j ≠ i → b ∈ (tries j).blocks → ¬ h.InLarge i b := fun hj hb hb' =>
    hj (((H.mem_trie _ _).mp hb).2.index_unique hb')
  constructor
  case minSize =>
    rw [hc.size]
    exact hmin
  case mem_trie =>
    intro j b
    rw [inLarge_of_size hc.size]
    by_cases hj : j = i
    · subst hj
      rw [Function.update_self]
      exact hmem b
    · rw [Function.update_of_ne hj, H.mem_trie]
      apply and_congr_left
      intro hb
      exact (hS b fun hb' => hj (hb.index_unique hb')).symm
  case stored =>
    intro j hjlt
    by_cases hj : j = i
    · subst hj
      rw [Function.update_self]
      exact hst
    · rw [Function.update_of_ne hj]
      have hstj := H.stored j hjlt
      refine ⟨?_, hstj.nodup, hstj.outside⟩
      apply hstj.rep.frame
      · apply hc.slots
        · exact fun he => hj (Slot.root.inj he)
        · exact fun b side _ he => nomatch he
      · intro b hb side
        apply hc.slots
        · exact fun he => nomatch he
        · intro x side' hx he
          exact hother hj (heads_subset _ hb) ((Slot.child.inj he).1 ▸ hx)
      · exact fun b hb => hc.parent b (hother hj hb)
  case ordered =>
    intro j hjlt
    rw [key_of_size hc.size]
    by_cases hj : j = i
    · subst hj
      rw [Function.update_self]
      exact hord
    · rw [Function.update_of_ne hj]
      exact H.ordered j hjlt
  case ring =>
    intro j hjlt
    by_cases hj : j = i
    · subst hj
      rw [Function.update_self]
      exact hring
    · rw [Function.update_of_ne hj]
      intro c hcr
      have hne : ∀ p ∈ (c.1 :: c.2).map FreePtr.block, ∀ b, h.InLarge i b → p ≠ .block b := by
        intro p hp b hb he
        obtain ⟨x, hx, rfl⟩ := List.mem_map.mp hp
        exact hother hj (mem_blocks_iff.mpr ⟨c, hcr, hx⟩) (FreePtr.block.inj he ▸ hb)
      apply (H.ring j hjlt c hcr).congr
      · exact fun p hp => hc.next p (hne p hp)
      · exact fun p hp => hc.prev p (hne p hp)
  case largeBitmap =>
    intro j hjlt
    by_cases hj : j = i
    · subst hj
      rw [Function.update_self]
      exact hbit
    · rw [Function.update_of_ne hj, hc.bit j hj]
      exact H.largeBitmap j hjlt
  case mem_small =>
    intro j b
    rw [inSmall_of_size hc.size, H.mem_small]
    apply and_congr_left
    intro hb
    exact (hS b hb.not_large).symm
  case smallRing =>
    intro j hjlt
    have hne : ∀ p ∈ (.smallFreeBucket j :: (smalls j).map FreePtr.block),
        ∀ b, h.InLarge i b → p ≠ .block b := by
      intro p hp b hb he
      rcases List.mem_cons.mp hp with rfl | hp
      · exact nomatch he
      · obtain ⟨x, hx, rfl⟩ := List.mem_map.mp hp
        exact ((H.mem_small j x).mp hx).2.not_large (FreePtr.block.inj he ▸ hb)
    apply (H.smallRing j hjlt).congr
    · exact fun p hp => hc.next p (hne p hp)
    · exact fun p hp => hc.prev p (hne p hp)
  case smallBitmap =>
    rw [hc.freeBitmap]
    exact H.smallBitmap

/-- Nothing changes but what small bucket `i` may hold. -/
structure ChangesSmall (i : ℕ) (h h' : MmHeap B) : Prop where
  size : h'.size = h.size
  largeFreeBitmap : h'.largeFreeBitmap = h.largeFreeBitmap
  bit : ∀ j, j ≠ i → h'.freeBitmap.getLsbD j = h.freeBitmap.getLsbD j
  slots : h'.slots = h.slots
  parent : h'.parent = h.parent
  next : ∀ p, p ≠ .smallFreeBucket i → (∀ b, h.InSmall i b → p ≠ .block b) →
    h'.nextFreeBlock p = h.nextFreeBlock p
  prev : ∀ p, p ≠ .smallFreeBucket i → (∀ b, h.InSmall i b → p ≠ .block b) →
    h'.prevFreeBlock p = h.prevFreeBlock p

theorem FreeLists.setSmall (H : FreeLists h S tries smalls) (hc : ChangesSmall i h h')
    {l : List B} (hS : ∀ b, ¬ h.InSmall i b → (b ∈ S' ↔ b ∈ S))
    (hmin : ∀ b ∈ S', zendMmAlignedMinHeaderSize ≤ h.size b)
    (hmem : ∀ b, b ∈ l ↔ b ∈ S' ∧ h.InSmall i b)
    (hring : Ring h'.nextFreeBlock h'.prevFreeBlock (.smallFreeBucket i :: l.map .block))
    (hbit : h'.freeBitmap.getLsbD i = true ↔ l ≠ []) :
    FreeLists h' S' tries (Function.update smalls i l) := by
  constructor
  case minSize =>
    rw [hc.size]
    exact hmin
  case mem_trie =>
    intro j b
    rw [inLarge_of_size hc.size, H.mem_trie]
    apply and_congr_left
    intro hb
    exact (hS b fun hb' => hb'.not_large hb).symm
  case stored =>
    rw [hc.slots, hc.parent]
    exact H.stored
  case ordered =>
    rw [key_of_size hc.size]
    exact H.ordered
  case ring =>
    intro j hjlt c hcr
    have hne : ∀ p ∈ (c.1 :: c.2).map FreePtr.block,
        p ≠ .smallFreeBucket i ∧ ∀ b, h.InSmall i b → p ≠ .block b := by
      intro p hp
      obtain ⟨x, hx, rfl⟩ := List.mem_map.mp hp
      refine ⟨fun he => (nomatch he), fun b hb he => ?_⟩
      have hxj := ((H.mem_trie j x).mp (mem_blocks_iff.mpr ⟨c, hcr, hx⟩)).2
      exact hb.not_large (FreePtr.block.inj he ▸ hxj)
    apply (H.ring j hjlt c hcr).congr
    · exact fun p hp => hc.next p (hne p hp).1 (hne p hp).2
    · exact fun p hp => hc.prev p (hne p hp).1 (hne p hp).2
  case largeBitmap =>
    rw [hc.largeFreeBitmap]
    exact H.largeBitmap
  case mem_small =>
    intro j b
    rw [inSmall_of_size hc.size]
    by_cases hj : j = i
    · subst hj
      rw [Function.update_self]
      exact hmem b
    · rw [Function.update_of_ne hj, H.mem_small]
      apply and_congr_left
      intro hb
      exact (hS b fun hb' => hj (hb.2.symm.trans hb'.2)).symm
  case smallRing =>
    intro j hjlt
    by_cases hj : j = i
    · subst hj
      rw [Function.update_self]
      exact hring
    · rw [Function.update_of_ne hj]
      have hne : ∀ p ∈ (.smallFreeBucket j :: (smalls j).map FreePtr.block),
          p ≠ .smallFreeBucket i ∧ ∀ b, h.InSmall i b → p ≠ .block b := by
        intro p hp
        rcases List.mem_cons.mp hp with rfl | hp
        · exact ⟨fun he => hj (FreePtr.smallFreeBucket.inj he), fun b _ he => nomatch he⟩
        · obtain ⟨x, hx, rfl⟩ := List.mem_map.mp hp
          refine ⟨fun he => (nomatch he), fun b hb he => ?_⟩
          have hxj := ((H.mem_small j x).mp hx).2
          exact hj (hxj.2.symm.trans (FreePtr.block.inj he ▸ hb.2))
      apply (H.smallRing j hjlt).congr
      · exact fun p hp => hc.next p (hne p hp).1 (hne p hp).2
      · exact fun p hp => hc.prev p (hne p hp).1 (hne p hp).2
  case smallBitmap =>
    intro j hjlt
    by_cases hj : j = i
    · subst hj
      rw [Function.update_self]
      exact hbit
    · rw [Function.update_of_ne hj, hc.bit j hj]
      exact H.smallBitmap j hjlt

end Php53.Zend.MmHeap
