import Php53.Zend.Alloc.Invariant

/-!
# Add — `zend_mm_add_to_free_list` keeps the free lists

A large block is hung into the free slot its bits lead to, or joins the ring of its size; a small
one is put behind the place of its bucket.
-/

open Reasoning Reasoning.BitTrie

namespace Php53.Zend.MmHeap

variable {B : Type} [DecidableEq B]
variable {h h' : MmHeap B} {S : Set B} {tries : ℕ → BitTrie B} {smalls : ℕ → List B} {i : ℕ} {b : B}

theorem joinRing_eq (h : MmHeap B) (x b : B) :
    h.joinRing x b = { h with
      nextFreeBlock := Function.update (Function.update h.nextFreeBlock (.block x) (.block b))
        (.block b) (h.nextFreeBlock (.block x))
      prevFreeBlock := Function.update (Function.update h.prevFreeBlock (h.nextFreeBlock (.block x))
        (.block b)) (.block b) (.block x)
      parent := Function.update h.parent b none } := by
  simp only [joinRing, setParent, setPrev, setNext]

theorem getLsbD_set (x : BitVec 64) {i : ℕ} (hi : i < 64) :
    (x ||| (1#64 <<< i)).getLsbD i = true ∧
      ∀ j, j ≠ i → (x ||| (1#64 <<< i)).getLsbD j = x.getLsbD j := by
  constructor
  · simp [hi]
  · intro j hj
    by_cases hlt : j < 64
    · simp [hlt]
      omega
    · simp [BitVec.getLsbD_of_ge _ _ (Nat.le_of_not_lt hlt)]

theorem getLsbD_clear (x : BitVec 64) {i : ℕ} (hi : i < 64) :
    (x &&& ~~~(1#64 <<< i)).getLsbD i = false ∧
      ∀ j, j ≠ i → (x &&& ~~~(1#64 <<< i)).getLsbD j = x.getLsbD j := by
  constructor
  · simp [hi]
  · intro j hj
    by_cases hlt : j < 64
    · simp [hlt]
      omega
    · simp [BitVec.getLsbD_of_ge _ _ (Nat.le_of_not_lt hlt)]

section

variable (H : FreeLists h S tries smalls)

include H

omit [DecidableEq B] in
theorem FreeLists.not_mem_trie (hb : b ∉ S) (i : ℕ) :
    b ∉ (tries i).blocks := fun hm => hb ((H.mem_trie i b).mp hm).1

omit [DecidableEq B] in
theorem FreeLists.insert_minSize (hmin : zendMmAlignedMinHeaderSize ≤ h.size b) :
    ∀ x ∈ insert b S, zendMmAlignedMinHeaderSize ≤ h.size x := by
  intro x hx
  rcases hx with rfl | hx
  · exact hmin
  · exact H.minSize x hx

section

variable (hb : b ∉ S) (hmin : zendMmAlignedMinHeaderSize ≤ h.size b)

include hb hmin

omit [DecidableEq B] in
theorem FreeLists.insertLarge (hi : h.InLarge i b)
    (hc : ChangesLarge i h h')
    (hrep : Rep h'.slots h'.parent (.root i) ((tries i).insert h.key b i))
    (hring : ∀ c ∈ ((tries i).insert h.key b i).rings,
      Ring h'.nextFreeBlock h'.prevFreeBlock ((c.1 :: c.2).map .block))
    (hbit : h'.largeFreeBitmap.getLsbD i = true) :
    FreeLists h' (insert b S) (Function.update tries i ((tries i).insert h.key b i)) smalls := by
  have hilt := hi.index_lt
  have hperm : ((tries i).insert h.key b i).blocks.Perm (b :: (tries i).blocks) :=
    blocks_insert i (tries i)
  apply H.setLarge hc
  · intro x hx
    have hxb : x ≠ b := fun he => hx (he ▸ hi)
    simp [hxb]
  · exact H.insert_minSize hmin
  · intro x
    rw [hperm.mem_iff, List.mem_cons, H.mem_trie]
    constructor
    · rintro (rfl | hx)
      · exact ⟨Set.mem_insert _ _, hi⟩
      · exact ⟨Set.mem_insert_of_mem _ hx.1, hx.2⟩
    · rintro ⟨hx | hx, hl⟩
      · exact Or.inl hx
      · exact Or.inr ⟨hx, hl⟩
  · refine ⟨hrep, ?_, outside_root i _⟩
    rw [hperm.nodup_iff, List.nodup_cons]
    exact ⟨H.not_mem_trie hb i, (H.stored i hilt).nodup⟩
  · exact (H.ordered i hilt).insert hi.div_eq
  · exact hring
  · rw [hbit]
    constructor
    · intro _ he
      have hm := hperm.mem_iff.mpr (List.mem_cons_self (a := b))
      rw [he] at hm
      simp at hm
    · exact fun _ => rfl

theorem FreeLists.plant (hi : h.InLarge i b) (hfree : ∀ side, h.slots (.child b side) = none)
    {q : Slot ℕ B} (hq : spot h.key b i (.root i) (tries i) = .inl q)
    (hsame : h' = { h.plant q b with largeFreeBitmap := h'.largeFreeBitmap })
    (hbits : ∀ j, j ≠ i → h'.largeFreeBitmap.getLsbD j = h.largeFreeBitmap.getLsbD j)
    (hbit : h'.largeFreeBitmap.getLsbD i = true) :
    FreeLists h' (insert b S) (Function.update tries i ((tries i).insert h.key b i)) smalls := by
  have hst := H.stored i hi.index_lt
  have hnm := H.not_mem_trie hb i
  have hnext : ∀ p, p ≠ .block b → h'.nextFreeBlock p = h.nextFreeBlock p := by
    intro p hp
    rw [hsame]
    exact Function.update_of_ne hp _ _
  have hprev : ∀ p, p ≠ .block b → h'.prevFreeBlock p = h.prevFreeBlock p := by
    intro p hp
    rw [hsame]
    exact Function.update_of_ne hp _ _
  have hslots : h'.slots = Function.update h.slots q (some b) := by rw [hsame]; rfl
  have hparent : h'.parent = Function.update h.parent b (some q) := by rw [hsame]; rfl
  apply H.insertLarge hb hmin hi
  · constructor
    · rw [hsame]
      rfl
    · rw [hsame]
      rfl
    · exact hbits
    · intro r hr hrc
      rw [hslots]
      apply Function.update_of_ne
      intro he
      rcases (spot_inl hst.rep hq).2 with hqr | ⟨y, hy, side, hqy⟩
      · exact hr (he.trans hqr)
      · exact hrc y side ((H.mem_trie i y).mp (heads_subset _ hy)).2 (he.trans hqy)
    · intro x hx
      rw [hparent]
      exact Function.update_of_ne (fun he : x = b => hx (he ▸ hi)) _ _
    · exact fun p hp => hnext p (hp b hi)
    · exact fun p hp => hprev p (hp b hi)
  · rw [hslots, hparent]
    exact hst.plant hq hnm hfree fun side he => nomatch he
  · intro c hc
    rcases mem_rings_plant hq hc with rfl | hc
    · apply ring_singleton.mpr
      rw [hsame]
      exact ⟨Function.update_self .., Function.update_self ..⟩
    · have hne : ∀ p ∈ (c.1 :: c.2).map FreePtr.block, p ≠ .block b := by
        intro p hp he
        obtain ⟨x, hx, rfl⟩ := List.mem_map.mp hp
        exact hnm (FreePtr.block.inj he ▸ mem_blocks_iff.mpr ⟨c, hc, hx⟩)
      apply (H.ring i hi.index_lt c hc).congr
      · exact fun p hp => hnext p (hne p hp)
      · exact fun p hp => hprev p (hne p hp)
  · exact hbit

theorem FreeLists.joinRing (hi : h.InLarge i b) {x : B}
    (hx : spot h.key b i (.root i) (tries i) = .inr x) :
    FreeLists (h.joinRing x b) (insert b S)
      (Function.update tries i ((tries i).insert h.key b i)) smalls := by
  have hst := H.stored i hi.index_lt
  have hnm := H.not_mem_trie hb i
  have hxt := heads_subset _ (spot_inr hx).1
  have hxi := ((H.mem_trie i x).mp hxt).2
  -- the ring of `x`, where the neighbours of the new block stand
  have hxr : x ∈ (tries i).rings.map Prod.fst := heads_eq_map (tries i) ▸ (spot_inr hx).1
  obtain ⟨⟨x', rest⟩, hcr, hxx⟩ := List.mem_map.mp hxr
  obtain rfl : x' = x := hxx
  have hringx := H.ring i hi.index_lt (x', rest) hcr
  obtain ⟨y, hy, hnexty⟩ : ∃ y ∈ x' :: rest, h.nextFreeBlock (.block x') = .block y := by
    have hm := (hringx.link_mem (x := FreePtr.block x') (by simp)).2.2.1
    obtain ⟨y, hy, he⟩ := List.mem_map.mp hm
    exact ⟨y, hy, he.symm⟩
  have hyt : y ∈ (tries i).blocks := mem_blocks_iff.mpr ⟨_, hcr, hy⟩
  have hyi := ((H.mem_trie i y).mp hyt).2
  have hnext : ∀ p, p ≠ .block b → p ≠ .block x' →
      Function.update (Function.update h.nextFreeBlock (.block x') (.block b)) (.block b)
        (h.nextFreeBlock (.block x')) p = h.nextFreeBlock p := by
    intro p hpb hpx
    rw [Function.update_of_ne hpb, Function.update_of_ne hpx]
  have hprev : ∀ p, p ≠ .block b → p ≠ .block y →
      Function.update (Function.update h.prevFreeBlock (h.nextFreeBlock (.block x')) (.block b))
        (.block b) (.block x') p = h.prevFreeBlock p := by
    intro p hpb hpy
    rw [Function.update_of_ne hpb, Function.update_of_ne (hnexty ▸ hpy)]
  rw [joinRing_eq]
  apply H.insertLarge hb hmin hi
  · refine ⟨rfl, rfl, fun _ _ => rfl, fun _ _ _ => rfl, ?_, ?_, ?_⟩
    · intro z hz
      exact Function.update_of_ne (fun he : z = b => hz (he ▸ hi)) _ _
    · exact fun p hp => hnext p (hp b hi) (hp x' hxi)
    · exact fun p hp => hprev p (hp b hi) (hp y hyi)
  · exact hst.join hx hnm
  · intro c hc
    rcases mem_rings_join hst.nodup hx hc with ⟨rest', hr', rfl⟩ | ⟨hc, hcx⟩
    · have hsame := rings_disjoint hst.nodup hcr hr' List.mem_cons_self List.mem_cons_self
      obtain rfl := (Prod.mk.inj hsame).2
      apply hringx.insert
      intro hm
      have hm : FreePtr.block b ∈ (x' :: rest).map FreePtr.block := hm
      obtain ⟨z, hz, he⟩ := List.mem_map.mp hm
      exact hnm (FreePtr.block.inj he ▸ mem_blocks_iff.mpr ⟨_, hcr, hz⟩)
    · have hne : ∀ p ∈ (c.1 :: c.2).map FreePtr.block,
          p ≠ .block b ∧ p ≠ .block x' ∧ p ≠ .block y := by
        intro p hp
        obtain ⟨z, hz, rfl⟩ := List.mem_map.mp hp
        refine ⟨?_, ?_, ?_⟩
        · exact fun he => hnm (FreePtr.block.inj he ▸ mem_blocks_iff.mpr ⟨c, hc, hz⟩)
        · intro he
          have hd := rings_disjoint hst.nodup hc hcr hz
            (FreePtr.block.inj he ▸ List.mem_cons_self)
          exact hcx (congrArg Prod.fst hd)
        · intro he
          have hd := rings_disjoint hst.nodup hc hcr hz (FreePtr.block.inj he ▸ hy)
          exact hcx (congrArg Prod.fst hd)
      apply (H.ring i hi.index_lt c hc).congr
      · exact fun p hp => hnext p (hne p hp).1 (hne p hp).2.1
      · exact fun p hp => hprev p (hne p hp).1 (hne p hp).2.2
  · apply (H.largeBitmap i hi.index_lt).mpr
    intro he
    rw [he] at hxt
    simp at hxt

theorem add_large (hi : h.InLarge i b) :
    ∃ h', h.zendMmAddToFreeList b = some h' ∧
      FreeLists h' (insert b S) (Function.update tries i ((tries i).insert h.key b i)) smalls := by
  have hilt := hi.index_lt
  let h1 := (h.setSlot (.child b true) none).setSlot (.child b false) none
  have hclear : ∀ r, (∀ side, r ≠ .child b side) → h1.slots r = h.slots r := fun r hr =>
    (Function.update_of_ne (hr false) _ _).trans (Function.update_of_ne (hr true) _ _)
  -- the fields of the new block are cleared first, which nobody in the lists sees
  have H1 : FreeLists h1 S tries smalls := by
    apply H.congr
    refine ⟨rfl, rfl, ?_, ?_, fun _ _ => rfl, fun _ => rfl, fun _ => rfl, fun _ _ => rfl,
      fun _ _ => rfl, fun _ _ => rfl⟩
    · exact fun j => hclear _ fun side he => by cases he
    · intro x hx side
      apply hclear
      intro side' he
      exact hb ((Slot.child.inj he).1 ▸ hx)
  have hfree : ∀ side, h1.slots (.child b side) = none := by
    intro side
    cases side with
    | false => exact Function.update_self ..
    | true => exact (Function.update_of_ne (by simp) _ _).trans (Function.update_self ..)
  have hrep := (H1.stored i hilt).rep
  unfold zendMmAddToFreeList
  simp only [hi.1, hi.2, Bool.not_false, if_true]
  split
  case h_1 hroot =>
    change h1.slots (.root i) = none at hroot
    have hempty := hrep.eq_empty hroot
    have hq : spot h1.key b i (.root i) (tries i) = .inl (.root i) := by
      rw [hempty]
      rfl
    have hbits := getLsbD_set h1.largeFreeBitmap hilt
    exact ⟨_, rfl, H1.plant hb hmin hi hfree hq rfl hbits.2 hbits.1⟩
  case h_2 x hroot =>
    change h1.slots (.root i) = some x at hroot
    have hne : tries i ≠ .empty := by
      intro he
      rw [he] at hrep
      cases (hroot.symm.trans hrep)
    change ∃ h', h1.addLoop b (h1.size b) 64 (h1.size b <<< (64 - i)) (.root i) = some h' ∧ _
    have hloop := addLoop_eq (b := b) hrep hne (H1.ordered i hilt) hi.div_eq hilt hilt
    simp only [hloop]
    cases hp : spot h1.key b i (.root i) (tries i) with
    | inl q =>
      exact ⟨_, rfl, H1.plant hb hmin hi hfree hp rfl (fun _ _ => rfl)
        ((H1.largeBitmap i hilt).mpr hne)⟩
    | inr x => exact ⟨_, rfl, H1.joinRing hb hmin hi hp⟩

theorem add_small (hi : h.InSmall i b) :
    ∃ h', h.zendMmAddToFreeList b = some h' ∧
      FreeLists h' (insert b S) tries (Function.update smalls i (b :: smalls i)) := by
  have hilt : i < 64 := by
    rw [← hi.2]
    exact zendMmBucketIndex_lt hi.1 hmin
  have hring := H.smallRing i hilt
  have hnm : b ∉ smalls i := fun hm => hb ((H.mem_small i b).mp hm).1
  have hbr : FreePtr.block b ∉ FreePtr.smallFreeBucket i :: (smalls i).map .block := by
    simp [hnm]
  have hnextm := (hring.link_mem (x := FreePtr.smallFreeBucket i) (by simp)).2.2.1
  have hnextb : h.nextFreeBlock (.smallFreeBucket i) ≠ .block b := fun he => hbr (he ▸ hnextm)
  -- the neighbours are the place of the bucket and its next block
  have hnbr : h.nextFreeBlock (.smallFreeBucket i) = .smallFreeBucket i ∨
      ∃ y, h.InSmall i y ∧ h.nextFreeBlock (.smallFreeBucket i) = .block y := by
    rcases List.mem_cons.mp hnextm with he | hm
    · exact Or.inl he
    · obtain ⟨y, hy, he⟩ := List.mem_map.mp hm
      exact Or.inr ⟨y, ((H.mem_small i y).mp hy).2, he.symm⟩
  have hempty : h.prevFreeBlock (.smallFreeBucket i) = .smallFreeBucket i ↔ smalls i = [] := by
    rw [hring.prev_eq_self, List.map_eq_nil_iff]
  have key : ∀ h' : MmHeap B, h'.size = h.size → h'.largeFreeBitmap = h.largeFreeBitmap →
      h'.slots = h.slots → h'.parent = h.parent →
      h'.nextFreeBlock = Function.update (Function.update h.nextFreeBlock (.block b)
        (h.nextFreeBlock (.smallFreeBucket i))) (.smallFreeBucket i) (.block b) →
      h'.prevFreeBlock = Function.update (Function.update h.prevFreeBlock (.block b)
        (.smallFreeBucket i)) (h.nextFreeBlock (.smallFreeBucket i)) (.block b) →
      (∀ j, j ≠ i → h'.freeBitmap.getLsbD j = h.freeBitmap.getLsbD j) →
      h'.freeBitmap.getLsbD i = true →
      FreeLists h' (insert b S) tries (Function.update smalls i (b :: smalls i)) := by
    intro h' hsize hlarge hslots hparent hnext hprev hbits hbit
    apply H.setSmall
    · refine ⟨hsize, hlarge, hbits, hslots, hparent, ?_, ?_⟩
      · intro p hp hpb
        rw [hnext, Function.update_of_ne hp, Function.update_of_ne (hpb b hi)]
      · intro p hp hpb
        rw [hprev, Function.update_of_ne, Function.update_of_ne (hpb b hi)]
        intro he
        rcases hnbr with hn | ⟨y, hy, hn⟩
        · exact hp (he.trans hn)
        · exact hpb y hy (he.trans hn)
    · intro x hx
      have hxb : x ≠ b := fun he => hx (he ▸ hi)
      simp [hxb]
    · exact H.insert_minSize hmin
    · intro x
      rw [List.mem_cons, H.mem_small]
      constructor
      · rintro (rfl | hx)
        · exact ⟨Set.mem_insert _ _, hi⟩
        · exact ⟨Set.mem_insert_of_mem _ hx.1, hx.2⟩
      · rintro ⟨hx | hx, hl⟩
        · exact Or.inl hx
        · exact Or.inr ⟨hx, hl⟩
    · rw [hnext, hprev, Function.update_comm (by simp), Function.update_comm (Ne.symm hnextb)]
      exact hring.insert hbr
    · rw [hbit]
      simp
  unfold zendMmAddToFreeList
  simp only [hi.1, hi.2, Bool.not_true, Bool.false_eq_true, if_false]
  by_cases hself : h.prevFreeBlock (.smallFreeBucket i) = .smallFreeBucket i
  · have hbits := getLsbD_set h.freeBitmap hilt
    rw [if_pos hself]
    simp only [setPrev, setNext]
    exact ⟨_, rfl, key _ rfl rfl rfl rfl rfl rfl hbits.2 hbits.1⟩
  · rw [if_neg hself]
    simp only [setPrev, setNext]
    refine ⟨_, rfl, key _ rfl rfl rfl rfl rfl rfl (fun _ _ => rfl) ?_⟩
    exact (H.smallBitmap i hilt).mpr fun he => hself (hempty.mpr he)

theorem add_ok :
    ∃ h' tries' smalls', h.zendMmAddToFreeList b = some h' ∧
      FreeLists h' (insert b S) tries' smalls' := by
  cases hs : zendMmSmallSize (h.size b) with
  | false =>
    obtain ⟨h', ha, hf⟩ := add_large H hb hmin ⟨hs, rfl⟩
    exact ⟨h', _, _, ha, hf⟩
  | true =>
    obtain ⟨h', ha, hf⟩ := add_small H hb hmin ⟨hs, rfl⟩
    exact ⟨h', _, _, ha, hf⟩

end

end

end Php53.Zend.MmHeap
