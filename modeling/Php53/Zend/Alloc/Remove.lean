import Php53.Zend.Alloc.Add

/-!
# Remove — `zend_mm_remove_from_free_list` keeps the free lists

A block that is alone in its ring is a node of its trie: a leaf is cut off, an inner node is
replaced by the last leaf below it.  A block with others in its ring is unlinked, and if it was the
node, its predecessor takes the place in the tree.
-/

open Reasoning Reasoning.BitTrie

namespace Php53.Zend.MmHeap

open List

variable {B : Type} [DecidableEq B]
variable {h h' : MmHeap B} {S : Set B} {tries : ℕ → BitTrie B} {smalls : ℕ → List B} {i : ℕ} {b : B}
  {x : B}

theorem FreeLists.replaceLarge (H : FreeLists h S tries smalls) (hi : h.InLarge i b)
    (hc : ChangesLarge i h h') (hx : x ∈ (tries i).heads) {u : BitTrie B}
    (hperm : ((tries i).find x).blocks.Perm (b :: u.blocks))
    (hord : ∀ k p, Ordered h.key k p ((tries i).find x) → Ordered h.key k p u)
    (hrep : Rep h'.slots h'.parent (.root i) ((tries i).replace x u))
    (hring : ∀ c ∈ ((tries i).replace x u).rings,
      Ring h'.nextFreeBlock h'.prevFreeBlock ((c.1 :: c.2).map .block))
    (hbit : h'.largeFreeBitmap.getLsbD i = true ↔ (tries i).replace x u ≠ .empty) :
    FreeLists h' (S \ {b}) (Function.update tries i ((tries i).replace x u)) smalls := by
  have hilt := hi.index_lt
  have hst := H.stored i hilt
  have hall : (tries i).blocks.Perm (b :: ((tries i).replace x u).blocks) :=
    blocks_replace hst.nodup hx
      (show ((tries i).find x).blocks.Perm ([b] ++ u.blocks) from hperm)
  have hnd := hall.nodup_iff.mp hst.nodup
  rw [nodup_cons] at hnd
  apply H.setLarge hc
  · intro y hy
    have hyb : y ≠ b := fun he => hy (he ▸ hi)
    simp [hyb]
  · exact fun y hy => H.minSize y hy.1
  · intro y
    have hm := H.mem_trie i y
    rw [hall.mem_iff, mem_cons] at hm
    constructor
    · intro hy
      obtain ⟨hyS, hyi⟩ := hm.mp (Or.inr hy)
      exact ⟨⟨hyS, fun he => hnd.1 (Set.mem_singleton_iff.mp he ▸ hy)⟩, hyi⟩
    · rintro ⟨⟨hyS, hyb⟩, hyi⟩
      rcases hm.mpr ⟨hyS, hyi⟩ with rfl | hy
      · exact absurd rfl hyb
      · exact hy
  · exact ⟨hrep, hnd.2, outside_root i _⟩
  · apply (H.ordered i hilt).replace hst.nodup hx _ hord
    intro y hy
    exact hperm.mem_iff.mpr (mem_cons_of_mem b hy)
  · exact hring
  · exact hbit

theorem replace_ne_empty {u t : BitTrie B} (hne : t ≠ .empty) (hu : u ≠ .empty) :
    t.replace x u ≠ .empty := by
  cases t with
  | empty => exact absurd rfl hne
  | node y rest left right =>
    rw [BitTrie.replace]
    split
    · exact hu
    · exact fun he => by cases he

theorem replace_ne_empty_of_root {u t : BitTrie B} {slots : Slot ℕ B → Option B}
    {parent : B → Option (Slot ℕ B)} {p : Slot ℕ B} (hrep : Rep slots parent p t) (hne : t ≠ .empty)
    (hx : slots p ≠ some x) : t.replace x u ≠ .empty := by
  cases t with
  | empty => exact absurd rfl hne
  | node y rest left right =>
    rw [BitTrie.replace, if_neg fun he : y = x => hx (he ▸ hrep.1)]
    exact fun he => by cases he

omit [DecidableEq B] in
theorem FreeLists.slot_of_head (H : FreeLists h S tries smalls) (hilt : i < 64)
    (hx : x ∈ (tries i).heads) :
    ∃ q, h.parent x = some q ∧ h.slots q = some x ∧
      ∀ r, r ≠ .root i → (∀ b side, h.InLarge i b → r ≠ .child b side) → r ≠ q := by
  obtain ⟨q, hpq, hsq, -⟩ := (H.stored i hilt).parent_of_head hx
  refine ⟨q, hpq, hsq, fun r hr hrc => (H.stored i hilt).ne_parent hx hpq hr ?_⟩
  exact fun y hy side => hrc y side ((H.mem_trie i y).mp hy).2

theorem FreeLists.bit_replace (H : FreeLists h S tries smalls) (hilt : i < 64)
    (hx : x ∈ (tries i).heads) {u : BitTrie B} (hu : u ≠ .empty) :
    h.largeFreeBitmap.getLsbD i = true ↔ (tries i).replace x u ≠ .empty := by
  have hne : tries i ≠ .empty := by
    intro he
    rw [he] at hx
    simp at hx
  have hbit := (H.largeBitmap i hilt).mpr hne
  exact ⟨fun _ => replace_ne_empty hne hu, fun _ => hbit⟩

theorem remove_leaf (H : FreeLists h S tries smalls) (hi : h.InLarge i b)
    (hb : b ∈ (tries i).heads) (hfind : (tries i).find b = .node b [] .empty .empty) {q : Slot ℕ B}
    (hq : h.parent b = some q) :
    ∃ tries', FreeLists (if q = .root i then
        { h.setSlot q none with
          largeFreeBitmap := h.largeFreeBitmap &&& ~~~(1#64 <<< i) }
      else h.setSlot q none) (S \ {b}) tries' smalls := by
  have hilt := hi.index_lt
  have hst := H.stored i hilt
  obtain ⟨q', hpq, hsq, hout⟩ := H.slot_of_head hilt hb
  obtain rfl : q' = q := Option.some.inj (hpq.symm.trans hq)
  have hrep : Rep (h.setSlot q' none).slots h.parent (.root i) ((tries i).replace b .empty) := by
    apply hst.replace hb hq
    · exact fun r hr _ => Function.update_of_ne hr _ _
    · exact fun _ _ => rfl
    · exact Function.update_self ..
  have hslots : ∀ r, r ≠ .root i → (∀ b side, h.InLarge i b → r ≠ .child b side) →
      (h.setSlot q' none).slots r = h.slots r := fun r hr hrc =>
    Function.update_of_ne (hout r hr hrc) _ _
  have hring : ∀ c ∈ ((tries i).replace b .empty).rings,
      Ring h.nextFreeBlock h.prevFreeBlock ((c.1 :: c.2).map .block) := by
    intro c hc
    rcases mem_rings_replace hst.nodup hb hc with hc | ⟨hc, -⟩
    · simp at hc
    · exact H.ring i hilt c hc
  have hperm : ((tries i).find b).blocks.Perm (b :: (BitTrie.empty : BitTrie B).blocks) := by
    rw [hfind]
    simp
  have hne : tries i ≠ .empty := by
    intro he
    rw [he] at hb
    simp at hb
  by_cases hroot : q' = .root i
  · rw [if_pos hroot]
    have hbits := getLsbD_clear h.largeFreeBitmap hilt
    refine ⟨_, H.replaceLarge hi ?_ hb hperm (fun _ _ _ => trivial) hrep hring ?_⟩
    · exact ⟨rfl, rfl, hbits.2, hslots, fun _ _ => rfl, fun _ _ => rfl, fun _ _ => rfl⟩
    · rw [hbits.1]
      -- the node hung in the bucket itself, so it was the whole trie
      have hempty : (tries i).replace b .empty = .empty := by
        rw [hroot] at hsq
        cases ht : tries i with
        | empty => rfl
        | node x rest left right =>
          rw [ht] at hst
          obtain rfl : x = b := Option.some.inj (hst.rep.1.symm.trans hsq)
          exact replace_here ..
      simp [hempty]
  · rw [if_neg hroot]
    refine ⟨_, H.replaceLarge hi ?_ hb hperm (fun _ _ _ => trivial) hrep hring ?_⟩
    · exact ⟨rfl, rfl, fun _ _ => rfl, hslots, fun _ _ => rfl, fun _ _ => rfl, fun _ _ => rfl⟩
    · have hb' := (H.largeBitmap i hilt).mpr hne
      constructor
      · intro _
        apply replace_ne_empty_of_root hst.rep hne
        intro he
        exact hroot (Option.some.inj (hpq.symm.trans (hst.rep.parent_of_slot he)))
      · exact fun _ => hb'

theorem remove_inner (H : FreeLists h S tries smalls) (hi : h.InLarge i b)
    (hb : b ∈ (tries i).heads) {left right : BitTrie B}
    (hfind : (tries i).find b = .node b [] left right) {c : B}
    (hc : h.slots (h.lastChild b) = some c) :
    ∃ q y h' tries', h.leafLoop zendMmNumBuckets (h.lastChild b) c = some (q, y) ∧
      (h.setSlot q none).substBlock b y = some h' ∧ FreeLists h' (S \ {b}) tries' smalls := by
  have hilt := hi.index_lt
  have hst := H.stored i hilt
  obtain ⟨p, hpp, hsp, hout⟩ := H.slot_of_head hilt hb
  -- the subtree of the node, and its last leaf
  have hsub := hst.find hb hpp
  have hrings := find_rings_subset b (tries i)
  have hlarge : ∀ z ∈ ((tries i).find b).blocks, h.InLarge i z := fun z hz =>
    ((H.mem_trie i z).mp ((find_sublist b (tries i)).subset hz)).2
  obtain ⟨k, pfx, hk, ho⟩ := (H.ordered i hilt).find b
  rw [hfind] at hsub hrings hlarge ho
  obtain ⟨q, y, ys, hloop, hleaf, hyq⟩ := leafLoop_eq hsub.rep hsp ho (show k < 65 by omega)
  rw [leafLoop_step hc] at hloop
  have hyb : y ≠ b := by
    rintro rfl
    have hyf := find_lastLeaf hsub.nodup hleaf
    rw [find_here] at hyf
    obtain ⟨-, -, hl, hr⟩ := BitTrie.node.inj hyf
    subst hl hr
    rw [lastChild_eq hsub.right.rep] at hc
    cases (hc.symm.trans hsub.left.rep)
  have hcut : Stored (h.setSlot q none).slots (h.setSlot q none).parent p _ :=
    hsub.cutLeaf hleaf hyq
  have hyt := not_mem_cutLeaf hsub.nodup hleaf (z := y) mem_cons_self
  rw [replace_below hyb] at hcut hyt
  obtain ⟨hrep, hslots, hparent⟩ := hsub.leafUp hleaf hyq hyb
  have hsubst := substBlock_eq hcut hyb (fun hm => hyt (left_subset _ _ _ _ hm)) fun hm =>
    hyt (right_subset _ _ _ _ hm)
  refine ⟨q, y, _, _, hloop, hsubst, H.replaceLarge hi ?_ hb
    (u := .node y ys (left.replace y .empty) (right.replace y .empty)) ?_ ?_ ?_ ?_
    (H.bit_replace hilt hb fun he => by cases he)⟩
  · refine ⟨rfl, rfl, fun _ _ => rfl, ?_, ?_, fun _ _ => rfl, fun _ _ => rfl⟩
    · exact fun r hr hrc => hslots r (hout r hr hrc) fun z hz side => hrc z side (hlarge z hz)
    · exact fun z hz => hparent z fun hm => hz (hlarge z hm)
  · rw [hfind]
    exact blocks_leafUp hsub.nodup hleaf hyb
  · intro k p ho
    rw [hfind] at ho
    exact ho.leafUp hsub.nodup hleaf hyb
  · apply hst.replace hb hpp
    · rw [hfind]
      exact hslots
    · rw [hfind]
      exact hparent
    · exact hrep
  · intro d hd
    apply H.ring i hilt d
    rcases mem_rings_replace hst.nodup hb hd with hd | ⟨hd, -⟩
    · exact hrings (rings_leafUp hsub.nodup hleaf hyb hd)
    · exact hd

def unlink (h : MmHeap B) (b : B) : MmHeap B :=
  (h.setNext (h.prevFreeBlock (.block b)) (h.nextFreeBlock (.block b))).setPrev
    (h.nextFreeBlock (.block b)) (h.prevFreeBlock (.block b))

section

variable {c : B × List B} (H : FreeLists h S tries smalls) (hilt : i < 64)
  (hc : c ∈ (tries i).rings) (hb : b ∈ c.1 :: c.2)

include H hilt hc hb

theorem FreeLists.unlink_next {p : FreePtr B} (hp : p ∉ (c.1 :: c.2).map .block) :
    (h.unlink b).nextFreeBlock p = h.nextFreeBlock p ∧
      (h.unlink b).prevFreeBlock p = h.prevFreeBlock p := by
  have hm := (H.ring i hilt c hc).link_mem (x := FreePtr.block b) (mem_map_of_mem hb)
  constructor
  · exact Function.update_of_ne (fun he : p = h.prevFreeBlock (.block b) =>
      hp (he ▸ hm.2.2.2)) _ _
  · exact Function.update_of_ne (fun he : p = h.nextFreeBlock (.block b) =>
      hp (he ▸ hm.2.2.1)) _ _

theorem FreeLists.unlink_ring {d : B × List B} (hd : d ∈ (tries i).rings) (hdc : d ≠ c) :
    Ring (h.unlink b).nextFreeBlock (h.unlink b).prevFreeBlock ((d.1 :: d.2).map .block) := by
  have hne : ∀ p ∈ (d.1 :: d.2).map FreePtr.block, p ∉ (c.1 :: c.2).map FreePtr.block := by
    intro p hp hpc
    obtain ⟨x, hx, rfl⟩ := mem_map.mp hp
    obtain ⟨y, hy, he⟩ := mem_map.mp hpc
    exact hdc (rings_disjoint (H.stored i hilt).nodup hd hc hx (FreePtr.block.inj he ▸ hy))
  apply (H.ring i hilt d hd).congr
  · exact fun p hp => (H.unlink_next hilt hc hb (hne p hp)).1
  · exact fun p hp => (H.unlink_next hilt hc hb (hne p hp)).2

theorem FreeLists.changesLarge_unlink {slots' : Slot ℕ B → Option B} {parent' : B → Option (Slot ℕ B)}
    (hslots : ∀ r, r ≠ .root i → (∀ b side, h.InLarge i b → r ≠ .child b side) →
      slots' r = h.slots r)
    (hparent : ∀ b, ¬ h.InLarge i b → parent' b = h.parent b) :
    ChangesLarge i h { h.unlink b with slots := slots', parent := parent' } := by
  have hne : ∀ p, (∀ b, h.InLarge i b → p ≠ .block b) → p ∉ (c.1 :: c.2).map FreePtr.block := by
    intro p hp hpc
    obtain ⟨y, hy, rfl⟩ := mem_map.mp hpc
    exact hp y ((H.mem_trie i y).mp (mem_blocks_iff.mpr ⟨c, hc, hy⟩)).2 rfl
  refine ⟨rfl, rfl, fun _ _ => rfl, hslots, hparent, ?_, ?_⟩
  · exact fun p hp => (H.unlink_next hilt hc hb (hne p hp)).1
  · exact fun p hp => (H.unlink_next hilt hc hb (hne p hp)).2

end

/-- Unlinking one member of the ring of the node `x` leaves every ring of the trie a ring. -/
theorem FreeLists.unlink_rings (H : FreeLists h S tries smalls) (hilt : i < 64) {y : B}
    {rest s : List B} {left right : BitTrie B} (hc : (x, rest) ∈ (tries i).rings)
    (hb : b ∈ x :: rest) (hfind : (tries i).find x = .node x rest left right)
    (hring : Ring (h.unlink b).nextFreeBlock (h.unlink b).prevFreeBlock ((y :: s).map .block)) :
    ∀ d ∈ ((tries i).replace x (.node y s left right)).rings,
      Ring (h.unlink b).nextFreeBlock (h.unlink b).prevFreeBlock ((d.1 :: d.2).map .block) := by
  have hst := H.stored i hilt
  have hnd := hst.nodup.sublist (find_sublist x (tries i))
  have hsub := find_rings_subset x (tries i)
  rw [hfind] at hnd hsub
  obtain ⟨-, hxl, hxr, -, -, -, -, -⟩ := nodup_node hnd
  intro d hd
  rcases mem_rings_replace hst.nodup (mem_heads_of_ring hc) hd with hd | ⟨hd, hdn⟩
  · rw [rings_node, mem_cons] at hd
    rcases hd with rfl | hd
    · exact hring
    · apply H.unlink_ring hilt hc hb
      · apply hsub
        rw [rings_node]
        exact mem_cons_of_mem _ hd
      · rintro rfl
        rcases mem_append.mp hd with hd | hd
        · exact hxl (mem_blocks_iff.mpr ⟨_, hd, mem_cons_self⟩)
        · exact hxr (mem_blocks_iff.mpr ⟨_, hd, mem_cons_self⟩)
  · apply H.unlink_ring hilt hc hb hd
    rintro rfl
    rw [hfind] at hdn
    simp at hdn

theorem remove_member (H : FreeLists h S tries smalls) (hi : h.InLarge i b) {u v : List B}
    (hc : (x, u ++ b :: v) ∈ (tries i).rings) :
    h.parent b = none ∧ ∃ tries', FreeLists (h.unlink b) (S \ {b}) tries' smalls := by
  have hilt := hi.index_lt
  have hst := H.stored i hilt
  have hb : b ∈ x :: (u ++ b :: v) := by simp
  have hx : x ∈ (tries i).heads := mem_heads_of_ring hc
  obtain ⟨left, right, hfind⟩ := find_of_ring hst.nodup hc
  obtain ⟨q, hpq, -, -⟩ := H.slot_of_head hilt hx
  have hsub := hst.find hx hpq
  rw [hfind] at hsub
  have hsubset : ∀ y ∈ u ++ v, y ∈ u ++ b :: v := by
    intro y hy
    cases mem_append.mp hy with
    | inl hy => exact mem_append_left _ hy
    | inr hy => exact mem_append_right _ (mem_cons_of_mem b hy)
  refine ⟨hst.rep.parent_of_rest hc (by simp), _, H.replaceLarge hi
    (H.changesLarge_unlink hilt hc hb (fun _ _ _ => rfl) fun _ _ => rfl) hx
    (u := .node x (u ++ v) left right) ?_ ?_ ?_ (H.unlink_rings hilt hc hb hfind ?_)
    (H.bit_replace hilt hx fun he => nomatch he)⟩
  · rw [hfind]
    simp only [blocks_node, append_assoc, cons_append]
    exact (perm_middle.cons x).trans (List.Perm.swap b x _)
  · intro k p ho
    rw [hfind] at ho
    obtain ⟨h1, h2, h3, h4, h5, h6⟩ := ho
    exact ⟨h1, fun y hy => h2 y (hsubset y hy), h3, h4, h5, h6⟩
  · apply hst.replace hx hpq (fun _ _ _ => rfl) (fun _ _ => rfl)
    obtain ⟨h1, h2, h3, h4, h5⟩ := hsub.rep
    exact ⟨h1, h2, fun y hy => h3 y (hsubset y hy), h4, h5⟩
  · have hmid : Ring h.nextFreeBlock h.prevFreeBlock
        ((x :: u).map FreePtr.block ++ FreePtr.block b :: v.map FreePtr.block) := by
      simpa using H.ring i hilt _ hc
    simpa [unlink, setNext, setPrev] using hmid.remove_mid (by simp)

theorem remove_node (H : FreeLists h S tries smalls) (hi : h.InLarge i b) {s : List B} {y : B}
    (hc : (b, s ++ [y]) ∈ (tries i).rings) :
    ∃ q h' tries', h.parent b = some q ∧ h.prevFreeBlock (.block b) = .block y ∧
      (h.unlink b).substBlock b y = some h' ∧ FreeLists h' (S \ {b}) tries' smalls := by
  have hilt := hi.index_lt
  have hst := H.stored i hilt
  have hring := H.ring i hilt _ hc
  have hbm : b ∈ b :: (s ++ [y]) := mem_cons_self
  have hb : b ∈ (tries i).heads := mem_heads_of_ring hc
  obtain ⟨left, right, hfind⟩ := find_of_ring hst.nodup hc
  obtain ⟨q, hpq, -, hout⟩ := H.slot_of_head hilt hb
  have hsub := hst.find hb hpq
  have hlarge : ∀ z ∈ ((tries i).find b).blocks, h.InLarge i z := fun z hz =>
    ((H.mem_trie i z).mp ((find_sublist b (tries i)).subset hz)).2
  rw [hfind] at hsub hlarge
  obtain ⟨hbrest, -, -, hndr, -, -, -, hdisj⟩ := nodup_node hsub.nodup
  have hyb : y ≠ b := fun he => hbrest (he ▸ by simp)
  have hyd := hdisj y (by simp)
  have hym : y ∈ (node b (s ++ [y]) left right).blocks := by simp
  have hprev : h.prevFreeBlock (.block b) = .block y := by
    have hring' : Ring h.nextFreeBlock h.prevFreeBlock
        (FreePtr.block b :: (s.map FreePtr.block ++ [FreePtr.block y])) := by
      simpa using hring
    exact hring'.link_last.2
  have hsub' : Stored (h.unlink b).slots (h.unlink b).parent q (node b (s ++ [y]) left right) := hsub
  have hexch := hsub'.exchange s hyd.1 hyd.2 (hsub.outside y hym) (by
    intro z hz
    have hzd := hdisj z (by simp [hz])
    have hzy : z ≠ y := by
      rintro rfl
      exact (nodup_append'.mp hndr).2.2 hz (by simp)
    exact ⟨hzy, hzd.1, hzd.2, hsub.rep.2.2.1 z (by simp [hz])⟩)
  have hparent : ∀ z, z ∉ (node b (s ++ [y]) left right).blocks →
      exchangeParent h.slots h.parent q b y z = h.parent z := fun z hz =>
    hsub.exchangeParent_eq (fun he => hz (he ▸ hym)) hz
  refine ⟨q, _, _, hpq, hprev, substBlock_eq hsub' hyb hyd.1 hyd.2, H.replaceLarge hi
    (H.changesLarge_unlink hilt hc hbm ?_ ?_) hb (u := .node y s left right) ?_ ?_ ?_
    (H.unlink_rings hilt hc hbm hfind ?_) (H.bit_replace hilt hb fun he => nomatch he)⟩
  · intro r hr hrc
    apply exchangeSlots_of_ne (hout r hr hrc)
    exact fun side => hrc y side (hlarge y hym)
  · exact fun z hz => hparent z fun hm => hz (hlarge z hm)
  · rw [hfind]
    simp only [blocks_node, append_assoc, cons_append, nil_append]
    exact perm_middle.cons b
  · intro k p ho
    rw [hfind] at ho
    have hyk := ho.2.1 y (by simp)
    apply ho.exchange
    · rw [hyk]
      exact ho.1
    · intro z hz
      rw [hyk]
      exact ho.2.1 z (by simp [hz])
    · intro z hz
      rw [hyk]
      exact ho.2.2.1 z hz
  · apply hst.replace hb hpq
    · intro r hr hro
      rw [hfind] at hro
      exact exchangeSlots_of_ne hr (hro y hym)
    · rw [hfind]
      exact hparent
    · exact hexch
  · have hmid : Ring h.nextFreeBlock h.prevFreeBlock
        ([] ++ FreePtr.block b :: (s ++ [y]).map FreePtr.block) := by
      simpa using hring
    have hrem : Ring (h.unlink b).nextFreeBlock (h.unlink b).prevFreeBlock
        ([] ++ (s ++ [y]).map FreePtr.block) := hmid.remove_mid (by simp)
    apply hrem.rotate
    rw [nil_append, map_append]
    exact isRotated_append

theorem remove_linked (hprev : h.prevFreeBlock (.block b) ≠ .block b)
    (h1 : h.nextFreeBlock (h.prevFreeBlock (.block b)) = .block b)
    (h2 : h.prevFreeBlock (h.nextFreeBlock (.block b)) = .block b)
    (hs : zendMmSmallSize (h.size b) = false) :
    h.zendMmRemoveFromFreeList b =
      match h.parent b, h.prevFreeBlock (.block b) with
      | none, _ => some (h.unlink b)
      | some _, .block y => (h.unlink b).substBlock b y
      | some _, .smallFreeBucket _ => none := by
  unfold zendMmRemoveFromFreeList
  simp only [hprev, if_false, h1, h2, ne_eq, not_true_eq_false, or_self]
  have hsize : ((h.setNext (h.prevFreeBlock (.block b)) (h.nextFreeBlock (.block b))).setPrev
      (h.nextFreeBlock (.block b)) (h.prevFreeBlock (.block b))).size b = h.size b := rfl
  rw [hsize, hs]
  rfl

theorem remove_large (H : FreeLists h S tries smalls) (hb : b ∈ S) (hi : h.InLarge i b) :
    ∃ h' tries', h.zendMmRemoveFromFreeList b = some h' ∧
      FreeLists h' (S \ {b}) tries' smalls := by
  have hilt := hi.index_lt
  have hst := H.stored i hilt
  obtain ⟨⟨x, rest⟩, hc, hbc⟩ := mem_blocks_iff.mp ((H.mem_trie i b).mpr ⟨hb, hi⟩)
  have hring := H.ring i hilt _ hc
  have hlink := hring.link_mem (x := FreePtr.block b) (mem_map_of_mem hbc)
  rcases mem_cons.mp hbc with rfl | hbr
  · cases hlast : rest using reverseRecOn with
    | nil =>
      subst hlast
      have hself := ring_singleton.mp hring
      have hbh : b ∈ (tries i).heads := mem_heads_of_ring hc
      obtain ⟨left, right, hfind⟩ := find_of_ring hst.nodup hc
      obtain ⟨q, hpq, hsq, -⟩ := H.slot_of_head hilt hbh
      unfold zendMmRemoveFromFreeList
      simp only [hself.1, hself.2, if_true, ne_eq, not_true_eq_false, if_false]
      cases hchild : h.slots (h.lastChild b) with
      | none =>
        have hsub := hst.find hbh hpq
        rw [hfind] at hsub
        -- no right child, or it would have been chosen; no left one, for that was chosen
        have hempty : left = .empty ∧ right = .empty := by
          rw [lastChild_eq hsub.right.rep] at hchild
          by_cases hr : right = .empty
          · subst hr
            exact ⟨hsub.left.rep.eq_empty hchild, rfl⟩
          · rw [isEmpty_eq_false hr] at hchild
            exact absurd (hsub.right.rep.eq_empty hchild) hr
        obtain ⟨rfl, rfl⟩ := hempty
        obtain ⟨tries', hf⟩ := remove_leaf H hi hbh hfind hpq
        simp only [checkTree_eq hpq hsq, hi.2]
        exact ⟨_, tries', rfl, hf⟩
      | some c =>
        obtain ⟨q, y, h', tries', hloop, hsubst, hf⟩ := remove_inner H hi hbh hfind hchild
        simp only [hloop]
        exact ⟨h', tries', hsubst, hf⟩
    | append_singleton s y _ =>
      subst hlast
      obtain ⟨q, h', tries', hpq, hprev, hsubst, hf⟩ := remove_node H hi hc
      have hne : h.prevFreeBlock (.block b) ≠ .block b := by
        intro he
        have := hring.prev_eq_self.mp he
        simp at this
      rw [remove_linked hne hlink.2.1 hlink.1 hi.1, hpq, hprev]
      exact ⟨h', tries', hsubst, hf⟩
  · obtain ⟨u, v, rfl⟩ := append_of_mem hbr
    obtain ⟨hpn, tries', hf⟩ := remove_member H hi hc
    have hrot : Ring h.nextFreeBlock h.prevFreeBlock
        (FreePtr.block b :: (v.map FreePtr.block ++ (x :: u).map FreePtr.block)) := by
      have hmid : Ring h.nextFreeBlock h.prevFreeBlock
          ((x :: u).map FreePtr.block ++ FreePtr.block b :: v.map FreePtr.block) := by
        simpa using hring
      exact hmid.rotate isRotated_append
    have hne : h.prevFreeBlock (.block b) ≠ .block b := by
      intro he
      have := hrot.prev_eq_self.mp he
      simp at this
    rw [remove_linked hne hlink.2.1 hlink.1 hi.1, hpn]
    exact ⟨_, tries', rfl, hf⟩

/-- The ring of small bucket `i` without the block `b`, under any bit map with the right bit. -/
theorem FreeLists.takeSmall (H : FreeLists h S tries smalls) (hilt : i < zendMmNumBuckets)
    (hi : h.InSmall i b) {u v : List B} (huv : smalls i = u ++ b :: v) {bitmap : BitVec 64}
    (hbits : ∀ j, j ≠ i → bitmap.getLsbD j = h.freeBitmap.getLsbD j)
    (hbit : bitmap.getLsbD i = true ↔ u ++ v ≠ [])
    (hring : Ring (h.unlink b).nextFreeBlock (h.unlink b).prevFreeBlock
      (.smallFreeBucket i :: (u ++ v).map .block)) :
    FreeLists { h.unlink b with freeBitmap := bitmap } (S \ {b}) tries
      (Function.update smalls i (u ++ v)) := by
  have hold := H.smallRing i hilt
  have hlink := hold.link_mem (x := FreePtr.block b) (by simp [huv])
  have hbuv : b ∉ u ++ v := by
    have hnd := hold.nodup
    rw [huv, nodup_cons] at hnd
    exact (nodup_cons.mp (nodup_middle.mp (List.Nodup.of_map _ hnd.2))).1
  have hout : ∀ p, p ≠ .smallFreeBucket i → (∀ b, h.InSmall i b → p ≠ .block b) →
      p ∉ FreePtr.smallFreeBucket i :: (smalls i).map FreePtr.block := by
    intro p hp hpb hpm
    rcases mem_cons.mp hpm with he | hpm
    · exact hp he
    · obtain ⟨y, hy, rfl⟩ := mem_map.mp hpm
      exact hpb y ((H.mem_small i y).mp hy).2 rfl
  apply H.setSmall
  · refine ⟨rfl, rfl, hbits, rfl, rfl, ?_, ?_⟩
    · intro p hp hpb
      exact Function.update_of_ne (fun he : p = h.prevFreeBlock (.block b) =>
        hout p hp hpb (he ▸ hlink.2.2.2)) _ _
    · intro p hp hpb
      exact Function.update_of_ne (fun he : p = h.nextFreeBlock (.block b) =>
        hout p hp hpb (he ▸ hlink.2.2.1)) _ _
  · intro x hx
    have hxb : x ≠ b := fun he => hx (he ▸ hi)
    simp [hxb]
  · exact fun x hx => H.minSize x hx.1
  · intro x
    have hm := H.mem_small i x
    rw [huv, perm_middle.mem_iff, mem_cons] at hm
    constructor
    · intro hx
      obtain ⟨hxS, hxi⟩ := hm.mp (Or.inr hx)
      exact ⟨⟨hxS, fun he => hbuv (Set.mem_singleton_iff.mp he ▸ hx)⟩, hxi⟩
    · rintro ⟨⟨hxS, hxb⟩, hxi⟩
      exact (hm.mpr ⟨hxS, hxi⟩).resolve_left hxb
  · exact hring
  · exact hbit

theorem remove_small (H : FreeLists h S tries smalls) (hb : b ∈ S) (hi : h.InSmall i b) :
    ∃ h' smalls', h.zendMmRemoveFromFreeList b = some h' ∧
      FreeLists h' (S \ {b}) tries smalls' := by
  have hilt := H.small_lt hb hi
  have hring := H.smallRing i hilt
  have hbm := (H.mem_small i b).mpr ⟨hb, hi⟩
  have hlink := hring.link_mem (x := FreePtr.block b) (by simp [hbm])
  obtain ⟨u, v, huv⟩ := append_of_mem hbm
  have hmid : Ring h.nextFreeBlock h.prevFreeBlock
      ((FreePtr.smallFreeBucket i :: u.map FreePtr.block) ++
        FreePtr.block b :: v.map FreePtr.block) := by
    rw [huv] at hring
    simpa using hring
  have hrot : Ring h.nextFreeBlock h.prevFreeBlock
      (FreePtr.block b ::
        (v.map FreePtr.block ++ (FreePtr.smallFreeBucket i :: u.map FreePtr.block))) :=
    hmid.rotate isRotated_append
  have hne : h.prevFreeBlock (.block b) ≠ .block b := by
    intro he
    have := hrot.prev_eq_self.mp he
    simp at this
  have hrem : Ring (h.unlink b).nextFreeBlock (h.unlink b).prevFreeBlock
      (.smallFreeBucket i :: (u ++ v).map .block) := by
    simpa [unlink, setNext, setPrev] using hmid.remove_mid (by simp)
  -- a bucket is empty afterwards exactly when the neighbours were one and the same, its own place
  have hsame : h.prevFreeBlock (.block b) = h.nextFreeBlock (.block b) ↔ u ++ v = [] := by
    rw [hrot.prev_eq_next (by simp)]
    constructor
    · rintro ⟨p, hp⟩
      have hlen := congrArg List.length hp
      simp only [length_append, length_map, length_cons, length_nil] at hlen
      apply eq_nil_of_length_eq_zero
      rw [length_append]
      omega
    · intro he
      obtain ⟨rfl, rfl⟩ := append_eq_nil_iff.mp he
      exact ⟨_, rfl⟩
  have hbit := (H.smallBitmap i hilt).mpr (ne_nil_of_mem hbm)
  unfold zendMmRemoveFromFreeList
  simp only [hne, if_false, hlink.1, hlink.2.1, ne_eq, not_true_eq_false, or_self]
  change ∃ h' smalls', (if zendMmSmallSize (h.size b) = true then
    if h.prevFreeBlock (.block b) = h.nextFreeBlock (.block b) then
      if (h.unlink b).prevFreeBlock (.smallFreeBucket (zendMmBucketIndex (h.size b))) =
          (h.unlink b).nextFreeBlock (.smallFreeBucket (zendMmBucketIndex (h.size b))) then
        some { h.unlink b with
          freeBitmap := h.freeBitmap &&& ~~~(1#64 <<< zendMmBucketIndex (h.size b)) }
      else some (h.unlink b)
    else some (h.unlink b)
    else _) = some h' ∧ _
  rw [if_pos hi.1, hi.2]
  by_cases huvn : u ++ v = []
  · rw [if_pos (hsame.mpr huvn)]
    have hself : (h.unlink b).prevFreeBlock (.smallFreeBucket i) =
        (h.unlink b).nextFreeBlock (.smallFreeBucket i) := by
      rw [huvn] at hrem
      have := ring_singleton.mp hrem
      rw [this.1, this.2]
    rw [if_pos hself]
    have hbits := getLsbD_clear h.freeBitmap hilt
    refine ⟨_, _, rfl, H.takeSmall hilt hi huv hbits.2 ?_ hrem⟩
    rw [hbits.1, huvn]
    simp
  · rw [if_neg fun he => huvn (hsame.mp he)]
    exact ⟨_, _, rfl, H.takeSmall hilt hi huv (fun _ _ => rfl)
      ⟨fun _ => huvn, fun _ => hbit⟩ hrem⟩

theorem remove_ok (H : FreeLists h S tries smalls) (hb : b ∈ S) :
    ∃ h' tries' smalls', h.zendMmRemoveFromFreeList b = some h' ∧
      FreeLists h' (S \ {b}) tries' smalls' := by
  cases hs : zendMmSmallSize (h.size b) with
  | false =>
    obtain ⟨h', tries', ha, hf⟩ := remove_large H hb ⟨hs, rfl⟩
    exact ⟨h', tries', smalls, ha, hf⟩
  | true =>
    obtain ⟨h', smalls', ha, hf⟩ := remove_small H hb ⟨hs, rfl⟩
    exact ⟨h', tries, smalls', ha, hf⟩

end Php53.Zend.MmHeap
