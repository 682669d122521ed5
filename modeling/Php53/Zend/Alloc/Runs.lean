import Php53.Reasoning.Run
import Php53.Zend.Alloc.Remove

/-!
# Runs — the free lists after any sequence of calls

The blocks that are not on the lists belong to others, who write to all of their fields, the size
among them; a run may do that between any two calls.
-/

open Reasoning Reasoning.BitTrie

namespace Php53.Zend.MmHeap

variable {B : Type} [DecidableEq B]

/-- One step of a run; `write h'` replaces the memory of the blocks that are not on the lists. -/
inductive MmOp (B : Type)
  | add (b : B)
  | remove (b : B)
  | write (h' : MmHeap B)

def mmStep : MmHeap B × Set B → MmOp B → Option (MmHeap B × Set B)
  | (h, S), .add b => (h.zendMmAddToFreeList b).map fun h' => (h', insert b S)
  | (h, S), .remove b => (h.zendMmRemoveFromFreeList b).map fun h' => (h', S \ {b})
  | (_, S), .write h' => some (h', S)

def MmPermitted : MmHeap B × Set B → MmOp B → Prop
  | (h, S), .add b => b ∉ S ∧ zendMmAlignedMinHeaderSize ≤ h.size b
  | (_, S), .remove b => b ∈ S
  | (h, S), .write h' => AgreesOn S h h'

variable {h h' : MmHeap B} {S : Set B} {tries : ℕ → BitTrie B} {smalls : ℕ → List B}

omit [DecidableEq B] in
theorem freeLists_init (h : MmHeap B) :
    FreeLists h.zendMmInit ∅ (fun _ => .empty) fun _ => [] := by
  constructor
  case minSize => exact fun b hb => absurd hb (Set.notMem_empty b)
  case mem_trie => simp
  case stored =>
    intro i hi
    refine ⟨?_, List.nodup_nil, outside_root i _⟩
    show (if i < 64 then none else _) = none
    rw [if_pos hi]
  case ordered => exact fun _ _ => trivial
  case ring => simp
  case largeBitmap =>
    intro i _
    show (0 : BitVec 64).getLsbD i = true ↔ _
    simp
  case mem_small => simp
  case smallRing =>
    intro i hi
    apply ring_singleton.mpr
    constructor
    · show (if i < 64 then FreePtr.smallFreeBucket i else _) = _
      rw [if_pos hi]
    · show (if i < 64 then FreePtr.smallFreeBucket i else _) = _
      rw [if_pos hi]
  case smallBitmap =>
    intro i _
    show (0 : BitVec 64).getLsbD i = true ↔ _
    simp

theorem FreeLists.step (H : FreeLists h S tries smalls) {op : MmOp B} (hop : MmPermitted (h, S) op) :
    ∃ h' S' tries' smalls', mmStep (h, S) op = some (h', S') ∧ FreeLists h' S' tries' smalls' := by
  cases op with
  | add b =>
    obtain ⟨h', tries', smalls', ha, hf⟩ := add_ok H hop.1 hop.2
    refine ⟨h', _, tries', smalls', ?_, hf⟩
    show (h.zendMmAddToFreeList b).map _ = _
    rw [ha]
    rfl
  | remove b =>
    obtain ⟨h', tries', smalls', ha, hf⟩ := remove_ok H hop
    refine ⟨h', _, tries', smalls', ?_, hf⟩
    show (h.zendMmRemoveFromFreeList b).map _ = _
    rw [ha]
    rfl
  | write h' => exact ⟨h', S, tries, smalls, rfl, H.congr hop⟩

theorem freeLists_of_run {h₀ : MmHeap B} {ops : List (MmOp B)}
    (hrun : Run mmStep MmPermitted (h₀.zendMmInit, ∅) ops (h, S)) :
    ∃ tries smalls, FreeLists h S tries smalls := by
  have hinv := hrun.invariant (I := fun s => ∃ tries smalls, FreeLists s.1 s.2 tries smalls)
    ⟨_, _, freeLists_init h₀⟩ (by
      rintro ⟨h, S⟩ op t ⟨tries, smalls, H⟩ hok hst
      obtain ⟨h', S', tries', smalls', hs, hf⟩ := H.step hok
      obtain rfl := Option.some.inj (hs.symm.trans hst)
      exact ⟨tries', smalls', hf⟩)
  exact hinv

def nodeAt (h : MmHeap B) : Slot ℕ B → List Bool → Option (Slot ℕ B × B)
  | p, [] => (h.slots p).map fun b => (p, b)
  | p, side :: path => (h.slots p).bind fun b => h.nodeAt (.child b side) path

omit [DecidableEq B] in
theorem nodeAt_spec {t : BitTrie B} {p q : Slot ℕ B} {b : B} {path : List Bool} {k pfx : ℕ}
    (hrep : Rep h.slots h.parent p t) (hord : Ordered h.key k pfx t)
    (hn : h.nodeAt p path = some (q, b)) :
    b ∈ t.heads ∧ h.parent b = some q ∧ path.length ≤ k ∧
      ∀ d (hd : d < path.length), path[d] = (h.size b).getLsbD (k - 1 - d) := by
  induction path generalizing t p k pfx with
  | nil =>
    unfold nodeAt at hn
    obtain ⟨x, hx, he⟩ := Option.map_eq_some_iff.mp hn
    obtain ⟨rfl, rfl⟩ := Prod.mk.inj he
    refine ⟨hrep.mem_of_slot hx, hrep.parent_of_slot hx, Nat.zero_le k, ?_⟩
    intro d hd
    exact absurd hd (Nat.not_lt_zero d)
  | cons side path ih =>
    rw [nodeAt] at hn
    obtain ⟨x, hx, hn⟩ := Option.bind_eq_some_iff.mp hn
    cases t with
    | empty => exact nomatch hx.symm.trans hrep
    | node z rest left right =>
      obtain rfl := Option.some.inj (hx.symm.trans hrep.1)
      have hl := hord.testBit_left
      have hr := hord.testBit_right
      obtain ⟨-, -, -, hzero, hordl, hordr⟩ := hord
      obtain ⟨-, -, -, hrepl, hrepr⟩ := hrep
      -- the step chosen, and the rest of the way below it
      have hgo : b ∈ (node x rest left right).heads ∧ h.parent b = some q ∧ k ≠ 0 ∧
          path.length ≤ k - 1 ∧ side = (h.key b).testBit (k - 1) ∧
          ∀ d (hd : d < path.length), path[d] = (h.size b).getLsbD (k - 1 - 1 - d) := by
        cases side with
        | false =>
          obtain ⟨h1, h2, h3, h4⟩ := ih hrepl hordl hn
          refine ⟨by simp [h1], h2, ?_, h3, (hl b (heads_subset left h1)).symm, h4⟩
          intro hk
          rw [(hzero hk).1] at h1
          simp at h1
        | true =>
          obtain ⟨h1, h2, h3, h4⟩ := ih hrepr hordr hn
          refine ⟨by simp [h1], h2, ?_, h3, (hr b (heads_subset right h1)).symm, h4⟩
          intro hk
          rw [(hzero hk).2] at h1
          simp at h1
      obtain ⟨h1, h2, hk, h3, h4, h5⟩ := hgo
      refine ⟨h1, h2, by simp; omega, ?_⟩
      intro d hd
      cases d with
      | zero =>
        rw [List.getElem_cons_zero, h4, Nat.sub_zero]
        exact BitVec.testBit_toNat _
      | succ d =>
        rw [List.getElem_cons_succ, h5, show k - 1 - (d + 1) = k - 1 - 1 - d by omega]

omit [DecidableEq B] in
theorem exists_nodeAt {t : BitTrie B} {p : Slot ℕ B} {b : B} (hrep : Rep h.slots h.parent p t)
    (hb : b ∈ t.heads) : ∃ path q, h.nodeAt p path = some (q, b) := by
  induction t generalizing p with
  | empty => simp at hb
  | node x rest left right ihl ihr =>
    obtain ⟨hx, -, -, hl, hr⟩ := hrep
    simp only [heads_node, List.mem_cons, List.mem_append] at hb
    rcases hb with rfl | hb | hb
    · exact ⟨[], p, by simp [nodeAt, hx]⟩
    · obtain ⟨path, q, hn⟩ := ihl hl hb
      exact ⟨false :: path, q, by simp [nodeAt, hx, hn]⟩
    · obtain ⟨path, q, hn⟩ := ihr hr hb
      exact ⟨true :: path, q, by simp [nodeAt, hx, hn]⟩

omit [DecidableEq B] in
theorem FreeLists.ring_of_size (H : FreeLists h S tries smalls) {i : ℕ} (hi : i < 64)
    {c : B × List B} (hc : c ∈ (tries i).rings) :
    (∀ b, b ∈ c.1 :: c.2 ↔ b ∈ S ∧ h.size b = h.size c.1) ∧
      (∃ p, h.parent c.1 = some p ∧ h.slots p = some c.1) ∧ ∀ b ∈ c.2, h.parent b = none := by
  have hst := H.stored i hi
  have hc1 : c.1 ∈ (tries i).blocks := mem_blocks_iff.mpr ⟨c, hc, List.mem_cons_self⟩
  refine ⟨?_, ?_, fun b hb => hst.rep.parent_of_rest hc hb⟩
  · intro b
    constructor
    · intro hb
      refine ⟨((H.mem_trie i b).mp (mem_blocks_iff.mpr ⟨c, hc, hb⟩)).1, ?_⟩
      rcases List.mem_cons.mp hb with rfl | hb
      · rfl
      · exact size_eq_iff.mpr ((H.ordered i hi).ring_eq c hc b hb)
    · rintro ⟨hbS, hbs⟩
      have hbi : h.InLarge i b := by
        have hci := ((H.mem_trie i c.1).mp hc1).2
        unfold InLarge
        rw [hbs]
        exact hci
      exact (H.ordered i hi).mem_ring hc ((H.mem_trie i b).mpr ⟨hbS, hbi⟩) (size_eq_iff.mp hbs)
  · obtain ⟨p, hp, hs, -⟩ := hst.parent_of_head (b := c.1) (by
      rw [heads_eq_map]
      exact List.mem_map_of_mem hc)
    exact ⟨p, hp, hs⟩

/-- After any sequence of calls the large bucket `i` holds a trie of the blocks whose size has
    highest bit `i`, one node and one ring for each size, each node in the slot its parent field
    names and below child fields that spell its bits; the small buckets hold rings, and the bitmaps
    say which buckets are not empty.  No call has failed on the way, nor does the next one. -/
theorem free_lists_hold (h₀ : MmHeap B) (ops : List (MmOp B))
    (hrun : Run mmStep MmPermitted (h₀.zendMmInit, ∅) ops (h, S)) :
    (∃ tries smalls, FreeLists h S tries smalls ∧
      (∀ i < 64, ∀ c ∈ (tries i).rings,
        (∀ b, b ∈ c.1 :: c.2 ↔ b ∈ S ∧ h.size b = h.size c.1) ∧
          (∃ p, h.parent c.1 = some p ∧ h.slots p = some c.1) ∧ ∀ b ∈ c.2, h.parent b = none) ∧
      (∀ i < 64, ∀ b, b ∈ (tries i).heads ↔ ∃ path p, h.nodeAt (.root i) path = some (p, b)) ∧
      ∀ i < 64, ∀ path p b, h.nodeAt (.root i) path = some (p, b) →
        h.parent b = some p ∧ path.length ≤ i ∧
          ∀ d (hd : d < path.length), path[d] = (h.size b).getLsbD (i - 1 - d)) ∧
    ∀ op, MmPermitted (h, S) op → (mmStep (h, S) op).isSome := by
  obtain ⟨tries, smalls, H⟩ := freeLists_of_run hrun
  refine ⟨⟨tries, smalls, H, ?_, ?_, ?_⟩, ?_⟩
  · exact fun i hi c hc => H.ring_of_size hi hc
  · intro i hi b
    constructor
    · exact fun hb => exists_nodeAt (H.stored i hi).rep hb
    · rintro ⟨path, p, hn⟩
      exact (nodeAt_spec (H.stored i hi).rep (H.ordered i hi) hn).1
  · intro i hi path p b hn
    exact (nodeAt_spec (H.stored i hi).rep (H.ordered i hi) hn).2
  · intro op hop
    obtain ⟨h', S', -, -, hs, -⟩ := H.step hop
    rw [hs]
    rfl

/-- Unused memory, with a block of 2000 bytes at the address 1 and 1104 bytes at the others. -/
def sampleHeap : MmHeap ℕ where
  freeBitmap := 0
  largeFreeBitmap := 0
  slots := fun _ => none
  parent := fun _ => none
  nextFreeBlock := id
  prevFreeBlock := id
  size := fun b => if b = 1 then 2000 else 1104

theorem free_lists_hold_sample : ∃ h S, ∃ tries smalls, S = ({1, 2} \ {1} : Set ℕ) ∧
    Run mmStep MmPermitted (sampleHeap.zendMmInit, ∅) [.add 2, .add 1, .remove 1] (h, S) ∧
    FreeLists h S tries smalls := by
  have hrun : ∃ h, Run mmStep MmPermitted (sampleHeap.zendMmInit, ∅)
      ([] ++ [MmOp.add 2] ++ [MmOp.add 1] ++ [MmOp.remove 1])
      (h, (insert 1 (insert 2 ∅) \ {1} : Set ℕ)) := by
    refine ⟨_, Run.snoc (t := (_, _)) (Run.snoc (t := (_, _)) (Run.snoc (Run.nil _) ?_ rfl) ?_ rfl)
      ?_ rfl⟩
    · exact ⟨by simp, by decide⟩
    · exact ⟨by simp, by decide⟩
    · exact Set.mem_insert _ _
  obtain ⟨h, hrun⟩ := hrun
  obtain ⟨⟨tries, smalls, H, -⟩, -⟩ := free_lists_hold sampleHeap _ hrun
  exact ⟨h, _, tries, smalls, by simp, hrun, H⟩

end Php53.Zend.MmHeap
