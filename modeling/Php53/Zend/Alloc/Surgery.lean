import Php53.Zend.Alloc.Sizes

/-!
# Surgery — the loops and the pointer writes on a stored trie

Each loop over the tries is run on a stored trie and gives what the trie operation says: the loop of
the insertion finds the free slot or the node of the same size, the loop of the removal the last
leaf, and `subst_block` makes the writes of an exchange.
-/

open Reasoning Reasoning.BitTrie

namespace Php53.Zend.MmHeap

variable {B : Type} [DecidableEq B]

variable {b x : B} {fuel : ℕ}

def key (h : MmHeap B) (b : B) : ℕ := (h.size b).toNat

variable {h : MmHeap B} {t : BitTrie B} {p : Slot ℕ B}

omit [DecidableEq B] in
theorem size_eq_iff : h.size x = h.size b ↔ h.key x = h.key b :=
  BitVec.toNat_inj.symm

theorem checkTree_eq (hp : h.parent b = some p) (hs : h.slots p = some b) :
    h.checkTree b = some p := by
  unfold checkTree
  simp only [hp, hs, if_true]

theorem addLoop_here {size m : BitVec 64} (hp : h.slots p = some x) (hx : h.size x = size)
    : h.addLoop b size (fuel + 1) m p = some (h.joinRing x b) := by
  unfold addLoop
  simp [hp, hx]

theorem addLoop_step {size m : BitVec 64} {side : Bool} (hp : h.slots p = some x)
    (hx : h.size x ≠ size) (hm : (m >>> (zendMmNumBuckets - 1) &&& 1 == 1) = side) :
    h.addLoop b size (fuel + 1) m p =
      if h.slots (.child x side) = none then some (h.plant (.child x side) b)
      else h.addLoop b size fuel (m <<< 1) (.child x side) := by
  rw [addLoop]
  simp only [hp, ne_eq, hx, not_false_eq_true, if_true, hm]
  cases h.slots (.child x side) with
  | none => rfl
  | some c =>
    rw [if_neg (Option.some_ne_none c)]

theorem addLoop_eq {k pfx : ℕ} (hrep : Rep h.slots h.parent p t) (hne : t ≠ .empty)
    (hord : Ordered h.key k pfx t) (hb : h.key b / 2 ^ k = pfx) (hk : k < 64) (hfuel : k < fuel) :
    h.addLoop b (h.size b) fuel (h.size b <<< (64 - k)) p =
      match spot h.key b k p t with
      | .inl q => some (h.plant q b)
      | .inr x => some (h.joinRing x b) := by
  induction t generalizing k pfx p fuel with
  | empty => exact absurd rfl hne
  | node x rest left right ihl ihr =>
    obtain ⟨hx, -, -, hzero, hl, hr⟩ := hord
    obtain ⟨hsx, -, -, hrl, hrr⟩ := hrep
    obtain ⟨fuel, rfl⟩ : ∃ n, fuel = n + 1 := ⟨fuel - 1, by omega⟩
    by_cases hkey : h.key x = h.key b
    · rw [addLoop_here hsx (size_eq_iff.mpr hkey)]
      unfold spot
      rw [if_pos hkey]
    · have hsize : h.size x ≠ h.size b := fun he => hkey (size_eq_iff.mp he)
      have hk0 : k ≠ 0 := by
        intro hk0
        subst hk0
        simp only [Nat.pow_zero, Nat.div_one] at hx hb
        exact hkey (hx.trans hb.symm)
      have hbits := div_two_pow_pred (n := h.key b) hk0
      rw [hb] at hbits
      rw [addLoop_step hsx hsize (shiftLeft_msb _ hk0 (by omega)), shiftLeft_next _ hk0 (by omega)]
      unfold spot
      rw [if_neg hkey, show (h.size b).toNat.testBit (k - 1) = (h.key b).testBit (k - 1) from rfl]
      -- the side is the bit; below it the slot is free or the walk goes on
      cases hside : (h.key b).testBit (k - 1) with
      | true =>
        rw [if_pos (rfl : true = true)]
        rw [hside] at hbits
        by_cases hslot : h.slots (.child x true) = none
        · rw [if_pos hslot, hrr.eq_empty hslot]
          rfl
        · rw [if_neg hslot]
          have hne : right ≠ .empty := by
            intro he
            rw [he] at hrr
            exact hslot hrr
          exact ihr hrr hne hr hbits (by omega) (by omega)
      | false =>
        rw [if_neg Bool.false_ne_true]
        rw [hside] at hbits
        by_cases hslot : h.slots (.child x false) = none
        · rw [if_pos hslot, hrl.eq_empty hslot]
          rfl
        · rw [if_neg hslot]
          have hne : left ≠ .empty := by
            intro he
            rw [he] at hrl
            exact hslot hrl
          exact ihl hrl hne hl hbits (by omega) (by omega)

omit [DecidableEq B] in
theorem lastChild_eq {right : BitTrie B} (hrr : Rep h.slots h.parent (.child x true) right) :
    h.lastChild x = .child x (!right.isEmpty) := by
  unfold lastChild
  rw [hrr.slot_isSome]

omit [DecidableEq B] in
theorem leafLoop_leaf (hx : h.slots (h.lastChild x) = none) :
    h.leafLoop (fuel + 1) p x = some (p, x) := by
  unfold leafLoop
  simp only [hx]

omit [DecidableEq B] in
theorem leafLoop_step {c : B} (hx : h.slots (h.lastChild x) = some c) :
    h.leafLoop (fuel + 1) p x = h.leafLoop fuel (h.lastChild x) c := by
  rw [leafLoop]
  simp only [hx]

omit [DecidableEq B] in
theorem leafLoop_eq {k pfx : ℕ} (hrep : Rep h.slots h.parent p t) (hx : h.slots p = some x)
    (hord : Ordered h.key k pfx t) (hfuel : k < fuel) :
    ∃ q y ys, h.leafLoop fuel p x = some (q, y) ∧ t.lastLeaf = some (y, ys) ∧
      h.parent y = some q := by
  induction t generalizing k pfx p x fuel with
  | empty => exact nomatch hx.symm.trans hrep
  | node z rest left right ihl ihr =>
    obtain ⟨-, -, -, hzero, hl, hr⟩ := hord
    obtain ⟨hsz, hpz, -, hrl, hrr⟩ := hrep
    obtain rfl : z = x := Option.some.inj (hsz.symm.trans hx)
    obtain ⟨fuel, rfl⟩ : ∃ n, fuel = n + 1 := ⟨fuel - 1, by omega⟩
    have hlast := lastChild_eq hrr
    rcases lastLeaf_cases z rest left right with ⟨rfl, rfl, hc⟩ | ⟨hne, rfl, hc⟩ | ⟨hne, hc⟩
    · have hslot : h.slots (h.lastChild z) = none := by
        rw [hlast]
        exact hrl
      exact ⟨p, z, rest, leafLoop_leaf hslot, hc, hpz⟩
    · have hk : k ≠ 0 := fun hk => hne (hzero hk).1
      rw [isEmpty_empty, Bool.not_true] at hlast
      obtain ⟨c, hslot⟩ : ∃ c, h.slots (.child z false) = some c := by
        apply Option.isSome_iff_exists.mp
        rw [hrl.slot_isSome, isEmpty_eq_false hne]
        rfl
      obtain ⟨q, y, ys, hloop, hleaf, hy⟩ := ihl hrl hslot hl (show k - 1 < fuel by omega)
      refine ⟨q, y, ys, ?_, hc.trans hleaf, hy⟩
      rw [leafLoop_step (hlast ▸ hslot), hlast]
      exact hloop
    · have hk : k ≠ 0 := fun hk => hne (hzero hk).2
      rw [isEmpty_eq_false hne, Bool.not_false] at hlast
      obtain ⟨c, hslot⟩ : ∃ c, h.slots (.child z true) = some c := by
        apply Option.isSome_iff_exists.mp
        rw [hrr.slot_isSome, isEmpty_eq_false hne]
        rfl
      obtain ⟨q, y, ys, hloop, hleaf, hy⟩ := ihr hrr hslot hr (show k - 1 < fuel by omega)
      refine ⟨q, y, ys, ?_, hc.trans hleaf, hy⟩
      rw [leafLoop_step (hlast ▸ hslot), hlast]
      exact hloop

theorem moveChild_eq {y : B} {side : Bool}
    (hc : ∀ c, h.slots (.child b side) = some c → h.parent c = some (.child b side)) (hyb : y ≠ b) :
    h.moveChild b y side = some { h with
      slots := Function.update h.slots (.child y side) (h.slots (.child b side))
      parent := updateAt h.parent (h.slots (.child b side)) (some (.child y side)) } := by
  have hby : Slot.child (R := ℕ) b side ≠ .child y side := fun he => hyb (Slot.child.inj he).1.symm
  unfold moveChild
  simp only [setSlot, setParent]
  rw [Function.update_self]
  cases hslot : h.slots (.child b side) with
  | none => rfl
  | some c =>
    have hcheck := checkTree_eq (h := { h with
      slots := Function.update h.slots (.child y side) (some c) }) (hc c hslot) (by
        show Function.update h.slots (.child y side) (some c) (.child b side) = some c
        rw [Function.update_of_ne hby, hslot])
    simp only [hcheck]
    rfl

theorem substBlock_eq {y : B} {rest : List B} {left right : BitTrie B}
    (hst : Stored h.slots h.parent p (.node b rest left right)) (hyb : y ≠ b)
    (hyl : y ∉ left.blocks) (hyr : y ∉ right.blocks) :
    h.substBlock b y = some { h with
      slots := exchangeSlots h.slots p b y
      parent := exchangeParent h.slots h.parent p b y } := by
  obtain ⟨-, hbl, hbr, -, -, -, hdisj, -⟩ := nodup_node hst.nodup
  have hpb : ∀ side, Slot.child b side ≠ p := fun side => (hst.outside b (by simp) side).symm
  have hby : ∀ side side', Slot.child (R := ℕ) b side ≠ .child y side' := fun side side' he =>
    hyb (Slot.child.inj he).1.symm
  unfold substBlock
  rw [checkTree_eq hst.rep.2.1 hst.rep.1]
  have hleft : ∀ c, h.slots (.child b false) = some c → c ≠ y ∧ c ∈ left.blocks := by
    intro c hc
    have hm := heads_subset left (hst.left.rep.mem_of_slot hc)
    exact ⟨fun he => hyl (he ▸ hm), hm⟩
  have hright : ∀ c, h.slots (.child b true) = some c → c ≠ y ∧ c ∈ right.blocks := by
    intro c hc
    have hm := heads_subset right (hst.right.rep.mem_of_slot hc)
    exact ⟨fun he => hyr (he ▸ hm), hm⟩
  simp only
  rw [moveChild_eq _ hyb, Option.bind_some, moveChild_eq _ hyb]
  · simp only [setSlot, setParent, exchangeSlots, exchangeParent]
    rw [Function.update_of_ne (hpb false), Function.update_of_ne (hby true false),
      Function.update_of_ne (hpb true)]
  · intro c hc
    simp only [setSlot, setParent] at hc ⊢
    rw [Function.update_of_ne (hby true false), Function.update_of_ne (hpb true)] at hc
    obtain ⟨hcy, hcr⟩ := hright c hc
    rw [Function.update_of_ne (hpb false), updateAt_of_ne, Function.update_of_ne hcy]
    · exact hst.right.rep.parent_of_slot hc
    · exact fun he => hdisj c (hleft c he).2 hcr
  · intro c hc
    simp only [setSlot, setParent] at hc ⊢
    rw [Function.update_of_ne (hpb false)] at hc
    rw [Function.update_of_ne (hleft c hc).1]
    exact hst.left.rep.parent_of_slot hc

end Php53.Zend.MmHeap
