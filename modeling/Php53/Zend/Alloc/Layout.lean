import Php53.Zend.Alloc.Calls

/-!
# Layout — sizes, and what the steps of the calls do to the blocks

The sizes that the calls compute are aligned and never smaller than asked for.  A block that is
joined to its neighbours, split, or given back changes the entries of its own segment alone, and
the free blocks stay those of the free lists.
-/

namespace Php53.Zend

open List

theorem toNat_clearLow (x : BitVec 64) (k : ℕ) :
    (x &&& ~~~(BitVec.ofNat 64 (2 ^ k - 1))).toNat = x.toNat / 2 ^ k * 2 ^ k := by
  have hshift : x &&& ~~~(BitVec.ofNat 64 (2 ^ k - 1)) = (x >>> k) <<< k := by
    apply BitVec.eq_of_getLsbD_eq
    intro i hi
    rw [BitVec.getLsbD_and, BitVec.getLsbD_not, BitVec.getLsbD_ofNat, Nat.testBit_two_pow_sub_one,
      BitVec.getLsbD_shiftLeft, BitVec.getLsbD_ushiftRight]
    by_cases hik : i < k
    · simp [hi, hik]
    · simp [hi, hik, show k + (i - k) = i by omega]
  have hle : x.toNat / 2 ^ k * 2 ^ k ≤ x.toNat := Nat.div_mul_le_self _ _
  rw [hshift, BitVec.toNat_shiftLeft, BitVec.toNat_ushiftRight, Nat.shiftRight_eq_div_pow,
    Nat.shiftLeft_eq, Nat.mod_eq_of_lt (Nat.lt_of_le_of_lt hle x.isLt)]

theorem zendMmAlignedHeaderSize_eq : zendMmAlignedHeaderSize = 16 := by decide

theorem zendMmAlignedSegmentSize_eq : zendMmAlignedSegmentSize = 16 := by decide

theorem zendMmMinSize_eq : zendMmMinSize = 16 := by decide

theorem zendMmTrueSize_spec {size : BitVec 64}
    (h : ¬(zendMmSmallSize (zendMmTrueSize size) = true ∧ zendMmTrueSize size < size)) :
    BlockSize (zendMmTrueSize size) := by
  rw [zendMmSmallSize_iff, BitVec.lt_def] at h
  have hsize := size.isLt
  unfold zendMmTrueSize at h ⊢
  rw [zendMmAlignedMinHeaderSize_eq, zendMmAlignedHeaderSize_eq, zendMmMinSize_eq] at h ⊢
  by_cases hmin : size < 16
  · rw [if_pos hmin]
    exact ⟨by decide, by decide⟩
  · rw [if_neg hmin] at h ⊢
    have hge : 16 ≤ size.toNat := Nat.le_of_not_lt hmin
    have hround := toNat_clearLow (size + 16 + 8 - 1) 3
    have haligned : zendMmAlignedSize (size + 16) =
        (size + 16 + 8 - 1) &&& ~~~(BitVec.ofNat 64 (2 ^ 3 - 1)) := rfl
    rw [← haligned] at hround
    rw [show size + 16 + 8 - 1 = size + 23 by rw [add_assoc, add_sub_assoc]; rfl,
      BitVec.toNat_add, show (23 : BitVec 64).toNat = 23 by decide] at hround
    unfold BlockSize
    omega

variable {trueSize : BitVec 64}

theorem segmentSize_spec {h : ZendMmHeap} {k : ℕ} (hblockSize : h.blockSize.toNat = 2 ^ k)
    (hk : 5 ≤ k) (htrue : BlockSize trueSize) (hfits : ¬ h.segmentSize trueSize < trueSize) :
    trueSize.toNat + 32 ≤ (h.segmentSize trueSize).toNat ∧
      (h.segmentSize trueSize).toNat % 8 = 0 := by
  have hlt := h.blockSize.isLt
  rw [hblockSize, Nat.pow_lt_pow_iff_right (by decide)] at hlt
  have hhalf : 2 ^ k ≤ 2 ^ 63 := Nat.pow_le_pow_right (by decide) (by omega)
  have hsize := trueSize.isLt
  have hpow : 2 ^ k = 2 ^ (k - 5) * 32 := by
    rw [show (32 : ℕ) = 2 ^ 5 by decide, ← pow_add, Nat.sub_add_cancel hk]
  have hpos : 0 < 2 ^ (k - 5) := Nat.pow_pos (by decide)
  rw [BitVec.lt_def] at hfits
  unfold ZendMmHeap.segmentSize at hfits ⊢
  rw [zendMmAlignedHeaderSize_eq, zendMmAlignedSegmentSize_eq] at hfits ⊢
  have hheaders : (h.blockSize - (16 + 16)).toNat = 2 ^ k - 32 := by
    rw [BitVec.toNat_sub_of_le (by rw [BitVec.le_def, hblockSize]; show 32 ≤ 2 ^ k; omega),
      hblockSize]
    rfl
  by_cases hbig : trueSize > h.blockSize - (16 + 16)
  · rw [if_pos hbig] at hfits ⊢
    have hmask : h.blockSize - 1 = BitVec.ofNat 64 (2 ^ k - 1) := by
      apply BitVec.eq_of_toNat_eq
      rw [BitVec.toNat_sub_of_le (by rw [BitVec.le_def, hblockSize]; show 1 ≤ 2 ^ k; omega),
        hblockSize, BitVec.toNat_ofNat, Nat.mod_eq_of_lt (by omega)]
      rfl
    have hround := toNat_clearLow (trueSize + 16 + 16 + (h.blockSize - 1)) k
    rw [← hmask] at hround
    have hmasked : (h.blockSize - 1).toNat = 2 ^ k - 1 := by
      rw [hmask, BitVec.toNat_ofNat, Nat.mod_eq_of_lt (by omega)]
    rw [BitVec.toNat_add, add_assoc trueSize, BitVec.toNat_add, hmasked,
      show (16 + 16 : BitVec 64).toNat = 32 by decide] at hround
    have hdiv := Nat.div_add_mod
      (((trueSize.toNat + 32) % 2 ^ 64 + (2 ^ k - 1)) % 2 ^ 64) (2 ^ k)
    have hmod := Nat.mod_lt
      (((trueSize.toNat + 32) % 2 ^ 64 + (2 ^ k - 1)) % 2 ^ 64) (Nat.pow_pos (n := k) Nat.two_pos)
    rw [Nat.mul_comm] at hdiv
    have hmul : ∀ q, q * 2 ^ k % 8 = 0 := by
      intro q
      rw [hpow, ← Nat.mul_assoc]
      omega
    have hsame := hmul ((((trueSize.toNat + 32) % 2 ^ 64 + (2 ^ k - 1)) % 2 ^ 64) / 2 ^ k)
    have htrue := htrue.1
    dsimp only at hfits ⊢
    rw [← add_assoc trueSize] at hround
    rw [hround] at hfits ⊢
    omega
  · rw [if_neg hbig] at hfits ⊢
    rw [gt_iff_lt, BitVec.lt_def, hheaders] at hbig
    rw [hblockSize]
    have htrue := htrue.1
    omega

theorem toNat_segmentBlock {segmentSize : BitVec 64} (h : 32 ≤ segmentSize.toNat) :
    (segmentSize - zendMmAlignedSegmentSize - zendMmAlignedHeaderSize).toNat =
      segmentSize.toNat - 32 := by
  rw [zendMmAlignedSegmentSize_eq, zendMmAlignedHeaderSize_eq, sub_sub,
    BitVec.toNat_sub_of_le (by rw [BitVec.le_def]; exact h)]
  rfl

theorem toNat_add_of_lt {a b : BitVec 64} (h : a.toNat + b.toNat < 2 ^ 64) :
    (a + b).toNat = a.toNat + b.toNat := by
  rw [BitVec.toNat_add, Nat.mod_eq_of_lt h]

theorem BlockSize.add {a b : BitVec 64} (ha : BlockSize a) (hb : BlockSize b)
    (hsum : (a + b).toNat = a.toNat + b.toNat) : BlockSize (a + b) := by
  unfold BlockSize at ha hb ⊢
  omega

namespace ZendMmHeap

variable {h : ZendMmHeap} {pl : MmPlace} {p : MmPtr}

def listed (h : ZendMmHeap) : Multiset MmPtr := (h.freeBlocks : Multiset MmPtr) + h.restBlocks

def withLists (h : ZendMmHeap) (freeBlocks restBlocks : List MmPtr) : ZendMmHeap :=
  { h with freeBlocks := freeBlocks, restBlocks := restBlocks }

theorem remove_ok (hp : p ∈ h.listed) : ∃ freeBlocks restBlocks,
    h.zendMmRemoveFromFreeList p = some (h.withLists freeBlocks restBlocks) ∧
      h.listed = p ::ₘ (h.withLists freeBlocks restBlocks).listed := by
  unfold zendMmRemoveFromFreeList
  by_cases hfree : p ∈ h.freeBlocks
  · rw [if_pos hfree]
    refine ⟨_, h.restBlocks, rfl, ?_⟩
    show (h.freeBlocks : Multiset MmPtr) + h.restBlocks =
      p ::ₘ (((h.freeBlocks.erase p : List MmPtr) : Multiset MmPtr) + h.restBlocks)
    rw [← Multiset.cons_add, ← Multiset.coe_erase, Multiset.cons_erase (Multiset.mem_coe.mpr hfree)]
  · have hrest : p ∈ h.restBlocks := by
      cases Multiset.mem_add.mp hp with
      | inl hin => exact absurd hin hfree
      | inr hin => exact hin
    rw [if_neg hfree, if_pos hrest]
    refine ⟨h.freeBlocks, _, rfl, ?_⟩
    show (h.freeBlocks : Multiset MmPtr) + h.restBlocks =
      p ::ₘ ((h.freeBlocks : Multiset MmPtr) + ((h.restBlocks.erase p : List MmPtr) : Multiset MmPtr))
    rw [← Multiset.add_cons, ← Multiset.coe_erase, Multiset.cons_erase (Multiset.mem_coe.mpr hrest)]

/-- The place of a block that neighbours were joined to. -/
structure Joined (pl pl' : MmPlace) : Prop where
  ok : pl'.Ok
  used : pl'.others true = pl.others true
  before : pl'.before = pl.before
  base : pl'.base = pl.base
  size : pl'.size = pl.size
  after : pl'.after = pl.after

theorem Joined.same (hpl : pl.Ok) : Joined pl pl := ⟨hpl, rfl, rfl, rfl, rfl, rfl⟩

theorem Joined.trans {pl' pl'' : MmPlace} (h : Joined pl pl') (h' : Joined pl' pl'') :
    Joined pl pl'' :=
  ⟨h'.ok, h'.used.trans h.used, h'.before.trans h.before, h'.base.trans h.base,
    h'.size.trans h.size, h'.after.trans h.after⟩

def FreeAround (h : ZendMmHeap) (pl : MmPlace) : Prop :=
  (pl.others false).map Prod.fst = h.listed

theorem remove_neighbour (hfree : h.FreeAround pl) {pl' : MmPlace} {b : MmBlock}
    (hused : b.used = false) (hothers : ∀ u, pl.others u =
      (if b.used = u then {(p, b.size)} else 0) + pl'.others u) :
    ∃ freeBlocks restBlocks,
      h.zendMmRemoveFromFreeList p = some (h.withLists freeBlocks restBlocks) ∧
        (h.withLists freeBlocks restBlocks).FreeAround pl' ∧ pl'.others true = pl.others true := by
  have hremoved : h.listed = p ::ₘ (pl'.others false).map Prod.fst := by
    rw [← hfree, hothers false, if_pos hused, Multiset.map_add, Multiset.map_singleton,
      Multiset.singleton_add]
  have hp : p ∈ h.listed := by
    rw [hremoved]
    exact Multiset.mem_cons_self _ _
  have ⟨freeBlocks, restBlocks, hremove, hlisted⟩ := remove_ok hp
  rw [hlisted] at hremoved
  refine ⟨freeBlocks, restBlocks, hremove, ((Multiset.cons_inj_right _).mp hremoved).symm, ?_⟩
  rw [hothers true, if_neg (by rw [hused]; decide), zero_add]

/-- A block that takes in a neighbour fills its segment as before. -/
theorem ok_join (hpl : pl.Ok) (b : MmBlock) (prev next : List MmBlock) (offset : ℕ)
    (hb : BlockSize b.size) (hprev : prev ⊆ pl.prev) (hnext : next ⊆ pl.next)
    (hbytes : bytes prev + b.size.toNat + bytes next = bytes pl.prev + bytes pl.next)
    (hoffset : offset = bytes prev) :
    (pl.block.size + b.size).toNat = pl.block.size.toNat + b.size.toNat ∧
      MmPlace.Ok { pl with
        block := { pl.block with size := pl.block.size + b.size }
        prev := prev, next := next, offset := offset } := by
  have hfilled := hpl.filled
  have hstart := hpl.offset
  have hlt := pl.size.isLt
  have hsum : (pl.block.size + b.size).toNat = pl.block.size.toNat + b.size.toNat :=
    toNat_add_of_lt (by omega)
  refine ⟨hsum, hoffset, hpl.refill ?_ ?_⟩
  · intro x hx
    rw [mem_append, mem_append, mem_singleton] at hx
    rcases hx with (hx | rfl) | hx
    · exact hpl.sizes.1 x (hprev (mem_reverse.mp hx))
    · exact BlockSize.add hpl.blockSize hb hsum
    · exact hpl.sizes.2 x (hnext hx)
  · rw [bytes_append, bytes_append, bytes_reverse, bytes_cons, bytes_nil]
    show bytes prev + ((pl.block.size + b.size).toNat + 0) + bytes next + 32 = pl.size.toNat
    omega

theorem joinNext_ok (hpl : pl.Ok) (hfree : h.FreeAround pl) :
    ∃ freeBlocks restBlocks pl', h.joinNext pl = some (h.withLists freeBlocks restBlocks, pl') ∧
      Joined pl pl' ∧ (h.withLists freeBlocks restBlocks).FreeAround pl' ∧ pl'.prev = pl.prev ∧
      pl'.offset = pl.offset ∧ pl.block.size ≤ pl'.block.size ∧
      pl'.block.size = pl.block.size + ((nextFree pl).map MmBlock.size).getD 0 := by
  unfold joinNext nextFree
  have hstay : ∃ freeBlocks restBlocks pl',
      some (h, pl) = some (h.withLists freeBlocks restBlocks, pl') ∧
      Joined pl pl' ∧ (h.withLists freeBlocks restBlocks).FreeAround pl' ∧ pl'.prev = pl.prev ∧
      pl'.offset = pl.offset ∧ pl.block.size ≤ pl'.block.size ∧
      pl'.block.size = pl.block.size + ((none : Option MmBlock).map MmBlock.size).getD 0 :=
    ⟨h.freeBlocks, h.restBlocks, pl, rfl, Joined.same hpl, hfree, rfl, rfl, BitVec.le_refl _,
      (add_zero _).symm⟩
  cases hnext : pl.next with
  | nil => exact hstay
  | cons b next =>
    cases hused : b.used with
    | true =>
      simp only [hused]
      exact hstay
    | false =>
      obtain ⟨hsum, hok⟩ := ok_join hpl b pl.prev next _
        (hpl.sizes.2 b (by rw [hnext]; exact mem_cons_self)) (Subset.refl _)
        (by rw [hnext]; exact subset_cons_self b next)
        (by rw [hnext, bytes_cons, Nat.add_assoc]) hpl.offset
      let pl' : MmPlace :=
        { pl with block := { pl.block with size := pl.block.size + b.size }, next := next }
      have hbehind : pl'.offset + pl'.block.size.toNat =
          pl.offset + pl.block.size.toNat + b.size.toNat := by
        show pl.offset + (pl.block.size + b.size).toNat = _
        rw [hsum, Nat.add_assoc]
      have hothers : ∀ u, pl.others u =
          (if b.used = u then {(pl.nextPtr, b.size)} else 0) + pl'.others u := by
        intro u
        unfold MmPlace.others
        rw [hbehind, hnext, entriesFrom]
        split
        · rw [← Multiset.cons_coe, ← Multiset.singleton_add]
          unfold MmPlace.nextPtr
          abel
        · rw [zero_add]
      obtain ⟨freeBlocks, restBlocks, hremove, hfree', hsame⟩ :=
        remove_neighbour hfree hused hothers
      simp only [hused, Bool.false_eq_true, if_false, hremove]
      refine ⟨freeBlocks, restBlocks, pl', rfl, ⟨hok, hsame, rfl, rfl, rfl, rfl⟩, hfree', rfl, rfl,
        ?_, rfl⟩
      rw [BitVec.le_def]
      show _ ≤ (pl.block.size + b.size).toNat
      omega

theorem joinPrev_ok (hpl : pl.Ok) (hfree : h.FreeAround pl) :
    ∃ freeBlocks restBlocks pl', h.joinPrev pl = some (h.withLists freeBlocks restBlocks, pl') ∧
      Joined pl pl' ∧ (h.withLists freeBlocks restBlocks).FreeAround pl' := by
  unfold joinPrev
  have hstay : ∃ freeBlocks restBlocks pl',
      some (h, pl) = some (h.withLists freeBlocks restBlocks, pl') ∧ Joined pl pl' ∧
        (h.withLists freeBlocks restBlocks).FreeAround pl' :=
    ⟨h.freeBlocks, h.restBlocks, pl, rfl, Joined.same hpl, hfree⟩
  cases hprev : pl.prev with
  | nil => exact hstay
  | cons b prev =>
    cases hused : b.used with
    | true =>
      simp only [hused]
      exact hstay
    | false =>
      have hoffset := hpl.offset
      rw [hprev, bytes_cons] at hoffset
      obtain ⟨hsum, hok⟩ := ok_join hpl b prev pl.next (pl.offset - b.size.toNat)
        (hpl.sizes.1 b (by rw [hprev]; exact mem_cons_self))
        (by rw [hprev]; exact subset_cons_self b prev) (Subset.refl _)
        (by rw [hprev, bytes_cons, Nat.add_comm b.size.toNat]) (by omega)
      let pl' : MmPlace :=
        { pl with
          block := { pl.block with size := pl.block.size + b.size }
          prev := prev
          offset := pl.offset - b.size.toNat }
      have hbehind : pl'.offset + pl'.block.size.toNat = pl.offset + pl.block.size.toNat := by
        show pl.offset - b.size.toNat + (pl.block.size + b.size).toNat = _
        omega
      have hothers : ∀ u, pl.others u =
          (if b.used = u then {(⟨pl.base, pl.offset - b.size.toNat⟩, b.size)} else 0) +
            pl'.others u := by
        intro u
        unfold MmPlace.others
        rw [hbehind, hprev, reverse_cons, entriesFrom_append, bytes_reverse, Nat.zero_add,
          ← Multiset.coe_add, show bytes prev = pl.offset - b.size.toNat by omega,
          entriesFrom_single]
        split
        · rw [Multiset.coe_singleton]
          abel
        · rw [Multiset.coe_nil]
          abel
      have ⟨freeBlocks, restBlocks, hremove, hfree', hsame⟩ :=
        remove_neighbour hfree hused hothers
      simp only [hused, Bool.false_eq_true, if_false, hremove]
      exact ⟨freeBlocks, restBlocks, pl', rfl, ⟨hok, hsame, rfl, rfl, rfl, rfl⟩, hfree'⟩

/-- The segments are in order, the free lists hold their free blocks, and `heap->real_size` is
    their size. -/
structure Laid (h : ZendMmHeap) : Prop where
  segments : SegmentsOk h.segmentsList
  free : (entries false h.segmentsList).map Prod.fst = h.listed
  realSize : h.realSize = (h.segmentsList.map MmSegment.size).sum

def relaid (h : ZendMmHeap) (segmentsList : List MmSegment) (realSize : BitVec 64)
    (freeBlocks restBlocks : List MmPtr) : ZendMmHeap :=
  { h with
    segmentsList := segmentsList
    realSize := realSize
    freeBlocks := freeBlocks
    restBlocks := restBlocks }

def sizesAround (pl : MmPlace) : BitVec 64 :=
  (pl.before.map MmSegment.size).sum + (pl.size + (pl.after.map MmSegment.size).sum)

theorem sizes_write (pl : MmPlace) (blocks : List MmBlock) :
    ((pl.write blocks).map MmSegment.size).sum = sizesAround pl := by
  unfold MmPlace.write sizesAround
  rw [map_append, sum_append, map_cons, sum_cons]

theorem Joined.sizesAround {pl' : MmPlace} (h : Joined pl pl') :
    sizesAround pl' = sizesAround pl := by
  unfold ZendMmHeap.sizesAround
  rw [h.before, h.size, h.after]

section

variable (hpl : pl.Ok) (hfree : h.FreeAround pl) (hreal : h.realSize = sizesAround pl)

include hpl hfree hreal

theorem splitBlock_ok (htrue : BlockSize trueSize) (hle : trueSize ≤ pl.block.size)
    (hroom : zendMmAlignedMinHeaderSize ≤ pl.block.size - trueSize) (rest : Bool) :
    ∃ segments freeBlocks restBlocks,
      h.splitBlock pl trueSize rest = h.relaid segments h.realSize freeBlocks restBlocks ∧
      Laid (h.relaid segments h.realSize freeBlocks restBlocks) ∧
      entries true segments = (pl.ptr, trueSize) ::ₘ pl.others true := by
  have hrest : (pl.block.size - trueSize).toNat = pl.block.size.toNat - trueSize.toNat :=
    BitVec.toNat_sub_of_le hle
  rw [BitVec.le_def] at hle
  rw [zendMmAlignedMinHeaderSize_eq, BitVec.le_def, hrest] at hroom
  have hroom : 32 ≤ pl.block.size.toNat - trueSize.toNat := hroom
  let blocks : List MmBlock := [⟨trueSize, true⟩, ⟨pl.block.size - trueSize, false⟩]
  have hbytes : bytes blocks = pl.block.size.toNat := by
    show trueSize.toNat + ((pl.block.size - trueSize).toNat + 0) = _
    omega
  have hsizes : ∀ b ∈ blocks, BlockSize b.size := by
    intro b hb
    cases mem_cons.mp hb with
    | inl heq =>
      rw [heq]
      exact htrue
    | inr hin =>
      rw [mem_singleton.mp hin]
      have hblock := hpl.blockSize
      show BlockSize (pl.block.size - trueSize)
      unfold BlockSize at htrue hblock ⊢
      omega
  have hentries := fun u => pl.entries_write u hpl.offset hbytes
  have hnew : ((entries false (pl.write blocks)).map Prod.fst) =
      ⟨pl.base, pl.offset + trueSize.toNat⟩ ::ₘ h.listed := by
    rw [hentries false, Multiset.map_add, hfree]
    exact Multiset.add_comm _ {_}
  have hused : entries true (pl.write blocks) = (pl.ptr, trueSize) ::ₘ pl.others true := by
    rw [hentries true]
    exact Multiset.add_comm _ {_}
  have hsum : h.realSize = ((pl.write blocks).map MmSegment.size).sum := by rw [sizes_write, hreal]
  unfold splitBlock
  cases rest with
  | true =>
    refine ⟨pl.write blocks, h.freeBlocks, ⟨pl.base, pl.offset + trueSize.toNat⟩ :: h.restBlocks,
      rfl, ⟨hpl.write hsizes hbytes, ?_, hsum⟩, hused⟩
    show (entries false (pl.write blocks)).map Prod.fst =
      h.freeBlocks + (⟨pl.base, pl.offset + trueSize.toNat⟩ ::ₘ (h.restBlocks : Multiset MmPtr))
    rw [hnew, Multiset.add_cons]
    rfl
  | false =>
    refine ⟨pl.write blocks, ⟨pl.base, pl.offset + trueSize.toNat⟩ :: h.freeBlocks, h.restBlocks,
      rfl, ⟨hpl.write hsizes hbytes, ?_, hsum⟩, hused⟩
    show (entries false (pl.write blocks)).map Prod.fst =
      (⟨pl.base, pl.offset + trueSize.toNat⟩ ::ₘ (h.freeBlocks : Multiset MmPtr)) + h.restBlocks
    rw [hnew, Multiset.cons_add]
    rfl

theorem useBlock_ok (htrue : BlockSize trueSize) (hle : trueSize ≤ pl.block.size) (rest : Bool) :
    ∃ segments freeBlocks restBlocks used,
      h.useBlock pl trueSize rest = (h.relaid segments h.realSize freeBlocks restBlocks, used) ∧
      Laid (h.relaid segments h.realSize freeBlocks restBlocks) ∧
      entries true segments = (pl.ptr, used) ::ₘ pl.others true := by
  unfold useBlock
  by_cases hsmall : pl.block.size - trueSize < zendMmAlignedMinHeaderSize
  · rw [if_pos hsmall]
    let blocks : List MmBlock := [⟨pl.block.size, true⟩]
    have hbytes : bytes blocks = pl.block.size.toNat := Nat.add_zero _
    have hentries := fun u => pl.entries_write u hpl.offset hbytes
    refine ⟨pl.write blocks, h.freeBlocks, h.restBlocks, pl.block.size, rfl,
      ⟨hpl.write ?_ hbytes, ?_, ?_⟩, ?_⟩
    · intro b hb
      rw [mem_singleton.mp hb]
      exact hpl.blockSize
    · show ((entries false (pl.write blocks)).map Prod.fst) = h.listed
      rw [hentries false, ← hfree]
      exact congrArg _ (add_zero _)
    · show h.realSize = ((pl.write blocks).map MmSegment.size).sum
      rw [sizes_write, hreal]
    · rw [hentries true]
      exact Multiset.add_comm _ {_}
  · rw [if_neg hsmall]
    have ⟨segments, freeBlocks, restBlocks, hsplit, hlaid, hused⟩ :=
      splitBlock_ok hpl hfree hreal htrue hle (BitVec.not_lt.mp hsmall) rest
    rw [hsplit]
    exact ⟨segments, freeBlocks, restBlocks, trueSize, rfl, hlaid, hused⟩

theorem releaseBlock_ok :
    ∃ segments realSize freeBlocks restBlocks,
      h.releaseBlock pl = h.relaid segments realSize freeBlocks restBlocks ∧
      Laid (h.relaid segments realSize freeBlocks restBlocks) ∧
      entries true segments = pl.others true := by
  unfold releaseBlock
  by_cases halone : pl.prev = [] ∧ pl.next = []
  · rw [if_pos halone]
    have hentries := fun u => pl.entries_delete u halone.1 halone.2
    refine ⟨pl.delete, h.realSize - pl.size, h.freeBlocks, h.restBlocks, rfl,
      ⟨hpl.delete, ?_, ?_⟩, hentries true⟩
    · show ((entries false pl.delete).map Prod.fst) = h.listed
      rw [hentries false, hfree]
    · show h.realSize - pl.size = (pl.delete.map MmSegment.size).sum
      unfold MmPlace.delete
      rw [hreal, map_append, sum_append]
      unfold sizesAround
      abel
  · rw [if_neg halone]
    let blocks : List MmBlock := [⟨pl.block.size, false⟩]
    have hbytes : bytes blocks = pl.block.size.toNat := Nat.add_zero _
    have hentries := fun u => pl.entries_write u hpl.offset hbytes
    refine ⟨pl.write blocks, h.realSize, pl.ptr :: h.freeBlocks, h.restBlocks, rfl,
      ⟨hpl.write ?_ hbytes, ?_, ?_⟩, ?_⟩
    · intro b hb
      rw [mem_singleton.mp hb]
      exact hpl.blockSize
    · show ((entries false (pl.write blocks)).map Prod.fst) =
        (pl.ptr ::ₘ (h.freeBlocks : Multiset MmPtr)) + h.restBlocks
      rw [hentries false, Multiset.map_add, hfree, Multiset.cons_add]
      exact Multiset.add_comm _ {_}
    · show h.realSize = ((pl.write blocks).map MmSegment.size).sum
      rw [sizes_write, hreal]
    · rw [hentries true]
      exact add_zero _

end

end ZendMmHeap

end Php53.Zend
