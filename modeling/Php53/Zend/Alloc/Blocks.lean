import Mathlib.Algebra.BigOperators.Group.Finset.Basic
import Mathlib.Algebra.Order.BigOperators.Group.Multiset
import Mathlib.Data.BitVec
import Mathlib.Tactic.Abel
import Php53.Zend.Alloc.Sizes

/-!
# Blocks — the segments of the Zend memory manager and the blocks that tile them

A segment is what the storage gives out in one piece: its own header, the blocks one behind the
other, and the guard block.  The headers of two neighbours repeat each other's size and kind, so a
segment is the list of its blocks: the next block is the next entry, the guard block the end of the
list, and the first block the one with nothing before it.
-/

namespace Php53.Zend

open List

/-- The place of a block header: the segment, and the bytes in front of it there. -/
structure MmPtr where
  segment : ℕ
  offset : ℕ
  deriving DecidableEq

/-- `info._size`, with `ZEND_MM_USED_BLOCK` apart. -/
structure MmBlock where
  size : BitVec 64
  used : Bool
  deriving DecidableEq

/-- `zend_mm_segment` at the address `base`. -/
structure MmSegment where
  base : ℕ
  size : BitVec 64
  blocks : List MmBlock
  deriving DecidableEq

/-- A block and all that lies around it; the nearest block of `prev` comes first. -/
structure MmPlace where
  before : List MmSegment
  base : ℕ
  size : BitVec 64
  prev : List MmBlock
  offset : ℕ
  block : MmBlock
  next : List MmBlock
  after : List MmSegment

/-- The block `offset` bytes into a segment; `pos` bytes lie in front of the blocks left. -/
def findBlock (offset : ℕ) : ℕ → List MmBlock → List MmBlock →
    Option (List MmBlock × MmBlock × List MmBlock)
  | _, _, [] => none
  | pos, prev, b :: next =>
    if pos = offset then some (prev, b, next)
    else findBlock offset (pos + b.size.toNat) (b :: prev) next

def findPlace (p : MmPtr) : List MmSegment → List MmSegment → Option MmPlace
  | _, [] => none
  | before, s :: after =>
    if s.base = p.segment then
      (findBlock p.offset 0 [] s.blocks).map fun found =>
        ⟨before.reverse, s.base, s.size, found.1, p.offset, found.2.1, found.2.2, after⟩
    else findPlace p (s :: before) after

namespace MmPlace

def ptr (pl : MmPlace) : MmPtr := ⟨pl.base, pl.offset⟩

/-- `ZEND_MM_NEXT_BLOCK` -/
def nextPtr (pl : MmPlace) : MmPtr := ⟨pl.base, pl.offset + pl.block.size.toNat⟩

def write (pl : MmPlace) (blocks : List MmBlock) : List MmSegment :=
  pl.before ++ ⟨pl.base, pl.size, pl.prev.reverse ++ blocks ++ pl.next⟩ :: pl.after

def delete (pl : MmPlace) : List MmSegment := pl.before ++ pl.after

end MmPlace

def bytes (blocks : List MmBlock) : ℕ := (blocks.map fun b => b.size.toNat).sum

@[simp] theorem bytes_nil : bytes [] = 0 := rfl

@[simp] theorem bytes_cons (b : MmBlock) (bs : List MmBlock) :
    bytes (b :: bs) = b.size.toNat + bytes bs := by
  unfold bytes
  rw [map_cons, sum_cons]

@[simp] theorem bytes_append (as bs : List MmBlock) : bytes (as ++ bs) = bytes as + bytes bs := by
  unfold bytes
  rw [map_append, sum_append]

@[simp] theorem bytes_reverse (bs : List MmBlock) : bytes bs.reverse = bytes bs := by
  unfold bytes
  rw [map_reverse, sum_reverse]

def entriesFrom (used : Bool) (base : ℕ) : ℕ → List MmBlock → List (MmPtr × BitVec 64)
  | _, [] => []
  | pos, b :: bs =>
    if b.used = used then (⟨base, pos⟩, b.size) :: entriesFrom used base (pos + b.size.toNat) bs
    else entriesFrom used base (pos + b.size.toNat) bs

def entries (used : Bool) (segments : List MmSegment) : Multiset (MmPtr × BitVec 64) :=
  (segments.map fun s => (entriesFrom used s.base 0 s.blocks : Multiset _)).sum

variable {used : Bool} {base pos : ℕ} {u : Bool} {s : MmSegment}

theorem entriesFrom_append (as bs : List MmBlock) :
    entriesFrom used base pos (as ++ bs) =
      entriesFrom used base pos as ++ entriesFrom used base (pos + bytes as) bs := by
  induction as generalizing pos with
  | nil => rfl
  | cons a as ih =>
    rw [cons_append, entriesFrom, entriesFrom, ih, bytes_cons, Nat.add_assoc]
    split
    · rw [cons_append]
    · rfl

@[simp] theorem entriesFrom_single (b : MmBlock) :
    entriesFrom used base pos [b] = if b.used = used then [(⟨base, pos⟩, b.size)] else [] := rfl

theorem entriesFrom_bounds {bs : List MmBlock} {e : MmPtr × BitVec 64}
    (he : e ∈ entriesFrom used base pos bs) : e.1.segment = base ∧ pos ≤ e.1.offset := by
  induction bs generalizing pos with
  | nil => exact absurd he (by simp [entriesFrom])
  | cons b bs ih =>
    rw [entriesFrom] at he
    have htail : e ∈ entriesFrom used base (pos + b.size.toNat) bs →
        e.1.segment = base ∧ pos ≤ e.1.offset := by
      intro h
      have hbounds := ih h
      omega
    split at he
    · cases mem_cons.mp he with
      | inl heq =>
        rw [heq]
        exact ⟨rfl, Nat.le_refl _⟩
      | inr h => exact htail h
    · exact htail he

theorem entries_append (as bs : List MmSegment) :
    entries used (as ++ bs) = entries used as + entries used bs := by
  unfold entries
  rw [map_append, sum_append]

@[simp] theorem entries_nil : entries used [] = 0 := rfl

theorem entries_cons (s : MmSegment) (ss : List MmSegment) :
    entries used (s :: ss) = (entriesFrom used s.base 0 s.blocks : Multiset _) + entries used ss := by
  unfold entries
  rw [map_cons, sum_cons]

def BlockSize (size : BitVec 64) : Prop := 32 ≤ size.toNat ∧ size.toNat % 8 = 0

/-- The blocks fill the segment up to its header and the guard block. -/
structure SegmentOk (s : MmSegment) : Prop where
  sizes : ∀ b ∈ s.blocks, BlockSize b.size
  filled : bytes s.blocks + 32 = s.size.toNat

structure SegmentsOk (segments : List MmSegment) : Prop where
  apart : (segments.map MmSegment.base).Nodup
  each : ∀ s ∈ segments, SegmentOk s

/-- The segments in which the block of the place stands are in order. -/
structure MmPlace.Ok (pl : MmPlace) : Prop where
  offset : pl.offset = bytes pl.prev
  segments : SegmentsOk (pl.write [pl.block])

theorem findBlock_of_mem {offset : ℕ} {size : BitVec 64} {bs : List MmBlock}
    (hsizes : ∀ b ∈ bs, BlockSize b.size) (prev : List MmBlock)
    (hmem : (⟨base, offset⟩, size) ∈ entriesFrom u base pos bs) :
    ∃ prev' next, findBlock offset pos prev bs = some (prev', ⟨size, u⟩, next) ∧
      prev'.reverse ++ ⟨size, u⟩ :: next = prev.reverse ++ bs ∧
      pos + bytes prev' = offset + bytes prev := by
  induction bs generalizing pos prev with
  | nil => exact absurd hmem (by simp [entriesFrom])
  | cons b bs ih =>
    have hb : 32 ≤ b.size.toNat := (hsizes b mem_cons_self).1
    rw [findBlock]
    by_cases hpos : pos = offset
    · -- the entry is that of the first block: the others lie behind it
      have hbehind : (⟨base, offset⟩, size) ∉ entriesFrom u base (pos + b.size.toNat) bs := by
        intro h
        have hbounds : pos + b.size.toNat ≤ offset := (entriesFrom_bounds h).2
        omega
      rw [if_pos hpos]
      rw [entriesFrom] at hmem
      split at hmem
      · rename_i hused
        cases mem_cons.mp hmem with
        | inl heq =>
          have hsize : b.size = size := (congrArg Prod.snd heq).symm
          have hblock : b = ⟨size, u⟩ := by
            cases b
            rw [MmBlock.mk.injEq]
            exact ⟨hsize, hused⟩
          rw [hblock]
          exact ⟨prev, bs, rfl, rfl, by omega⟩
        | inr h => exact absurd h hbehind
      · exact absurd hmem hbehind
    · rw [if_neg hpos]
      have hrest : (⟨base, offset⟩, size) ∈ entriesFrom u base (pos + b.size.toNat) bs := by
        rw [entriesFrom] at hmem
        split at hmem
        · cases mem_cons.mp hmem with
          | inl heq =>
            have hsame : offset = pos := congrArg (fun e => e.1.offset) heq
            exact absurd hsame.symm hpos
          | inr h => exact h
        · exact hmem
      have ⟨prev', next, hfind, hsplit, hbytes⟩ :=
        ih (fun x hx => hsizes x (mem_cons_of_mem _ hx)) (b :: prev) hrest
      rw [reverse_cons, append_assoc, singleton_append] at hsplit
      rw [bytes_cons] at hbytes
      exact ⟨prev', next, hfind, hsplit, by omega⟩

theorem segment_of_mem {e : MmPtr × BitVec 64} {segments : List MmSegment}
    (hmem : e ∈ entries u segments) :
    ∃ s ∈ segments, s.base = e.1.segment ∧ e ∈ entriesFrom u s.base 0 s.blocks := by
  induction segments with
  | nil => exact absurd hmem (by simp)
  | cons s ss ih =>
    rw [entries_cons, Multiset.mem_add] at hmem
    cases hmem with
    | inl h =>
      have hs := Multiset.mem_coe.mp h
      exact ⟨s, mem_cons_self, (entriesFrom_bounds hs).1.symm, hs⟩
    | inr h =>
      have ⟨t, ht, hbase, hin⟩ := ih h
      exact ⟨t, mem_cons_of_mem _ ht, hbase, hin⟩

theorem findPlace_of_mem {p : MmPtr} {size : BitVec 64} {segments : List MmSegment}
    (hok : SegmentsOk segments) (before : List MmSegment) (hmem : (p, size) ∈ entries u segments) :
    ∃ pl, findPlace p before segments = some pl ∧ pl.block = ⟨size, u⟩ ∧ pl.ptr = p ∧
      pl.offset = bytes pl.prev ∧ pl.write [pl.block] = before.reverse ++ segments := by
  induction segments generalizing before with
  | nil => exact absurd hmem (by simp)
  | cons s ss ih =>
    have hapart := nodup_cons.mp hok.apart
    rw [findPlace]
    by_cases hbase : s.base = p.segment
    · rw [if_pos hbase]
      have hhere : (p, size) ∈ entriesFrom u s.base 0 s.blocks := by
        rw [entries_cons, Multiset.mem_add] at hmem
        cases hmem with
        | inl h => exact Multiset.mem_coe.mp h
        | inr h =>
          have ⟨t, ht, htbase, _⟩ := segment_of_mem h
          have hsame : s.base = t.base := hbase.trans htbase.symm
          rw [hsame] at hapart
          exact absurd (mem_map_of_mem ht) hapart.1
      have hptr : p = ⟨s.base, p.offset⟩ := by rw [hbase]
      rw [hptr] at hhere
      have ⟨prev, next, hfind, hsplit, hbytes⟩ :=
        findBlock_of_mem (hok.each s mem_cons_self).sizes [] hhere
      rw [hfind]
      refine ⟨_, rfl, rfl, hptr.symm, ?_, ?_⟩
      · show p.offset = bytes prev
        rw [bytes_nil] at hbytes
        omega
      · show before.reverse ++ (⟨s.base, s.size, prev.reverse ++ [_] ++ next⟩ : MmSegment) :: ss = _
        rw [append_assoc, singleton_append, hsplit]
        rfl
    · rw [if_neg hbase]
      have hthere : (p, size) ∈ entries u ss := by
        rw [entries_cons, Multiset.mem_add] at hmem
        cases hmem with
        | inl h => exact absurd (entriesFrom_bounds (Multiset.mem_coe.mp h)).1.symm hbase
        | inr h => exact h
      have ⟨pl, hfind, hblock, hptr, hoffset, hwrite⟩ :=
        ih ⟨hapart.2, fun t ht => hok.each t (mem_cons_of_mem _ ht)⟩ (s :: before) hthere
      rw [reverse_cons, append_assoc, singleton_append] at hwrite
      exact ⟨pl, hfind, hblock, hptr, hoffset, hwrite⟩

theorem segmentsOk_replace {before after : List MmSegment} {s' : MmSegment}
    (h : SegmentsOk (before ++ s :: after)) (hs' : SegmentOk s')
    (hbase : s'.base = s.base ∨ s'.base ∉ (before ++ s :: after).map MmSegment.base) :
    SegmentsOk (before ++ s' :: after) := by
  have hperm : ∀ t : MmSegment, ((before ++ t :: after).map MmSegment.base).Perm
      (t.base :: (before ++ after).map MmSegment.base) := by
    intro t
    rw [map_append, map_cons, map_append]
    exact perm_middle
  have hapart := nodup_cons.mp ((hperm s).nodup_iff.mp h.apart)
  constructor
  · rw [(hperm s').nodup_iff, nodup_cons]
    refine ⟨?_, hapart.2⟩
    cases hbase with
    | inl heq =>
      rw [heq]
      exact hapart.1
    | inr hnew =>
      intro hin
      exact hnew ((hperm s).mem_iff.mpr (mem_cons_of_mem _ hin))
  · intro t ht
    cases mem_append.mp ht with
    | inl hin => exact h.each t (mem_append_left _ hin)
    | inr hin =>
      cases mem_cons.mp hin with
      | inl heq =>
        rw [heq]
        exact hs'
      | inr hin => exact h.each t (mem_append_right _ (mem_cons_of_mem _ hin))

theorem segmentsOk_erase {before after : List MmSegment}
    (h : SegmentsOk (before ++ s :: after)) : SegmentsOk (before ++ after) := by
  have hsub : (before ++ after).Sublist (before ++ s :: after) :=
    List.Sublist.append_left (sublist_cons_self s after) before
  exact ⟨(hsub.map MmSegment.base).nodup h.apart, fun t ht => h.each t (hsub.subset ht)⟩

theorem segmentsOk_cons {ss : List MmSegment} (h : SegmentsOk ss) (hs : SegmentOk s)
    (hbase : s.base ∉ ss.map MmSegment.base) : SegmentsOk (s :: ss) := by
  constructor
  · rw [map_cons, nodup_cons]
    exact ⟨hbase, h.apart⟩
  · intro t ht
    cases mem_cons.mp ht with
    | inl heq =>
      rw [heq]
      exact hs
    | inr hin => exact h.each t hin

namespace MmPlace

variable {pl : MmPlace} {blocks : List MmBlock}

def others (used : Bool) (pl : MmPlace) : Multiset (MmPtr × BitVec 64) :=
  entries used pl.before + (entriesFrom used pl.base 0 pl.prev.reverse : Multiset _) +
    (entriesFrom used pl.base (pl.offset + pl.block.size.toNat) pl.next : Multiset _) +
    entries used pl.after

theorem entries_write (used : Bool) (hoffset : pl.offset = bytes pl.prev)
    (hbytes : bytes blocks = pl.block.size.toNat) :
    entries used (pl.write blocks) =
      pl.others used + (entriesFrom used pl.base pl.offset blocks : Multiset _) := by
  unfold write others
  rw [entries_append, entries_cons]
  show entries used pl.before + ((entriesFrom used pl.base 0 (pl.prev.reverse ++ blocks ++ pl.next) :
    Multiset _) + entries used pl.after) = _
  rw [entriesFrom_append, entriesFrom_append, bytes_append, bytes_reverse, hbytes, ← hoffset,
    Nat.zero_add, Nat.zero_add, ← Multiset.coe_add, ← Multiset.coe_add]
  abel

theorem entries_delete (used : Bool) (hprev : pl.prev = []) (hnext : pl.next = []) :
    entries used pl.delete = pl.others used := by
  unfold delete others
  rw [entries_append, hprev, hnext]
  show _ = entries used pl.before + 0 + 0 + entries used pl.after
  rw [add_zero, add_zero]

namespace Ok

theorem segment (h : pl.Ok) :
    SegmentOk ⟨pl.base, pl.size, pl.prev.reverse ++ [pl.block] ++ pl.next⟩ :=
  h.segments.each _ (mem_append_right _ mem_cons_self)

theorem filled (h : pl.Ok) :
    pl.offset + pl.block.size.toNat + bytes pl.next + 32 = pl.size.toNat := by
  have hfilled := h.segment.filled
  rw [bytes_append, bytes_append, bytes_reverse, bytes_cons, bytes_nil] at hfilled
  rw [h.offset, ← hfilled]
  rfl

theorem blockSize (h : pl.Ok) : BlockSize pl.block.size :=
  h.segment.sizes _ (by simp)

theorem refill (h : pl.Ok) (hsizes : ∀ b ∈ blocks, BlockSize b.size)
    (hbytes : bytes blocks + 32 = pl.size.toNat) :
    SegmentsOk (pl.before ++ ⟨pl.base, pl.size, blocks⟩ :: pl.after) :=
  segmentsOk_replace h.segments ⟨hsizes, hbytes⟩ (Or.inl rfl)

theorem sizes (h : pl.Ok) :
    (∀ b ∈ pl.prev, BlockSize b.size) ∧ ∀ b ∈ pl.next, BlockSize b.size := by
  have hsizes := h.segment.sizes
  constructor
  · intro b hb
    exact hsizes b (mem_append_left _ (mem_append_left _ (mem_reverse.mpr hb)))
  · exact fun b hb => hsizes b (mem_append_right _ hb)

theorem write (h : pl.Ok) (hsizes : ∀ b ∈ blocks, BlockSize b.size)
    (hbytes : bytes blocks = pl.block.size.toNat) : SegmentsOk (pl.write blocks) := by
  apply h.refill
  · intro b hb
    rw [mem_append, mem_append] at hb
    cases hb with
    | inl hb =>
      cases hb with
      | inl hin => exact h.sizes.1 b (mem_reverse.mp hin)
      | inr hin => exact hsizes b hin
    | inr hin => exact h.sizes.2 b hin
  · have hfilled := h.filled
    rw [bytes_append, bytes_append, bytes_reverse, hbytes, ← h.offset, hfilled]

theorem delete (h : pl.Ok) : SegmentsOk pl.delete := segmentsOk_erase h.segments

end Ok

end MmPlace

end Php53.Zend
