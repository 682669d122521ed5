import Php53.Zend.Alloc.Accounting
import Php53.Zend.Alloc.BestFit

/-!
# Usage — what `memory_get_usage` says after any sequence of calls

Every call keeps the accounts, up to the bytes that a flush of the cache leaves in `heap->size`.
-/

open Reasoning Reasoning.BitTrie

namespace Php53.Zend

variable {h : ZendMmHeap} {handed : Multiset MmPtr}

namespace ZendMmHeap

variable {h : ZendMmHeap} {p : MmPtr} {size trueSize flushed : BitVec 64} {answers : MmAnswers}
variable {pl : MmPlace} {blocks : Multiset (MmPtr × BitVec 64)} {handed : Multiset MmPtr}

variable {refused : Prop} {h₁ : ZendMmHeap}

def Holds (h : ZendMmHeap) (handed : Multiset MmPtr) (flushed : BitVec 64) : Prop :=
  ∃ blocks, blocks.map Prod.fst = handed ∧ h.Accounts blocks flushed

def withoutReserve (h : ZendMmHeap) (handed : Multiset MmPtr) : Multiset MmPtr :=
  match h.reserve with
  | none => handed
  | some r => handed.erase r

theorem Holds.block (hh : h.Holds (p ::ₘ handed) flushed) :
    ∃ size blocks, blocks.map Prod.fst = handed ∧ h.Accounts ((p, size) ::ₘ blocks) flushed := by
  have ⟨blocks, hmap, hacc⟩ := hh
  have hp : p ∈ blocks.map Prod.fst := by
    rw [hmap]
    exact Multiset.mem_cons_self _ _
  have ⟨e, he, hptr⟩ := Multiset.mem_map.mp hp
  have ⟨rest, hrest⟩ := Multiset.exists_cons_of_mem he
  have heq : e = (p, e.2) := by rw [← hptr]
  rw [hrest] at hmap hacc
  rw [heq] at hacc
  refine ⟨e.2, rest, ?_, hacc⟩
  rw [Multiset.map_cons, hptr] at hmap
  exact (Multiset.cons_inj_right _).mp hmap

theorem Holds.free (hh : h.Holds (p ::ₘ handed) flushed) :
    ∃ h', h.zendMmFreeInt (some p) = some h' ∧ h'.Holds handed flushed ∧ h'.reserve = h.reserve := by
  have ⟨size, blocks, hmap, hacc⟩ := hh.block
  have ⟨h', hfree, hacc', hreserve⟩ := zendMmFreeInt_ok hacc
  exact ⟨h', hfree, ⟨blocks, hmap, hacc'⟩, hreserve⟩

theorem Holds.settle (hh : h.Holds handed flushed) (reserve : Option MmPtr) (overflow : ℕ) :
    { h with reserve := reserve, overflow := overflow }.Holds handed flushed := by
  have ⟨blocks, hmap, hacc⟩ := hh
  exact ⟨blocks, hmap, ⟨hacc.laid.segments, hacc.laid.free, hacc.laid.realSize⟩, hacc.blockSize,
    hacc.used, hacc.size, hacc.cached, hacc.bound⟩

theorem zendMmSafeError_ok (hh : h.Holds handed flushed) (hreserve : ∀ r ∈ h.reserve, r ∈ handed) :
    ∃ h', h.zendMmSafeError = some (h', .bailout) ∧ h'.Holds (h.withoutReserve handed) flushed ∧
      h'.reserve = none := by
  unfold zendMmSafeError withoutReserve
  cases hcase : h.reserve with
  | none => exact ⟨_, rfl, hh.settle none _, rfl⟩
  | some r =>
    have hr : r ∈ handed := hreserve r hcase
    rw [← Multiset.cons_erase hr] at hh
    have ⟨h', hfree, hholds, _⟩ := hh.free
    rw [hfree]
    exact ⟨_, rfl, hholds.settle none _, rfl⟩

theorem flush_then_error (hacc : h.Accounts blocks flushed)
    (hreserve : ∀ r ∈ h.reserve, r ∈ blocks.map Prod.fst) :
    ∃ h', h.zendMmFreeCache.bind zendMmSafeError = some (h', .bailout) ∧
      h'.Holds (h.withoutReserve (blocks.map Prod.fst)) (flushed + h.cached.setWidth 64) ∧
      h'.reserve = none := by
  have ⟨h₁, hflush, hacc₁, hreserve₁⟩ := zendMmFreeCache_ok hacc
  have ⟨h', herror, hholds, hnone⟩ := zendMmSafeError_ok ⟨blocks, rfl, hacc₁⟩ (by
    rw [hreserve₁]
    exact hreserve)
  rw [hflush]
  refine ⟨h', herror, ?_, hnone⟩
  unfold withoutReserve at hholds ⊢
  rwa [hreserve₁] at hholds

/-- The accounts with a hole: all but the block at the place. -/
structure Around (h : ZendMmHeap) (pl : MmPlace) (blocks : Multiset (MmPtr × BitVec 64)) : Prop where
  ok : pl.Ok
  free : h.FreeAround pl
  realSize : h.realSize = sizesAround pl
  blockSize : ∃ k, 5 ≤ k ∧ h.blockSize.toNat = 2 ^ k
  used : pl.others true = blocks + cachedEntries h.cache
  cached : h.cached.toNat = totalNat (cachedEntries h.cache)
  bound : h.cached.toNat < zendMmCacheSize + 544

theorem useBlock_counts (hpl : h.Around pl blocks) (htrue : BlockSize trueSize)
    (hle : trueSize ≤ pl.block.size) (rest : Bool) (flushed : BitVec 64) :
    ∃ h' used, h.useBlock pl trueSize rest = (h', used) ∧ h'.size = h.size ∧
      h'.reserve = h.reserve ∧
      ∀ size peak, size = flushed + (used + total (pl.others true)) →
        { h' with size := size, peak := peak }.Accounts ((pl.ptr, used) ::ₘ blocks) flushed := by
  have ⟨segments, free, rest', used, huse, hlaid, hentries⟩ :=
    useBlock_ok hpl.ok hpl.free hpl.realSize htrue hle rest
  refine ⟨_, used, huse, rfl, rfl, fun size peak hsize => ?_⟩
  refine ⟨⟨hlaid.segments, hlaid.free, hlaid.realSize⟩, hpl.blockSize, ?_, ?_, hpl.cached,
    hpl.bound⟩
  · show entries true segments = (pl.ptr, used) ::ₘ blocks + cachedEntries h.cache
    rw [hentries, hpl.used, Multiset.cons_add]
  · show size = flushed + total (entries true segments)
    rw [hsize, hentries, total_cons]

theorem allocAt_ok (hpl : h.Around pl blocks) (hsize : h.size = flushed + total (pl.others true))
    (htrue : BlockSize trueSize) (hle : trueSize ≤ pl.block.size) (keepRest : Bool) :
    ∃ h' used, h.allocAt pl trueSize keepRest = (h', .returned pl.ptr) ∧
      h'.Accounts ((pl.ptr, used) ::ₘ blocks) flushed ∧ h'.reserve = h.reserve := by
  have ⟨h', used, huse, hsame, hreserve, hcounts⟩ := useBlock_counts hpl htrue hle keepRest flushed
  unfold allocAt
  rw [huse]
  refine ⟨_, used, rfl, hcounts _ _ ?_, hreserve⟩
  rw [hsame, hsize]
  abel

/-- What the search over the free lists may come up with: a block of theirs that is large enough,
    one of `rest_buckets` only when the limit is near. -/
def Offers (h : ZendMmHeap) (trueSize : BitVec 64) (bestFit : Option MmPtr) : Prop :=
  ∀ p ∈ bestFit,
    (p ∈ h.freeBlocks ∨ p ∈ h.restBlocks ∧ h.realSize ≥ h.limit - h.blockSize) ∧
      ∀ pl ∈ h.blockAt p, trueSize ≤ pl.block.size

/-- The search over the stored free lists, where these hold blocks of the lists with their sizes, comes
    up with nothing else. -/
theorem offers_of_search {lists : MmHeap MmPtr} {S : Set MmPtr} {tries : ℕ → BitTrie MmPtr}
    {smalls : ℕ → List MmPtr} (H : lists.FreeLists S tries smalls)
    (haligned : ∀ b ∈ S, zendMmAlignedSize (lists.size b) = lists.size b) (hsize : trueSize ≠ 0)
    (hlisted : ∀ b ∈ S, b ∈ h.freeBlocks ∧ ∀ pl ∈ h.blockAt b, pl.block.size = lists.size b) :
    ∃ bestFit, lists.zendMmSearchLargeBlock trueSize = some (bestFit.map .block) ∧
      h.Offers trueSize bestFit ∧ (bestFit = none ↔ ∀ b, ¬ lists.Fits S trueSize b) := by
  have ⟨r, hsearch, hout⟩ := H.search_outcome (MmHeap.size_ne_of_aligned haligned) hsize
  have ⟨hnone, hfound⟩ := H.outcome_fits hsize hout
  rw [hsearch]
  cases r with
  | none => exact ⟨none, rfl, by simp [Offers], fun _ => hnone.mp rfl, fun _ => rfl⟩
  | some q =>
    have ⟨b, hq, hfits⟩ := hfound q rfl
    rw [hq] at hnone ⊢
    refine ⟨some b, rfl, fun p hp => ?_, by simp, fun hno => absurd hfits (hno b)⟩
    obtain rfl := Option.some.inj hp
    have ⟨hlist, hsizes⟩ := hlisted b hfits.1
    refine ⟨Or.inl hlist, fun pl hpl => ?_⟩
    rw [hsizes pl hpl]
    exact hfits.2.2

def Stores (h : ZendMmHeap) (storage : Option ℕ) : Prop :=
  ∀ base ∈ storage, base ∉ h.segmentsList.map MmSegment.base

def AllocRefused (h : ZendMmHeap) (size : BitVec 64) (answers : MmAnswers) : Prop :=
  let trueSize := zendMmTrueSize size
  ¬(zendMmSmallSize trueSize = true ∧ trueSize < size) ∧ (h.takeCached trueSize).isNone = true ∧
    answers.bestFit = none ∧
    (h.segmentSize trueSize < trueSize ∨ h.realSize + h.segmentSize trueSize > h.limit ∨
      answers.storageAlloc = none)

instance : Decidable (h.AllocRefused size answers) :=
  inferInstanceAs (Decidable (_ ∧ _ ∧ _ ∧ (_ ∨ _ ∨ _)))

/-- What a flush in a refused call leaves in `heap->size`. -/
def flushedIf (h : ZendMmHeap) (refused : Prop) [Decidable refused] : BitVec 64 :=
  if refused then h.cached.setWidth 64 else 0

theorem add_flushedIf [Decidable refused] (hrefused : ¬refused) :
    flushed + h.flushedIf refused = flushed := by
  unfold flushedIf
  rw [if_neg hrefused, add_zero]

theorem flushedIf_congr {refused' : Prop} [Decidable refused] [Decidable refused']
    (hiff : refused ↔ refused') : h.flushedIf refused = h.flushedIf refused' :=
  if_congr hiff rfl rfl

theorem flushedIf_pos [Decidable refused] (hrefused : refused) :
    h.flushedIf refused = h.cached.setWidth 64 := if_pos hrefused

def HoldsAfter (h h' : ZendMmHeap) (kept handed : Multiset MmPtr) (flushed : BitVec 64) :
    MmOutcome → Prop
  | .returned p => h'.Holds (p ::ₘ kept) flushed ∧ h'.reserve = h.reserve
  | .bailout => h'.Holds (h.withoutReserve handed) flushed ∧ h'.reserve = none

theorem takeCached_ok (htrue : BlockSize trueSize) (htake : h.takeCached trueSize = some (p, h₁)) :
    ∃ cache, h₁ = { h with cache := cache } ∧ zendMmSmallSize trueSize = true ∧
      cachedEntries h.cache = (p, trueSize) ::ₘ cachedEntries cache := by
  unfold takeCached at htake
  by_cases hsmall : zendMmSmallSize trueSize = true
  · rw [if_pos hsmall] at htake
    have ⟨hbucket, hindex⟩ := bucketSize_index htrue hsmall
    cases hcache : h.cache (zendMmBucketIndex trueSize) with
    | nil =>
      rw [hcache] at htake
      exact absurd htake (by simp)
    | cons q rest =>
      rw [hcache] at htake
      have hpair := Option.some.inj htake
      have hq : q = p := congrArg Prod.fst hpair
      have hentries := cachedEntries_take hindex hcache
      rw [hbucket, hq] at hentries
      exact ⟨_, (congrArg Prod.snd hpair).symm, hsmall, hentries⟩
  · rw [if_neg hsmall] at htake
    exact absurd htake (by simp)

theorem around_found (hacc : h.Accounts blocks flushed) (hoffers : h.Offers trueSize (some p)) :
    ∃ free rest pl, h.zendMmRemoveFromFreeList p = some (h.withLists free rest) ∧
      h.blockAt p = some pl ∧ (h.withLists free rest).Around pl blocks ∧
      h.size = flushed + total (pl.others true) ∧ trueSize ≤ pl.block.size := by
  have ⟨hlists, hlarge⟩ := hoffers p rfl
  have hlisted : p ∈ h.listed := by
    unfold listed
    rw [Multiset.mem_add]
    exact hlists.imp id And.left
  have hfree := hacc.laid.free
  have hp := hlisted
  rw [← hfree] at hp
  have ⟨e, he, hptr⟩ := Multiset.mem_map.mp hp
  have hentry : (p, e.2) ∈ entries false h.segmentsList := by
    rw [← hptr]
    exact he
  have ⟨pl, hfind, hblock, _, hok, _, hreal, hentries⟩ := hacc.laid.blockAt hentry
  have ⟨free, rest, hremove, hsplit⟩ := remove_ok hlisted
  have hused : entries true h.segmentsList = pl.others true := by
    rw [hentries true, if_neg (by decide), add_zero]
  have haround : (h.withLists free rest).FreeAround pl := by
    rw [hentries false, if_pos rfl, Multiset.map_add, Multiset.map_singleton, hsplit,
      Multiset.add_comm, Multiset.singleton_add] at hfree
    exact (Multiset.cons_inj_right _).mp hfree
  refine ⟨free, rest, pl, hremove, hfind, ⟨hok, haround, hreal, hacc.blockSize, ?_, hacc.cached,
    hacc.bound⟩, ?_, hlarge pl hfind⟩
  · rw [← hused]
    exact hacc.used
  · rw [← hused]
    exact hacc.size

theorem around_newSegment (hacc : h.Accounts blocks flushed) (htrue : BlockSize trueSize)
    {base : ℕ} (hbase : base ∉ h.segmentsList.map MmSegment.base)
    (hfits : ¬ h.segmentSize trueSize < trueSize) :
    (h.setRealSize (h.realSize + h.segmentSize trueSize)).Around
        (h.newSegment base (h.segmentSize trueSize)) blocks ∧
      h.size = flushed + total ((h.newSegment base (h.segmentSize trueSize)).others true) ∧
      trueSize ≤ (h.newSegment base (h.segmentSize trueSize)).block.size := by
  have ⟨k, hk, hblockSize⟩ := hacc.blockSize
  have ⟨hroom, haligned⟩ := segmentSize_spec hblockSize hk htrue hfits
  have hothers : ∀ u, (h.newSegment base (h.segmentSize trueSize)).others u =
      entries u h.segmentsList := by
    intro u
    show 0 + 0 + 0 + entries u h.segmentsList = _
    rw [add_zero, add_zero, zero_add]
  have hsize : (h.newSegment base (h.segmentSize trueSize)).block.size.toNat =
      (h.segmentSize trueSize).toNat - 32 := toNat_segmentBlock (by omega)
  unfold BlockSize at htrue
  refine ⟨⟨⟨rfl, ?_⟩, ?_, ?_, hacc.blockSize, ?_, hacc.cached, hacc.bound⟩, ?_, ?_⟩
  · refine segmentsOk_cons hacc.laid.segments ⟨?_, ?_⟩ hbase
    · intro b hb
      rw [List.mem_singleton.mp hb]
      unfold BlockSize
      omega
    · show (h.newSegment base (h.segmentSize trueSize)).block.size.toNat + 0 + 32 =
        (h.segmentSize trueSize).toNat
      omega
  · show ((h.newSegment base (h.segmentSize trueSize)).others false).map Prod.fst = h.listed
    rw [hothers false, hacc.laid.free]
  · show h.realSize + h.segmentSize trueSize =
      0 + (h.segmentSize trueSize + (h.segmentsList.map MmSegment.size).sum)
    rw [hacc.laid.realSize]
    abel
  · rw [hothers true]
    exact hacc.used
  · rw [hothers true]
    exact hacc.size
  · rw [BitVec.le_def]
    omega

theorem zendMmAllocInt_ok (hacc : h.Accounts blocks flushed)
    (hreserve : ∀ r ∈ h.reserve, r ∈ blocks.map Prod.fst)
    (hoffers : h.Offers (zendMmTrueSize size) answers.bestFit)
    (hstores : h.Stores answers.storageAlloc) :
    ∃ h' out, h.zendMmAllocInt size answers = some (h', out) ∧
      h.HoldsAfter h' (blocks.map Prod.fst) (blocks.map Prod.fst)
        (flushed + h.flushedIf (h.AllocRefused size answers)) out := by
  unfold zendMmAllocInt
  by_cases hover : zendMmSmallSize (zendMmTrueSize size) = true ∧ zendMmTrueSize size < size
  · rw [if_pos hover, add_flushedIf (fun hrefused => hrefused.1 hover)]
    have ⟨h', herror, hholds⟩ := zendMmSafeError_ok ⟨blocks, rfl, hacc⟩ hreserve
    exact ⟨h', _, herror, hholds⟩
  have htrue := zendMmTrueSize_spec hover
  rw [if_neg hover]
  cases htake : h.takeCached (zendMmTrueSize size) with
  | some taken =>
    -- from the cache
    have ⟨cache, hheap, _, hentries⟩ := takeCached_ok htrue htake
    have hsum := hacc.cached
    rw [hentries, totalNat_cons] at hsum
    have hcached := @toNat_cached_sub h.cached (zendMmTrueSize size) (by
      rw [hsum]
      exact Nat.le_add_right _ _)
    rw [add_flushedIf (fun hrefused => absurd hrefused.2.1 (by rw [htake]; exact Bool.false_ne_true))]
    refine ⟨_, _, rfl, ⟨(taken.1, zendMmTrueSize size) ::ₘ blocks, Multiset.map_cons .., ?_⟩, ?_⟩
    · show (taken.2.setCached (taken.2.cached.setWidth 64 - zendMmTrueSize size)).Accounts _ _
      rw [hheap]
      refine ⟨⟨hacc.laid.segments, hacc.laid.free, hacc.laid.realSize⟩, hacc.blockSize, ?_,
        hacc.size, ?_, ?_⟩
      · show entries true h.segmentsList = _ ::ₘ blocks + cachedEntries cache
        rw [hacc.used, hentries, Multiset.add_cons, Multiset.cons_add]
      · show ((h.cached.setWidth 64 - zendMmTrueSize size).setWidth 32).toNat = _
        rw [hcached, hsum, Nat.add_sub_cancel_left]
        rfl
      · show ((h.cached.setWidth 64 - zendMmTrueSize size).setWidth 32).toNat < _
        have hbound := hacc.bound
        rw [hcached]
        omega
    · show taken.2.reserve = h.reserve
      rw [hheap]
  | none =>
    cases hfit : answers.bestFit with
    | some q =>
      -- from the free lists
      rw [hfit] at hoffers
      have ⟨free, rest, pl, hremove, hfind, haround, hsize, hle⟩ := around_found hacc hoffers
      have ⟨h', used, halloc, hacc', hreserve'⟩ := allocAt_ok haround hsize htrue hle false
      have hfind' : (h.withLists free rest).blockAt q = some pl := hfind
      rw [add_flushedIf (fun hrefused => absurd (hfit.symm.trans hrefused.2.2.1) (by simp))]
      simp only [hremove, Option.bind_some, hfind', Option.map_some, halloc]
      exact ⟨h', _, rfl, ⟨_, Multiset.map_cons .., hacc'⟩, hreserve'⟩
    | none =>
      have hnone : (h.takeCached (zendMmTrueSize size)).isNone = true := by
        rw [htake]
        decide
      by_cases hlimit : h.segmentSize (zendMmTrueSize size) < zendMmTrueSize size ∨
          h.realSize + h.segmentSize (zendMmTrueSize size) > h.limit
      · have hrefused : h.AllocRefused size answers :=
          ⟨hover, hnone, hfit, hlimit.imp id Or.inl⟩
        have ⟨h', herror, hholds⟩ := flush_then_error hacc hreserve
        simp only [if_pos hlimit]
        rw [flushedIf_pos hrefused]
        exact ⟨h', _, herror, hholds⟩
      · simp only [if_neg hlimit]
        cases hstorage : answers.storageAlloc with
        | none =>
          have ⟨h', herror, hholds⟩ := flush_then_error hacc hreserve
          rw [flushedIf_pos ⟨hover, hnone, hfit, Or.inr (Or.inr hstorage)⟩]
          exact ⟨h', _, herror, hholds⟩
        | some base =>
          have hgiven : ¬h.AllocRefused size answers := by
            intro hrefused
            cases hrefused.2.2.2 with
            | inl hsmall => exact hlimit (Or.inl hsmall)
            | inr hlarge =>
              cases hlarge with
              | inl hlarge => exact hlimit (Or.inr hlarge)
              | inr hnone => exact absurd (hstorage.symm.trans hnone) (by simp)
          have ⟨haround, hsize, hle⟩ := around_newSegment hacc htrue (hstores base hstorage)
            (fun hsmall => hlimit (Or.inl hsmall))
          have hrest := fun keepRest => allocAt_ok haround hsize htrue hle keepRest
          have ⟨h', used, halloc, hacc', hreserve'⟩ := hrest (h.keepRest (zendMmTrueSize size))
          rw [add_flushedIf hgiven]
          exact ⟨h', _, congrArg some halloc, ⟨_, Multiset.map_cons .., hacc'⟩, hreserve'⟩

def NeedsRoom (h : ZendMmHeap) (pl : MmPlace) (size : BitVec 64) : Prop :=
  let trueSize := zendMmTrueSize size
  ¬ trueSize < size ∧ ¬ trueSize ≤ pl.block.size ∧ (h.takeCached trueSize).isNone = true ∧
    roomBehind pl trueSize = false

def OverLimit (h : ZendMmHeap) (pl : MmPlace) (size : BitVec 64) : Prop :=
  let trueSize := zendMmTrueSize size
  h.segmentSize trueSize < trueSize ∨ h.realSize + h.segmentSize trueSize - pl.size > h.limit

def ReallocRefused (h : ZendMmHeap) (pl : MmPlace) (size : BitVec 64) (answers : MmAnswers) : Prop :=
  h.NeedsRoom pl size ∧
    if ownsSegment pl then h.OverLimit pl size ∨ answers.storageRealloc = none
    else h.AllocRefused size answers

def LosesBlock (h : ZendMmHeap) (pl : MmPlace) (size : BitVec 64) (answers : MmAnswers) : Prop :=
  h.NeedsRoom pl size ∧ ownsSegment pl = true ∧ (nextFree pl).isSome = true ∧
    ¬ h.OverLimit pl size ∧ answers.storageRealloc = none

instance : Decidable (h.NeedsRoom pl size) := inferInstanceAs (Decidable (_ ∧ _ ∧ _ ∧ _))

instance : Decidable (h.OverLimit pl size) := inferInstanceAs (Decidable (_ ∨ _))

instance : Decidable (h.ReallocRefused pl size answers) :=
  inferInstanceAs (Decidable (h.NeedsRoom pl size ∧
    if ownsSegment pl then h.OverLimit pl size ∨ answers.storageRealloc = none
    else h.AllocRefused size answers))

instance : Decidable (h.LosesBlock pl size answers) :=
  inferInstanceAs (Decidable (_ ∧ _ ∧ _ ∧ _ ∧ _))

theorem around_used (hacc : h.Accounts ((p, size) ::ₘ blocks) flushed) :
    ∃ pl, h.blockAt p = some pl ∧ pl.block.size = size ∧ pl.ptr = p ∧ h.Around pl blocks ∧
      pl.write [pl.block] = h.segmentsList ∧
      h.size = flushed + (size + total (pl.others true)) := by
  have hmem : (p, size) ∈ entries true h.segmentsList := by
    rw [hacc.used, Multiset.cons_add]
    exact Multiset.mem_cons_self _ _
  have ⟨pl, hfind, hblock, hptr, hok, hwrite, hreal, hentries⟩ := hacc.laid.blockAt hmem
  have hkeep : entries true h.segmentsList = (p, size) ::ₘ pl.others true := by
    rw [hentries true, if_pos rfl]
    exact Multiset.add_comm _ {_}
  have hused := hacc.used
  rw [hkeep, Multiset.cons_add] at hused
  refine ⟨pl, hfind, by rw [hblock], hptr, ⟨hok, FreeAround.of_used hacc.laid hentries, hreal,
    hacc.blockSize, (Multiset.cons_inj_right _).mp hused, hacc.cached, hacc.bound⟩, hwrite, ?_⟩
  rw [hacc.size, hkeep, total_cons]

theorem Around.joinNext (hpl : h.Around pl blocks) :
    ∃ free rest pl', h.joinNext pl = some (h.withLists free rest, pl') ∧
      (h.withLists free rest).Around pl' blocks ∧ pl'.ptr = pl.ptr ∧
      pl'.others true = pl.others true ∧ pl.block.size ≤ pl'.block.size ∧
      pl'.block.size = pl.block.size + ((nextFree pl).map MmBlock.size).getD 0 := by
  have ⟨free, rest, pl', hnext, hjoin, hfree, _, hoffset, hle, hsize⟩ := joinNext_ok hpl.ok hpl.free
  refine ⟨free, rest, pl', hnext, ⟨hjoin.ok, hfree, hpl.realSize.trans hjoin.sizesAround.symm,
    hpl.blockSize, hjoin.used.trans hpl.used, hpl.cached, hpl.bound⟩, ?_, hjoin.used, hle, hsize⟩
  unfold MmPlace.ptr
  rw [hjoin.base, hoffset]

theorem shrinkBlock_ok (hpl : h.Around pl blocks)
    (hsize : h.size = flushed + (pl.block.size + total (pl.others true)))
    (hacc : h.Accounts ((pl.ptr, pl.block.size) ::ₘ blocks) flushed) (htrue : BlockSize trueSize)
    (hle : trueSize ≤ pl.block.size) :
    ∃ h' used, h.shrinkBlock pl trueSize = some h' ∧
      h'.Accounts ((pl.ptr, used) ::ₘ blocks) flushed ∧ h'.reserve = h.reserve := by
  unfold shrinkBlock
  by_cases hroom : pl.block.size - trueSize ≥ zendMmAlignedMinHeaderSize
  · rw [if_pos hroom]
    have ⟨free, rest, pl', hnext, hpl', hptr, hothers, hgrown, _⟩ := hpl.joinNext
    have hle' : trueSize ≤ pl'.block.size := BitVec.le_trans hle hgrown
    have hroom' : ¬ pl'.block.size - trueSize < zendMmAlignedMinHeaderSize := by
      rw [BitVec.lt_def, BitVec.toNat_sub_of_le hle']
      rw [ge_iff_le, BitVec.le_def, BitVec.toNat_sub_of_le hle] at hroom
      rw [BitVec.le_def] at hgrown
      omega
    have ⟨h', used, huse, hsame, hreserve, hcounts⟩ := useBlock_counts hpl' htrue hle' false flushed
    unfold useBlock at huse
    rw [if_neg hroom'] at huse
    have hsplit : (h.withLists free rest).splitBlock pl' trueSize false = h' :=
      congrArg Prod.fst huse
    have hused : trueSize = used := congrArg Prod.snd huse
    simp only [hnext, Option.map_some, hsplit]
    rw [← hptr]
    refine ⟨_, used, rfl, hcounts _ h'.peak ?_, hreserve⟩
    rw [hsame, ← hused, hothers]
    show h.size + (trueSize - pl.block.size) = _
    rw [hsize]
    abel
  · rw [if_neg hroom]
    exact ⟨h, _, rfl, hacc, rfl⟩

theorem growBlock_ok (hpl : h.Around pl blocks)
    (hsize : h.size = flushed + (pl.block.size + total (pl.others true)))
    (htrue : BlockSize trueSize) (hroom : roomBehind pl trueSize = true) :
    ∃ h' used, h.growBlock pl trueSize = some h' ∧
      h'.Accounts ((pl.ptr, used) ::ₘ blocks) flushed ∧ h'.reserve = h.reserve := by
  have ⟨free, rest, pl', hnext, hpl', hptr, hothers, _, hgrown⟩ := hpl.joinNext
  have hle : trueSize ≤ pl'.block.size := by
    rw [hgrown]
    unfold roomBehind at hroom
    cases hfree : nextFree pl with
    | none =>
      rw [hfree] at hroom
      exact absurd hroom Bool.false_ne_true
    | some b =>
      rw [hfree] at hroom
      exact of_decide_eq_true hroom
  have ⟨h', used, huse, hsame, hreserve, hcounts⟩ :=
    useBlock_counts hpl' htrue hle (pl'.prev = [] ∧ pl'.next = []) flushed
  unfold growBlock
  simp only [hnext, Option.map_some, huse]
  rw [← hptr]
  refine ⟨_, used, rfl, hcounts _ _ ?_, hreserve⟩
  rw [hsame, hothers]
  show h.size + used - pl.block.size = _
  rw [hsize]
  abel

theorem withoutReserve_congr (hreserve : h₁.reserve = h.reserve) (handed : Multiset MmPtr)
    : h₁.withoutReserve handed = h.withoutReserve handed := by
  unfold withoutReserve
  rw [hreserve]

theorem listed_readd (hremove : h.zendMmRemoveFromFreeList p = some h₁) :
    (h₁.zendMmAddToFreeList p).listed = h.listed := by
  unfold zendMmRemoveFromFreeList at hremove
  unfold zendMmAddToFreeList listed
  by_cases hfree : p ∈ h.freeBlocks
  · rw [if_pos hfree] at hremove
    rw [← Option.some.inj hremove]
    show (p ::ₘ ((h.freeBlocks.erase p : List MmPtr) : Multiset MmPtr)) + h.restBlocks = _
    rw [← Multiset.coe_erase, Multiset.cons_erase (Multiset.mem_coe.mpr hfree)]
  · rw [if_neg hfree] at hremove
    by_cases hrest : p ∈ h.restBlocks
    · rw [if_pos hrest] at hremove
      rw [← Option.some.inj hremove]
      show (p ::ₘ (h.freeBlocks : Multiset MmPtr)) + ((h.restBlocks.erase p : List MmPtr) :
        Multiset MmPtr) = _
      rw [Multiset.cons_add, ← Multiset.add_cons, ← Multiset.coe_erase,
        Multiset.cons_erase (Multiset.mem_coe.mpr hrest)]
    · rw [if_neg hrest] at hremove
      exact absurd hremove (by simp)

theorem removed_ok (hpl : h.Around pl blocks) (howns : ownsSegment pl = true) :
    ∃ free rest, h.removeNext pl = some (h.withLists free rest) ∧
      ((h.withLists free rest).addNext pl).listed = h.listed ∧
      pl.prev = [] ∧ pl.others true = entries true pl.before + entries true pl.after ∧
      (entries false pl.before + entries false pl.after).map Prod.fst =
        (h.withLists free rest).listed := by
  unfold ownsSegment at howns
  rw [Bool.and_eq_true, List.isEmpty_iff] at howns
  have hprev := howns.1
  have howns := howns.2
  have hothers : ∀ u, pl.others u = entries u pl.before + 0 +
      (entriesFrom u pl.base (pl.offset + pl.block.size.toNat) pl.next : Multiset _) +
        entries u pl.after := by
    intro u
    unfold MmPlace.others
    rw [hprev]
    rfl
  have hfree := hpl.free
  unfold FreeAround at hfree
  rw [hothers false] at hfree
  rw [hothers true]
  unfold removeNext addNext
  unfold nextFree at howns ⊢
  cases hnext : pl.next with
  | nil =>
    rw [hnext] at hfree
    have hnone : ∀ u, (entriesFrom u pl.base (pl.offset + pl.block.size.toNat) [] :
        Multiset (MmPtr × BitVec 64)) = 0 := fun u => rfl
    rw [hnone, add_zero, add_zero] at hfree
    rw [hnone, add_zero, add_zero]
    exact ⟨h.freeBlocks, h.restBlocks, rfl, rfl, hprev, rfl, hfree⟩
  | cons b next =>
    rw [hnext] at howns hfree
    cases hused : b.used with
    | true =>
      simp only [hused] at howns
      exact absurd howns (by simp)
    | false =>
      simp only [hused, Bool.false_eq_true, if_false] at howns
      have htail : next = [] := List.isEmpty_iff.mp howns
      rw [htail, entriesFrom_single, hused, if_pos rfl] at hfree
      have hsplit : h.listed = pl.nextPtr ::ₘ
          (entries false pl.before + entries false pl.after).map Prod.fst := by
        rw [← hfree, ← Multiset.map_cons Prod.fst (pl.nextPtr, b.size)]
        apply congrArg
        show _ + {(pl.nextPtr, b.size)} + _ = _
        rw [add_zero, ← Multiset.singleton_add]
        abel
      have hp : pl.nextPtr ∈ h.listed := by
        rw [hsplit]
        exact Multiset.mem_cons_self _ _
      have ⟨free, rest, hremove, hlisted⟩ := remove_ok hp
      simp only [hused, Bool.false_eq_true, if_false]
      refine ⟨free, rest, hremove, listed_readd hremove, hprev, ?_, ?_⟩
      · rw [htail, entriesFrom_single, hused, if_neg (by decide)]
        show entries true pl.before + 0 + 0 + _ = _
        rw [add_zero, add_zero]
      · rw [hlisted] at hsplit
        exact ((Multiset.cons_inj_right _).mp hsplit).symm

theorem Counts.relist {cached : Multiset (MmPtr × BitVec 64)}
    (hcounts : h.Counts blocks cached flushed) {free rest : List MmPtr}
    (hsame : h₁ = h.withLists free rest) (hlisted : h₁.listed = h.listed) :
    h₁.Counts blocks cached flushed := by
  rw [hsame] at hlisted ⊢
  exact ⟨⟨hcounts.laid.segments, hcounts.laid.free.trans hlisted.symm, hcounts.laid.realSize⟩,
    hcounts.blockSize, hcounts.used, hcounts.size, hcounts.cached, hcounts.bound⟩

theorem around_segment (hpl : h.Around pl blocks) (hprev : pl.prev = []) {free rest : List MmPtr}
    (hused : pl.others true = entries true pl.before + entries true pl.after)
    (hfree : (entries false pl.before + entries false pl.after).map Prod.fst =
      (h.withLists free rest).listed)
    (htrue : BlockSize trueSize) {base : ℕ}
    (hbase : base = pl.base ∨ base ∉ h.segmentsList.map MmSegment.base)
    (hsegments : pl.write [pl.block] = h.segmentsList)
    (hfits : ¬ h.segmentSize trueSize < trueSize) {pl' : MmPlace}
    (hpl' : pl' = { pl with
      base := base
      size := h.segmentSize trueSize
      block := ⟨h.segmentSize trueSize - zendMmAlignedSegmentSize - zendMmAlignedHeaderSize, true⟩
      next := [] }) :
    ((h.withLists free rest).setRealSize (h.realSize + (h.segmentSize trueSize - pl.size))).Around
        pl' blocks ∧
      pl'.others true = pl.others true ∧ trueSize ≤ pl'.block.size := by
  have ⟨k, hk, hblockSize⟩ := hpl.blockSize
  have ⟨hroom, haligned⟩ := segmentSize_spec hblockSize hk htrue hfits
  have hothers : ∀ u, pl'.others u = entries u pl.before + entries u pl.after := by
    intro u
    rw [hpl']
    unfold MmPlace.others
    rw [hprev]
    show entries u pl.before + 0 + 0 + entries u pl.after = _
    rw [add_zero, add_zero]
  have hsize : pl'.block.size.toNat = (h.segmentSize trueSize).toNat - 32 := by
    rw [hpl']
    exact toNat_segmentBlock (by omega)
  have hsame : pl'.others true = pl.others true := by rw [hothers true, hused]
  have hoffset : pl'.offset = bytes pl'.prev := by
    rw [hpl']
    exact hpl.ok.offset
  unfold BlockSize at htrue
  refine ⟨⟨⟨hoffset, ?_⟩, ?_, ?_, hpl.blockSize, hsame.trans hpl.used, hpl.cached, hpl.bound⟩, hsame,
    ?_⟩
  · have hnew : pl'.write [pl'.block] =
        pl.before ++ ⟨base, h.segmentSize trueSize, [pl'.block]⟩ :: pl.after := by
      rw [hpl']
      show pl.before ++ ⟨base, _, pl.prev.reverse ++ [_] ++ []⟩ :: pl.after = _
      rw [hprev]
      rfl
    rw [hnew]
    refine segmentsOk_replace hpl.ok.segments ⟨?_, ?_⟩ ?_
    · intro b hb
      rw [List.mem_singleton.mp hb]
      unfold BlockSize
      omega
    · show pl'.block.size.toNat + 0 + 32 = (h.segmentSize trueSize).toNat
      omega
    · have hold : (pl.before ++ ⟨pl.base, pl.size, pl.prev.reverse ++ [pl.block] ++ pl.next⟩ ::
          pl.after) = h.segmentsList := hsegments
      rw [hold]
      exact hbase
  · show (pl'.others false).map Prod.fst = (h.withLists free rest).listed
    rw [hothers false, hfree]
  · show h.realSize + (h.segmentSize trueSize - pl.size) = sizesAround pl'
    rw [hpl.realSize, hpl']
    unfold sizesAround
    show _ = (pl.before.map MmSegment.size).sum +
      (h.segmentSize trueSize + (pl.after.map MmSegment.size).sum)
    abel
  · rw [BitVec.le_def]
    omega

theorem reallocSegment_ok (hpl : h.Around pl blocks)
    (hsize : h.size = flushed + (pl.block.size + total (pl.others true)))
    (hacc : h.Accounts ((pl.ptr, pl.block.size) ::ₘ blocks) flushed)
    (hsegments : pl.write [pl.block] = h.segmentsList)
    (hreserve : ∀ r ∈ h.reserve, r ∈ pl.ptr ::ₘ blocks.map Prod.fst)
    (htrue : BlockSize (zendMmTrueSize size)) (howns : ownsSegment pl = true)
    (hstores : ∀ base ∈ answers.storageRealloc,
      base = pl.base ∨ base ∉ h.segmentsList.map MmSegment.base)
    (hkeeps : ¬((nextFree pl).isSome = true ∧ ¬ h.OverLimit pl size ∧
      answers.storageRealloc = none)) :
    ∃ h' out, h.reallocSegment pl (zendMmTrueSize size) answers = some (h', out) ∧
      h.HoldsAfter h' (blocks.map Prod.fst) (pl.ptr ::ₘ blocks.map Prod.fst)
        (flushed + h.flushedIf (h.OverLimit pl size ∨ answers.storageRealloc = none)) out := by
  have ⟨free, rest, hremoved, hreadd, hprev, hused, hfree⟩ := removed_ok hpl howns
  -- a heap that differs in the free lists alone gives the error that this one gives
  have hrefused : ∀ (h₁ : ZendMmHeap) (free rest : List MmPtr), h₁ = h.withLists free rest →
      h₁.listed = h.listed → ∃ h' out, h₁.zendMmFreeCache.bind zendMmSafeError = some (h', out) ∧
        h.HoldsAfter h' (blocks.map Prod.fst) (pl.ptr ::ₘ blocks.map Prod.fst)
          (flushed + h.cached.setWidth 64) out := by
    intro h₁ free rest hsame hlisted
    have hacc₁ : h₁.Accounts ((pl.ptr, pl.block.size) ::ₘ blocks) flushed := by
      have hcounts := Counts.relist hacc hsame hlisted
      unfold Accounts
      rw [hsame] at hcounts ⊢
      exact hcounts
    have hreserve₁ : h₁.reserve = h.reserve := by rw [hsame]; rfl
    have hcached₁ : h₁.cached = h.cached := by rw [hsame]; rfl
    have ⟨h', herror, hholds, hnone⟩ := flush_then_error hacc₁ (by
      rw [hreserve₁, Multiset.map_cons]
      exact hreserve)
    rw [withoutReserve_congr hreserve₁, hcached₁, Multiset.map_cons] at hholds
    exact ⟨h', _, herror, hholds, hnone⟩
  unfold reallocSegment
  simp only [hremoved, Option.bind_some]
  by_cases hlimit : h.OverLimit pl size
  · have hlimit' : (h.withLists free rest).segmentSize (zendMmTrueSize size) < zendMmTrueSize size ∨
        (h.withLists free rest).realSize + (h.withLists free rest).segmentSize (zendMmTrueSize size) -
          pl.size > (h.withLists free rest).limit := hlimit
    rw [if_pos hlimit', flushedIf_pos (Or.inl hlimit)]
    unfold addNext at hreadd ⊢
    cases hnext : nextFree pl with
    | none =>
      rw [hnext] at hreadd
      exact hrefused _ free rest rfl hreadd
    | some b =>
      rw [hnext] at hreadd
      exact hrefused _ (pl.nextPtr :: free) rest rfl hreadd
  · have hlimit' : ¬((h.withLists free rest).segmentSize (zendMmTrueSize size) <
        zendMmTrueSize size ∨
        (h.withLists free rest).realSize + (h.withLists free rest).segmentSize (zendMmTrueSize size) -
          pl.size > (h.withLists free rest).limit) := hlimit
    rw [if_neg hlimit']
    cases hstorage : answers.storageRealloc with
    | none =>
      rw [flushedIf_pos (Or.inr rfl)]
      unfold addNext at hreadd
      cases hnext : nextFree pl with
      | none =>
        rw [hnext] at hreadd
        exact hrefused _ free rest rfl hreadd
      | some b => exact absurd ⟨by rw [hnext]; rfl, hlimit, hstorage⟩ hkeeps
    | some base =>
      have hgiven : ¬(h.OverLimit pl size ∨ some base = none) := by
        intro hrefused
        cases hrefused with
        | inl hover => exact hlimit hover
        | inr hnone => exact absurd hnone (by simp)
      let pl' : MmPlace := { pl with
        base := base
        size := h.segmentSize (zendMmTrueSize size)
        block := ⟨h.segmentSize (zendMmTrueSize size) - zendMmAlignedSegmentSize -
          zendMmAlignedHeaderSize, true⟩
        next := [] }
      have ⟨haround, hothers, hle⟩ := around_segment hpl hprev hused hfree htrue
        (hstores base hstorage) hsegments (fun hsmall => hlimit (Or.inl hsmall))
        (rfl : pl' = _)
      have ⟨h', used, huse, hsame, hreserve', hcounts⟩ :=
        useBlock_counts haround htrue hle true flushed
      rw [add_flushedIf hgiven]
      refine ⟨h'.setSize (h'.size + used - pl.block.size), .returned pl'.ptr, ?_,
        ⟨_, Multiset.map_cons .., hcounts _ _ ?_⟩, hreserve'⟩
      · exact congrArg (fun r : ZendMmHeap × BitVec 64 =>
          some (r.1.setSize (r.1.size + r.2 - pl.block.size), MmOutcome.returned pl'.ptr)) huse
      · rw [hsame, hothers]
        show h.size + used - pl.block.size = _
        rw [hsize]
        abel

theorem swapCached_ok (hacc : h.Accounts ((p, size) ::ₘ blocks) flushed) (hblock : BlockSize size)
    (htrue : BlockSize trueSize) (hgrows : size < trueSize) {q : MmPtr}
    (htake : h.takeCached trueSize = some (q, h₁)) :
    ((h₁.setCached (h₁.cached.setWidth 64 - (trueSize - size))).putCached p size).Accounts
        ((q, trueSize) ::ₘ blocks) flushed ∧ h₁.reserve = h.reserve := by
  have ⟨cache, hheap, hsmall, hentries⟩ := takeCached_ok htrue htake
  rw [BitVec.lt_def] at hgrows
  have hlt := (zendMmSmallSize_iff _).mp hsmall
  have ⟨hbucket, hindex⟩ := bucketSize_index hblock ((zendMmSmallSize_iff size).mpr (by omega))
  have hput := cachedEntries_put cache hindex p
  rw [hbucket] at hput
  have hsum := hacc.cached
  rw [hentries, totalNat_cons] at hsum
  have hsum : h.cached.toNat = trueSize.toNat + totalNat (cachedEntries cache) := hsum
  have hdiff : (trueSize - size).toNat = trueSize.toNat - size.toNat :=
    BitVec.toNat_sub_of_le (by rw [BitVec.le_def]; omega)
  have hcached := @toNat_cached_sub h.cached (trueSize - size) (by omega)
  rw [hdiff] at hcached
  rw [hheap]
  refine ⟨⟨⟨hacc.laid.segments, hacc.laid.free, hacc.laid.realSize⟩, hacc.blockSize, ?_,
    hacc.size, ?_, ?_⟩, rfl⟩
  · show entries true h.segmentsList =
      (q, trueSize) ::ₘ blocks + cachedEntries (Function.update cache (zendMmBucketIndex size)
        (p :: cache (zendMmBucketIndex size)))
    rw [hput, hacc.used, hentries, Multiset.add_cons, Multiset.add_cons, Multiset.cons_add,
      Multiset.cons_add, Multiset.cons_swap]
  · show ((h.cached.setWidth 64 - (trueSize - size)).setWidth 32).toNat =
      totalNat (cachedEntries (Function.update cache (zendMmBucketIndex size)
        (p :: cache (zendMmBucketIndex size))))
    rw [hput, totalNat_cons, hcached, hsum]
    show _ = size.toNat + _
    omega
  · show ((h.cached.setWidth 64 - (trueSize - size)).setWidth 32).toNat < _
    have hbound := hacc.bound
    rw [hcached]
    omega

theorem zendMmReallocInt_ok (hh : h.Holds (p ::ₘ handed) flushed)
    (hreserve : ∀ r ∈ h.reserve, r ∈ handed)
    (hoffers : h.Offers (zendMmTrueSize size) answers.bestFit)
    (hstores : h.Stores answers.storageAlloc)
    (hrealloc : ∀ base ∈ answers.storageRealloc,
      base = p.segment ∨ base ∉ h.segmentsList.map MmSegment.base)
    (hkeeps : ∀ pl ∈ h.blockAt p, ¬ h.LosesBlock pl size answers) :
    ∃ pl ∈ h.blockAt p, ∃ h' out, h.zendMmReallocInt (some p) size answers = some (h', out) ∧
      h.HoldsAfter h' handed (p ::ₘ handed)
        (flushed + h.flushedIf (h.ReallocRefused pl size answers)) out := by
  have ⟨orig, blocks, hmap, hacc⟩ := hh.block
  have ⟨pl, hfind, horig, hptr, hpl, hsegments, hsize⟩ := around_used hacc
  have hreserve' : ∀ r ∈ h.reserve, r ∈ p ::ₘ handed :=
    fun r hr => Multiset.mem_cons_of_mem (hreserve r hr)
  rw [← horig] at hsize hacc
  rw [← hptr] at hacc
  refine ⟨pl, hfind, ?_⟩
  unfold zendMmReallocInt
  simp only [hfind, Option.bind_some]
  by_cases hover : zendMmTrueSize size < size
  · rw [if_pos hover, add_flushedIf (fun hrefused => hrefused.1.1 hover)]
    have ⟨h', herror, hholds⟩ := zendMmSafeError_ok hh hreserve'
    exact ⟨h', _, herror, hholds⟩
  have htrue := zendMmTrueSize_spec (fun hboth => hover hboth.2)
  rw [if_neg hover]
  by_cases hshrink : zendMmTrueSize size ≤ pl.block.size
  · rw [if_pos hshrink, add_flushedIf (fun hrefused => hrefused.1.2.1 hshrink)]
    have ⟨h', used, hdone, hacc', hkept⟩ := shrinkBlock_ok hpl hsize hacc htrue hshrink
    rw [hdone]
    refine ⟨h', _, rfl, ⟨_, ?_, hacc'⟩, hkept⟩
    rw [Multiset.map_cons, hmap, hptr]
  rw [if_neg hshrink]
  cases htake : h.takeCached (zendMmTrueSize size) with
  | some taken =>
    have ⟨hacc', hkept⟩ :=
      swapCached_ok hacc hpl.ok.blockSize htrue (BitVec.not_le.mp hshrink) htake
    rw [add_flushedIf (fun hrefused => absurd hrefused.1.2.2.1 (by
      rw [htake]
      exact Bool.false_ne_true))]
    rw [hptr] at hacc'
    exact ⟨_, _, rfl, ⟨_, by rw [Multiset.map_cons, hmap], hacc'⟩, hkept⟩
  | none =>
    have hnone : (h.takeCached (zendMmTrueSize size)).isNone = true := by
      rw [htake]
      rfl
    by_cases hroom : roomBehind pl (zendMmTrueSize size) = true
    · simp only [hroom, if_true]
      have ⟨h', used, hdone, hacc', hkept⟩ := growBlock_ok hpl hsize htrue hroom
      rw [hdone, add_flushedIf (fun hrefused => absurd hrefused.1.2.2.2 (by
        rw [hroom]
        decide))]
      refine ⟨h', _, rfl, ⟨_, ?_, hacc'⟩, hkept⟩
      rw [Multiset.map_cons, hmap, hptr]
    · have hneeds : h.NeedsRoom pl size :=
        ⟨hover, hshrink, hnone, eq_false_of_ne_true hroom⟩
      simp only [hroom]
      by_cases howns : ownsSegment pl = true
      · have hbase : pl.base = p.segment := congrArg MmPtr.segment hptr
        have ⟨h', out, hdone, hholds⟩ := reallocSegment_ok hpl hsize hacc hsegments (by
            rw [hptr, hmap]
            exact hreserve') htrue howns (by rw [hbase]; exact hrealloc)
          fun hloses => hkeeps pl hfind ⟨hneeds, howns, hloses⟩
        rw [hptr, hmap] at hholds
        have hiff : h.ReallocRefused pl size answers ↔
            h.OverLimit pl size ∨ answers.storageRealloc = none := by
          unfold ReallocRefused
          rw [if_pos howns]
          exact ⟨And.right, fun hrefused => ⟨hneeds, hrefused⟩⟩
        rw [flushedIf_congr hiff]
        simp only [howns, if_true]
        exact ⟨h', out, hdone, hholds⟩
      · -- a new block, and the old one given back
        have hiff : h.ReallocRefused pl size answers ↔ h.AllocRefused size answers := by
          unfold ReallocRefused
          rw [if_neg howns]
          exact ⟨And.right, fun hrefused => ⟨hneeds, hrefused⟩⟩
        have hall : Multiset.map Prod.fst ((pl.ptr, pl.block.size) ::ₘ blocks) = p ::ₘ handed := by
          rw [Multiset.map_cons, hmap, hptr]
        have ⟨h₁, out, halloc, hholds⟩ := zendMmAllocInt_ok hacc (by
          rw [hall]
          exact hreserve') hoffers hstores
        rw [hall] at hholds
        rw [flushedIf_congr hiff]
        simp only [howns, halloc, Option.bind_some]
        cases out with
        | bailout => exact ⟨h₁, _, rfl, hholds⟩
        | returned q =>
          have hswap := hholds.1
          rw [Multiset.cons_swap] at hswap
          have ⟨h', hfree, hholds', hkept⟩ := hswap.free
          simp only [hfree]
          exact ⟨h', _, rfl, hholds', hkept.trans hholds.2⟩

/-- `ZEND_MM_BLOCK_SIZE` of the block at a pointer. -/
def sizeAt (h : ZendMmHeap) (p : MmPtr) : ℕ :=
  ((h.blockAt p).map fun pl => pl.block.size.toNat).getD 0

def Fits (h : ZendMmHeap) : Prop := (h.segmentsList.map fun s => s.size.toNat).sum < 2 ^ 64

theorem sizeAt_of_mem (hlaid : h.Laid) (hmem : (p, size) ∈ entries true h.segmentsList) :
    h.sizeAt p = size.toNat := by
  have ⟨pl, hfind, hblock, _⟩ := hlaid.blockAt hmem
  unfold sizeAt
  rw [hfind, Option.map_some, Option.getD_some, hblock]

theorem totalNat_add (as bs : Multiset (MmPtr × BitVec 64)) :
    totalNat (as + bs) = totalNat as + totalNat bs := by
  unfold totalNat
  rw [Multiset.map_add, Multiset.sum_add]

theorem totalNat_sum (s : Finset ℕ) (f : ℕ → Multiset (MmPtr × BitVec 64)) :
    totalNat (∑ i ∈ s, f i) = ∑ i ∈ s, totalNat (f i) :=
  map_sum (⟨⟨totalNat, rfl⟩, totalNat_add⟩ : Multiset (MmPtr × BitVec 64) →+ ℕ) f s

theorem totalNat_entriesFrom (used : Bool) (base pos : ℕ) (bs : List MmBlock) :
    totalNat (entriesFrom used base pos bs) ≤ bytes bs := by
  induction bs generalizing pos with
  | nil => exact Nat.le_refl 0
  | cons b bs ih =>
    have htail := ih (pos + b.size.toNat)
    rw [entriesFrom, bytes_cons]
    split
    · rw [← Multiset.cons_coe, totalNat_cons]
      exact Nat.add_le_add_left htail _
    · omega

theorem totalNat_entries (used : Bool) {segments : List MmSegment}
    (hok : ∀ s ∈ segments, SegmentOk s) :
    totalNat (entries used segments) ≤ (segments.map fun s => s.size.toNat).sum := by
  induction segments with
  | nil => exact Nat.le_refl 0
  | cons s ss ih =>
    have hfilled := (hok s List.mem_cons_self).filled
    have hs := totalNat_entriesFrom used s.base 0 s.blocks
    have hss := ih fun t ht => hok t (List.mem_cons_of_mem _ ht)
    rw [entries_cons, totalNat_add, List.map_cons, List.sum_cons]
    omega

theorem toNat_sizes (segments : List MmSegment) :
    ((segments.map MmSegment.size).sum).toNat =
      (segments.map fun s => s.size.toNat).sum % 2 ^ 64 := by
  induction segments with
  | nil => rfl
  | cons s ss ih =>
    rw [List.map_cons, List.sum_cons, BitVec.toNat_add, ih, List.map_cons, List.sum_cons]
    omega

theorem totalNat_cached (hlaid : h.Laid) {rest : Multiset (MmPtr × BitVec 64)}
    (hused : entries true h.segmentsList = rest + cachedEntries h.cache) :
    totalNat (cachedEntries h.cache) =
      ∑ i ∈ Finset.range zendMmNumBuckets, ((h.cache i).map h.sizeAt).sum := by
  have hbucket : ∀ i ∈ Finset.range zendMmNumBuckets,
      totalNat (bucketEntries i (h.cache i)) = ((h.cache i).map h.sizeAt).sum := by
    intro i hi
    have hsame : ∀ p ∈ h.cache i, (bucketSize i).toNat = h.sizeAt p := by
      intro p hp
      symm
      apply sizeAt_of_mem hlaid
      have hin : (p, bucketSize i) ∈ bucketEntries i (h.cache i) :=
        Multiset.mem_coe.mpr (List.mem_map_of_mem hp)
      rw [hused, Multiset.mem_add]
      apply Or.inr
      unfold cachedEntries
      rw [Multiset.mem_sum]
      exact ⟨i, hi, hin⟩
    have hmap := List.map_congr_left hsame
    unfold totalNat bucketEntries
    rw [Multiset.map_coe, Multiset.sum_coe, List.map_map, ← hmap]
    rfl
  unfold cachedEntries
  rw [totalNat_sum, Finset.sum_congr rfl hbucket]

end ZendMmHeap

inductive MmCall
  | alloc (size : BitVec 64) (answers : MmAnswers)
  | free (p : Option MmPtr)
  | realloc (p : Option MmPtr) (size : BitVec 64) (answers : MmAnswers)
  | setLimit (memoryLimit : BitVec 64)

abbrev MmState := ZendMmHeap × Multiset MmPtr

open ZendMmHeap

def givenBack (handed : Multiset MmPtr) : Option MmPtr → Multiset MmPtr
  | none => handed
  | some p => handed.erase p

def handedAfter (h : ZendMmHeap) (kept handed : Multiset MmPtr) : MmOutcome → Multiset MmPtr
  | .returned p => p ::ₘ kept
  | .bailout => h.withoutReserve handed

def mmCallStep : MmState → MmCall → Option MmState
  | (h, handed), .alloc size answers =>
    (h.zendMmAllocInt size answers).map fun (h', out) => (h', handedAfter h handed handed out)
  | (h, handed), .free p => (h.zendMmFreeInt p).map fun h' => (h', givenBack handed p)
  | (h, handed), .realloc p size answers =>
    (h.zendMmReallocInt p size answers).map fun (h', out) =>
      (h', handedAfter h (givenBack handed p) handed out)
  | (h, handed), .setLimit memoryLimit => some (h.zendSetMemoryLimit memoryLimit, handed)

def HandedTo : MmState → Option MmPtr → Prop
  | (h, handed), p => ∀ q ∈ p, q ∈ handed ∧ h.reserve ≠ some q

/-- What callers, the search and the storage may do. -/
def CallPermitted : MmState → MmCall → Prop
  | (h, _), .alloc size answers =>
    h.Offers (zendMmTrueSize size) answers.bestFit ∧ h.Stores answers.storageAlloc
  | s, .free p => HandedTo s p
  | (h, handed), .realloc p size answers =>
    HandedTo (h, handed) p ∧ h.Offers (zendMmTrueSize size) answers.bestFit ∧
      h.Stores answers.storageAlloc ∧ ∀ base ∈ answers.storageRealloc,
        (∃ q ∈ p, base = q.segment) ∨ base ∉ h.segmentsList.map MmSegment.base
  | _, .setLimit _ => True

def CallRefused : MmState → MmCall → Prop
  | (h, _), .alloc size answers => h.AllocRefused size answers
  | _, .free _ => False
  | (h, _), .realloc none size answers => h.AllocRefused size answers
  | (h, _), .realloc (some p) size answers =>
    ∃ pl ∈ h.blockAt p, h.ReallocRefused pl size answers
  | _, .setLimit _ => False

def CallLoses : MmState → MmCall → Prop
  | (h, _), .realloc (some p) size answers => ∃ pl ∈ h.blockAt p, h.LosesBlock pl size answers
  | _, _ => False

def CacheEmpty (h : ZendMmHeap) : Prop := ∀ i < zendMmNumBuckets, h.cache i = []

instance (h : ZendMmHeap) (trueSize : BitVec 64) (bestFit : Option MmPtr) :
    Decidable (h.Offers trueSize bestFit) :=
  inferInstanceAs (Decidable (∀ p ∈ bestFit, _ ∧ _))

instance (h : ZendMmHeap) (storage : Option ℕ) : Decidable (h.Stores storage) :=
  inferInstanceAs (Decidable (∀ base ∈ storage, _))

instance (h : ZendMmHeap) : Decidable h.Fits := inferInstanceAs (Decidable (_ < _))

instance (s : MmState) (p : Option MmPtr) : Decidable (HandedTo s p) :=
  inferInstanceAs (Decidable (∀ q ∈ p, _ ∧ _))

instance : ∀ s call, Decidable (CallPermitted s call)
  | (_, _), .alloc _ _ => inferInstanceAs (Decidable (_ ∧ _))
  | s, .free p => inferInstanceAs (Decidable (HandedTo s p))
  | _, .realloc p _ answers =>
    inferInstanceAs (Decidable (_ ∧ _ ∧ _ ∧ ∀ base ∈ answers.storageRealloc,
      (∃ q ∈ p, base = q.segment) ∨ _))
  | _, .setLimit _ => inferInstanceAs (Decidable True)

instance : ∀ s call, Decidable (CallRefused s call)
  | (h, _), .alloc size answers => inferInstanceAs (Decidable (h.AllocRefused size answers))
  | _, .free _ => inferInstanceAs (Decidable False)
  | (h, _), .realloc none size answers => inferInstanceAs (Decidable (h.AllocRefused size answers))
  | (h, _), .realloc (some p) _ _ => inferInstanceAs (Decidable (∃ pl ∈ h.blockAt p, _))
  | _, .setLimit _ => inferInstanceAs (Decidable False)

instance : ∀ s call, Decidable (CallLoses s call)
  | _, .alloc _ _ => inferInstanceAs (Decidable False)
  | _, .free _ => inferInstanceAs (Decidable False)
  | _, .realloc none _ _ => inferInstanceAs (Decidable False)
  | (h, _), .realloc (some p) _ _ => inferInstanceAs (Decidable (∃ pl ∈ h.blockAt p, _))
  | _, .setLimit _ => inferInstanceAs (Decidable False)

instance (h : ZendMmHeap) : Decidable (CacheEmpty h) :=
  inferInstanceAs (Decidable (∀ i < zendMmNumBuckets, _))

def CallKeeps (s : MmState) (call : MmCall) : Prop :=
  (CallRefused s call → CacheEmpty s.1) ∧ ¬ CallLoses s call

instance (s : MmState) (call : MmCall) : Decidable (CallKeeps s call) :=
  inferInstanceAs (Decidable ((_ → _) ∧ _))

/-- The counters count the blocks of the cache, the blocks handed out, and the segments. -/
structure Accounted (s : MmState) : Prop where
  cached : s.1.cached.toNat =
    ∑ i ∈ Finset.range zendMmNumBuckets, ((s.1.cache i).map s.1.sizeAt).sum
  usage : (s.1.zendMemoryUsage false).toNat = (s.2.map s.1.sizeAt).sum
  realUsage : (s.1.zendMemoryUsage true).toNat = (s.1.segmentsList.map fun s => s.size.toNat).sum

/-- The accounts of a run, up to what has been flushed, and the reserve among what is handed out. -/
structure InOrder (s : MmState) (flushed : BitVec 64) : Prop where
  holds : s.1.Holds s.2 flushed
  reserve : ∀ r ∈ s.1.reserve, r ∈ s.2

variable {s : MmState} {flushed : BitVec 64}

theorem accounted_iff (hs : InOrder s flushed) (hfits : s.1.Fits) : Accounted s ↔ flushed = 0 := by
  have ⟨blocks, hmap, hacc⟩ := hs.holds
  have hbound := totalNat_entries true hacc.laid.segments.each
  rw [hacc.used, totalNat_add] at hbound
  unfold Fits at hfits
  have hreal : (s.1.zendMemoryUsage true).toNat =
      (s.1.segmentsList.map fun s => s.size.toNat).sum := by
    show s.1.realSize.toNat = _
    rw [hacc.laid.realSize, toNat_sizes, Nat.mod_eq_of_lt hfits]
  have hhanded : (s.2.map s.1.sizeAt).sum = totalNat blocks := by
    have hsame : ∀ e ∈ blocks, s.1.sizeAt e.1 = e.2.toNat := by
      intro e he
      apply sizeAt_of_mem hacc.laid
      rw [hacc.used]
      exact Multiset.mem_add.mpr (Or.inl he)
    rw [← hmap, Multiset.map_map]
    exact congrArg Multiset.sum (Multiset.map_congr rfl hsame)
  have husage : s.1.zendMemoryUsage false = flushed + total blocks := by
    show s.1.size - s.1.cached.setWidth 64 = _
    rw [hacc.size, hacc.cached_eq, hacc.used, total_add]
    abel
  have htotal : (total blocks).toNat = totalNat blocks := by
    rw [toNat_total]
    exact Nat.mod_eq_of_lt (by omega)
  constructor
  · intro haccounted
    have heq := haccounted.usage
    rw [husage, hhanded, ← htotal] at heq
    have hsum := BitVec.eq_of_toNat_eq heq
    exact add_eq_right.mp hsum
  · intro hnone
    refine ⟨?_, ?_, hreal⟩
    · rw [← totalNat_cached hacc.laid hacc.used]
      exact hacc.cached
    · rw [husage, hhanded, hnone, zero_add, htotal]

theorem cacheEmpty_iff {blocks : Multiset (MmPtr × BitVec 64)} (hacc : h.Accounts blocks flushed)
    : CacheEmpty h ↔ h.cached.setWidth 64 = 0 := by
  constructor
  · intro hempty
    have hnone : cachedEntries h.cache = 0 := by
      apply Finset.sum_eq_zero
      intro i hi
      rw [hempty i (Finset.mem_range.mp hi)]
      rfl
    rw [hacc.cached_eq, hnone]
    rfl
  · intro hzero i hi
    have hcached := congrArg BitVec.toNat hzero
    rw [BitVec.toNat_setWidth, hacc.cached] at hcached
    have hcached : totalNat (cachedEntries h.cache) % 2 ^ 64 = 0 := hcached
    have hbound := hacc.bound
    unfold zendMmCacheSize zendMmNumBuckets at hbound
    rw [hacc.cached] at hbound
    -- one block would make the total positive
    cases hbucket : h.cache i with
    | nil => rfl
    | cons p rest =>
      have htake := cachedEntries_take hi hbucket
      have hsize : (bucketSize i).toNat = 32 + 8 * i := by
        unfold bucketSize
        unfold zendMmNumBuckets at hi
        rw [BitVec.toNat_ofNat]
        omega
      rw [htake, totalNat_cons] at hcached hbound
      dsimp only at hcached hbound
      omega

theorem Holds.setLimit (hh : h.Holds handed flushed) (limit : BitVec 64)
    : { h with limit := limit }.Holds handed flushed := by
  have ⟨blocks, hmap, hacc⟩ := hh
  exact ⟨blocks, hmap, ⟨hacc.laid.segments, hacc.laid.free, hacc.laid.realSize⟩, hacc.blockSize,
    hacc.used, hacc.size, hacc.cached, hacc.bound⟩

theorem InOrder.after {h' : ZendMmHeap} {kept : Multiset MmPtr} {out : MmOutcome}
    (hholds : h.HoldsAfter h' kept handed flushed out) (hreserve : ∀ r ∈ h.reserve, r ∈ kept) :
    InOrder (h', handedAfter h kept handed out) flushed := by
  cases out with
  | returned p =>
    refine ⟨hholds.1, fun r hr => ?_⟩
    have hr : r ∈ h'.reserve := hr
    rw [hholds.2] at hr
    exact Multiset.mem_cons_of_mem (hreserve r hr)
  | bailout =>
    refine ⟨hholds.1, fun r hr => ?_⟩
    have hr : r ∈ h'.reserve := hr
    rw [hholds.2] at hr
    exact absurd hr (by simp)

theorem reserve_kept {p : MmPtr} (hreserve : ∀ r ∈ h.reserve, r ∈ handed) (hp : h.reserve ≠ some p)
    :
    ∀ r ∈ h.reserve, r ∈ handed.erase p := by
  intro r hr
  have hne : r ≠ p := by
    intro heq
    rw [heq] at hr
    exact hp hr
  exact (Multiset.mem_erase_of_ne hne).mpr (hreserve r hr)

theorem InOrder.step (hs : InOrder s flushed) {call : MmCall} (hpermitted : CallPermitted s call)
    (hloses : ¬ CallLoses s call) :
    ∃ s' flushed', mmCallStep s call = some s' ∧ InOrder s' flushed' ∧
      (CallRefused s call → flushed' = flushed + s.1.cached.setWidth 64) ∧
      (¬ CallRefused s call → flushed' = flushed) := by
  have ⟨h, handed⟩ := s
  have hreserve : ∀ r ∈ h.reserve, r ∈ handed := hs.reserve
  have hallocate : ∀ size answers, h.Offers (zendMmTrueSize size) answers.bestFit →
      h.Stores answers.storageAlloc →
      ∃ h' out flushed', h.zendMmAllocInt size answers = some (h', out) ∧
        InOrder (h', handedAfter h handed handed out) flushed' ∧
        (h.AllocRefused size answers → flushed' = flushed + h.cached.setWidth 64) ∧
        (¬ h.AllocRefused size answers → flushed' = flushed) := by
    intro size answers hoffers hstores
    have ⟨blocks, hmap, hacc⟩ := hs.holds
    have hmap : blocks.map Prod.fst = handed := hmap
    have ⟨h', out, halloc, hholds⟩ := zendMmAllocInt_ok hacc (by rw [hmap]; exact hreserve)
      hoffers hstores
    rw [hmap] at hholds
    exact ⟨h', out, _, halloc, InOrder.after hholds hreserve,
      fun hrefused => by rw [flushedIf_pos hrefused], fun hgiven => add_flushedIf hgiven⟩
  cases call with
  | alloc size answers =>
    have ⟨h', out, flushed', halloc, hafter, hrefused⟩ :=
      hallocate size answers hpermitted.1 hpermitted.2
    exact ⟨_, flushed', by rw [mmCallStep, halloc]; rfl, hafter, hrefused⟩
  | free p =>
    cases p with
    | none => exact ⟨(h, handed), flushed, rfl, hs, fun h => absurd h id, fun _ => rfl⟩
    | some p =>
      have ⟨hp, hother⟩ := hpermitted p rfl
      have hholds : h.Holds handed flushed := hs.holds
      rw [← Multiset.cons_erase hp] at hholds
      have ⟨h', hfree, hholds', hsame⟩ := hholds.free
      refine ⟨(h', handed.erase p), flushed, by rw [mmCallStep, hfree]; rfl, ⟨hholds', ?_⟩,
        fun h => absurd h id, fun _ => rfl⟩
      intro r hr
      have hr : r ∈ h'.reserve := hr
      rw [hsame] at hr
      exact reserve_kept hreserve hother r hr
  | realloc p size answers =>
    have ⟨hhanded, hoffers, hstores, hstorage⟩ := hpermitted
    cases p with
    | none =>
      have ⟨h', out, flushed', halloc, hafter, hrefused⟩ := hallocate size answers hoffers hstores
      exact ⟨_, flushed', by rw [mmCallStep, zendMmReallocInt, halloc]; rfl, hafter, hrefused⟩
    | some p =>
      have ⟨hp, hother⟩ := hhanded p rfl
      have hkept := reserve_kept hreserve hother
      have hholds : h.Holds handed flushed := hs.holds
      rw [← Multiset.cons_erase hp] at hholds
      have ⟨pl, hfind, h', out, hrealloc, hafter⟩ := zendMmReallocInt_ok hholds hkept hoffers hstores
        (fun base hbase => (hstorage base hbase).imp (fun ⟨q, hq, heq⟩ => by
          rw [Option.some.inj hq]
          exact heq) id)
        fun pl hpl hlost => hloses ⟨pl, hpl, hlost⟩
      rw [Multiset.cons_erase hp] at hafter
      have hiff : CallRefused (h, handed) (.realloc (some p) size answers) ↔
          h.ReallocRefused pl size answers := by
        constructor
        · intro hrefused
          have ⟨pl', hfind', hrefused'⟩ := hrefused
          rw [Option.some.inj (hfind.symm.trans hfind')]
          exact hrefused'
        · exact fun hrefused => ⟨pl, hfind, hrefused⟩
      refine ⟨_, _, by rw [mmCallStep, hrealloc]; rfl, InOrder.after hafter hkept, ?_, ?_⟩
      · intro hrefused
        rw [flushedIf_pos (hiff.mp hrefused)]
      · intro hgiven
        exact add_flushedIf fun hrefused => hgiven (hiff.mpr hrefused)
  | setLimit memoryLimit =>
    exact ⟨_, flushed, rfl, ⟨Holds.setLimit hs.holds _, hreserve⟩, fun h => absurd h id,
      fun _ => rfl⟩

theorem toNat_of_low_eq_high {size : BitVec 64} (h : zendMmLowBit size = zendMmHighBit size)
    (hsize : size ≠ 0) : size.toNat = 2 ^ zendMmHighBit size := by
  have hbelow := (zendMmLowBit_spec hsize).2
  have hdiv := div_highBit hsize
  rw [h] at hbelow
  have hmod : size.toNat % 2 ^ zendMmHighBit size = 0 := by
    apply Nat.eq_of_testBit_eq
    intro j
    rw [Nat.testBit_mod_two_pow, Nat.zero_testBit, Bool.and_eq_false_iff]
    by_cases hj : j < zendMmHighBit size
    · exact Or.inr (hbelow j hj)
    · exact Or.inl (decide_eq_false hj)
  have hsplit := Nat.div_add_mod size.toNat (2 ^ zendMmHighBit size)
  rw [hdiv, hmod] at hsplit
  omega

def handedAtStart (h : ZendMmHeap) : Multiset MmPtr := h.reserve.elim 0 ({·})

theorem startup_inOrder {segSize reserveSize : BitVec 64} {storage : Option ℕ}
    (hstart : zendMmStartup segSize reserveSize storage = some h) :
    InOrder (h, handedAtStart h) 0 := by
  unfold zendMmStartup at hstart
  by_cases hpower : zendMmLowBit segSize ≠ zendMmHighBit segSize
  · rw [if_pos hpower] at hstart
    exact absurd hstart (by simp)
  by_cases hsmall : segSize < zendMmAlignedSegmentSize + zendMmAlignedHeaderSize
  · rw [if_neg hpower, if_pos hsmall] at hstart
    exact absurd hstart (by simp)
  rw [if_neg hpower, if_neg hsmall] at hstart
  have hge : 32 ≤ segSize.toNat := BitVec.not_lt.mp hsmall
  have hblockSize : ∃ k, 5 ≤ k ∧ segSize.toNat = 2 ^ k := by
    have hsize : segSize ≠ 0 := by
      intro hzero
      rw [hzero] at hge
      exact absurd hge (by decide)
    have heq := toNat_of_low_eq_high (not_not.mp hpower) hsize
    refine ⟨_, ?_, heq⟩
    by_contra hlow
    have hlt : 2 ^ zendMmHighBit segSize < 2 ^ 5 :=
      Nat.pow_lt_pow_right (by decide) (Nat.lt_of_not_le hlow)
    omega
  generalize hheap : (ZendMmHeap.mk segSize [] 0 0 (1#64 <<< (zendMmNumBuckets - 2)) 0 0 none 0 0
    (fun _ => []) [] []) = heap at hstart
  have hempty : cachedEntries heap.cache = 0 := by
    rw [← hheap]
    apply Finset.sum_eq_zero
    intro i _
    rfl
  have hacc : heap.Accounts 0 0 := by
    unfold Accounts
    rw [hempty, ← hheap]
    exact ⟨⟨⟨List.nodup_nil, fun s hs => absurd hs (List.not_mem_nil)⟩, rfl, rfl⟩, hblockSize, rfl,
      rfl, rfl, by show 0 < zendMmCacheSize + 544; decide⟩
  have hcached : heap.cached = 0 := by rw [← hheap]
  have hreserve : heap.reserve = none := by rw [← hheap]
  have hsegments : heap.segmentsList = [] := by rw [← hheap]
  by_cases hset : reserveSize > 0
  · simp only [if_pos hset] at hstart
    have ⟨h', out, halloc, hholds⟩ := @zendMmAllocInt_ok heap reserveSize 0
      ⟨none, storage, none⟩ 0 hacc (by
        rw [hreserve]
        exact fun r hr => absurd hr (by simp))
      (fun p hp => absurd hp (by simp)) (by
        unfold Stores
        rw [hsegments]
        exact fun base _ => List.not_mem_nil)
    have hnothing : (0 : BitVec 64) + heap.flushedIf
        (heap.AllocRefused reserveSize ⟨none, storage, none⟩) = 0 := by
      unfold flushedIf
      rw [hcached]
      split <;> rfl
    rw [hnothing] at hholds
    rw [halloc] at hstart
    cases out with
    | bailout => exact absurd hstart (by simp)
    | returned p =>
      have heq : { h' with reserve := some p } = h := Option.some.inj hstart
      have hafter := hholds.1
      rw [← heq]
      refine ⟨hafter.settle (some p) h'.overflow, fun r hr => ?_⟩
      rw [show r = p from (Option.some.inj hr).symm]
      exact Multiset.mem_singleton_self p
  · rw [if_neg hset] at hstart
    rw [← Option.some.inj hstart]
    refine ⟨⟨0, ?_, hacc⟩, ?_⟩
    · show 0 = handedAtStart heap
      unfold handedAtStart
      rw [hreserve]
      rfl
    · show ∀ r ∈ heap.reserve, _
      rw [hreserve]
      exact fun r hr => absurd hr (by simp)

/-- In a run in which no call flushes cached blocks or loses a free one, the counters are right in
    every state, no call gets stuck, and the next call leaves them right exactly when it does not
    flush cached blocks either. -/
theorem memory_accounted {segSize reserveSize : BitVec 64} {storage : Option ℕ}
    {h₀ : ZendMmHeap} {calls : List MmCall} {s : MmState}
    (hstart : zendMmStartup segSize reserveSize storage = some h₀)
    (hrun : Run mmCallStep (fun s call => CallPermitted s call ∧ CallKeeps s call)
      (h₀, handedAtStart h₀) calls s) (hfits : s.1.Fits) :
    Accounted s ∧ ∀ call, CallPermitted s call → ¬ CallLoses s call →
      ∃ s', mmCallStep s call = some s' ∧
        (s'.1.Fits → (Accounted s' ↔ (CallRefused s call → CacheEmpty s.1))) := by
  have hs : InOrder s 0 := by
    refine hrun.invariant (I := fun s => InOrder s 0) (startup_inOrder hstart) ?_
    intro s call t hs hok hstep
    have ⟨s', flushed', hstep', hs', hrefused, hgiven⟩ := hs.step hok.1 hok.2.2
    rw [← Option.some.inj (hstep'.symm.trans hstep)]
    by_cases hcase : CallRefused s call
    · have ⟨blocks, _, hacc⟩ := hs.holds
      rw [hrefused hcase, (cacheEmpty_iff hacc).mp (hok.2.1 hcase), add_zero] at hs'
      exact hs'
    · rwa [hgiven hcase] at hs'
  refine ⟨(accounted_iff hs hfits).mpr rfl, fun call hpermitted hloses => ?_⟩
  have ⟨s', flushed', hstep, hs', hrefused, hgiven⟩ := hs.step hpermitted hloses
  refine ⟨s', hstep, fun hfits' => ?_⟩
  rw [accounted_iff hs' hfits']
  have ⟨blocks, _, hacc⟩ := hs.holds
  by_cases hcase : CallRefused s call
  · rw [hrefused hcase, zero_add, ← cacheEmpty_iff hacc]
    exact ⟨fun hempty _ => hempty, fun hempty => hempty hcase⟩
  · rw [hgiven hcase]
    exact ⟨fun _ h => absurd h hcase, fun _ => rfl⟩

def smallBlock : MmPtr := ⟨4096, 8208⟩

/-- The state behind calls permitted by `ok`, from the heap that `zend_mm_startup` makes. -/
def runFromStartup (ok : MmState → MmCall → Prop) [∀ s call, Decidable (ok s call)]
    (calls : List MmCall) : Option MmState :=
  (zendMmStartup 262144 8192 (some 4096)).bind fun h => exec mmCallStep ok (h, handedAtStart h) calls

theorem run_of_runFromStartup {ok : MmState → MmCall → Prop} [∀ s call, Decidable (ok s call)]
    {calls : List MmCall} {s : MmState} (h : runFromStartup ok calls = some s) :
    ∃ h₀, zendMmStartup 262144 8192 (some 4096) = some h₀ ∧
      Run mmCallStep ok (h₀, handedAtStart h₀) calls s := by
  have ⟨h₀, hstart, hexec⟩ := Option.bind_eq_some_iff.mp h
  have hrun := Run.append_exec (Run.nil (h₀, handedAtStart h₀)) hexec
  exact ⟨h₀, hstart, hrun⟩

set_option maxRecDepth 4000 in
theorem memory_accounted_sample : ∃ h₀ s,
    zendMmStartup 262144 8192 (some 4096) = some h₀ ∧
      Run mmCallStep (fun s call => CallPermitted s call ∧ CallKeeps s call) (h₀, handedAtStart h₀)
        [.alloc 8 ⟨some smallBlock, none, none⟩, .free (some smallBlock),
          .alloc 8 ⟨none, none, none⟩] s ∧ s.1.Fits ∧ Accounted s := by
  have hsome : (runFromStartup (fun s call => CallPermitted s call ∧ CallKeeps s call)
      [.alloc 8 ⟨some smallBlock, none, none⟩, .free (some smallBlock),
        .alloc 8 ⟨none, none, none⟩]).map (fun s => decide s.1.Fits) = some true := by decide
  have ⟨s, hexec, hfits⟩ := Option.map_eq_some_iff.mp hsome
  have hfits := of_decide_eq_true hfits
  have ⟨h₀, hstart, hrun⟩ := run_of_runFromStartup hexec
  exact ⟨h₀, s, hstart, hrun, hfits, (memory_accounted hstart hrun hfits).1⟩

set_option maxRecDepth 4000 in
/-- A block of 32 bytes is in the cache when the limit refuses a call: behind the error nothing is
    handed out, yet 32 bytes are reported as used. -/
theorem flush_breaks_accounts : ¬ ∀ h₀ calls s,
    zendMmStartup 262144 8192 (some 4096) = some h₀ →
      Run mmCallStep CallPermitted (h₀, handedAtStart h₀) calls s → s.1.Fits → Accounted s := by
  intro hall
  have hsome : (runFromStartup CallPermitted
      [.alloc 8 ⟨some smallBlock, none, none⟩, .free (some smallBlock),
        .alloc (1#64 <<< 62) ⟨none, none, none⟩]).map (fun s => (decide s.1.Fits,
          (s.1.zendMemoryUsage false).toNat, (s.2.map s.1.sizeAt).sum)) = some (true, 32, 0) := by
    decide
  have ⟨s, hexec, hvalues⟩ := Option.map_eq_some_iff.mp hsome
  have ⟨h₀, hstart, hrun⟩ := run_of_runFromStartup hexec
  have ⟨hfits, husage, hhanded⟩ : decide s.1.Fits = true ∧
      (s.1.zendMemoryUsage false).toNat = 32 ∧ (s.2.map s.1.sizeAt).sum = 0 := by
    rwa [Prod.mk.injEq, Prod.mk.injEq] at hvalues
  have haccounted := hall h₀ _ s hstart hrun (of_decide_eq_true hfits)
  rw [haccounted.usage, hhanded] at husage
  exact absurd husage (by decide)

end Php53.Zend
