import Php53.Zend.Alloc.Layout

/-!
# Accounting — what the counters of the heap count

The used blocks of the segments are the blocks handed out and those in the cache.  `heap->size`
counts them all, `heap->cached` those in the cache, and each call keeps both counts; only
`zend_mm_free_cache` takes blocks out of the cache and gives them back without a word to
`heap->size`.
-/

namespace Php53.Zend

/-- The size of the blocks in the bucket `i` of the cache. -/
def bucketSize (i : ℕ) : BitVec 64 := BitVec.ofNat 64 (32 + 8 * i)

def bucketEntries (i : ℕ) (bucket : List MmPtr) : Multiset (MmPtr × BitVec 64) :=
  (bucket.map fun p => (p, bucketSize i) : List (MmPtr × BitVec 64))

def cachedEntries (cache : ℕ → List MmPtr) : Multiset (MmPtr × BitVec 64) :=
  ∑ i ∈ Finset.range zendMmNumBuckets, bucketEntries i (cache i)

theorem bucketEntries_cons (i : ℕ) (p : MmPtr) (bucket : List MmPtr) :
    bucketEntries i (p :: bucket) = (p, bucketSize i) ::ₘ bucketEntries i bucket := rfl

theorem bucketSize_index {size : BitVec 64} (hsize : BlockSize size)
    (hsmall : zendMmSmallSize size = true) :
    bucketSize (zendMmBucketIndex size) = size ∧ zendMmBucketIndex size < zendMmNumBuckets := by
  have hlt := (zendMmSmallSize_iff size).mp hsmall
  have hindex : zendMmBucketIndex size = size.toNat / 8 - 4 := by
    unfold zendMmBucketIndex zendMmAlignmentLog2
    rw [zendMmAlignedMinHeaderSize_eq, show (32 : BitVec 64) >>> 3 = 4 by decide,
      BitVec.toNat_sub, BitVec.toNat_ushiftRight, Nat.shiftRight_eq_div_pow]
    have hsize := hsize.1
    show (2 ^ 64 - 4 + size.toNat / 2 ^ 3) % 2 ^ 64 = size.toNat / 8 - 4
    omega
  unfold BlockSize at hsize
  rw [hindex]
  constructor
  · apply BitVec.eq_of_toNat_eq
    unfold bucketSize
    rw [BitVec.toNat_ofNat, Nat.mod_eq_of_lt (by omega)]
    omega
  · unfold zendMmNumBuckets
    omega

variable {i : ℕ}

theorem cachedEntries_update (cache : ℕ → List MmPtr) (hi : i < zendMmNumBuckets)
    (bucket : List MmPtr) :
    cachedEntries (Function.update cache i bucket) + bucketEntries i (cache i) =
      cachedEntries cache + bucketEntries i bucket := by
  have hmem : i ∈ Finset.range zendMmNumBuckets := Finset.mem_range.mpr hi
  have hsame : ∀ j ∈ (Finset.range zendMmNumBuckets).erase i,
      bucketEntries j (Function.update cache i bucket j) = bucketEntries j (cache j) := by
    intro j hj
    rw [Function.update_of_ne (Finset.ne_of_mem_erase hj)]
  unfold cachedEntries
  rw [← Finset.add_sum_erase _ _ hmem, ← Finset.add_sum_erase _ _ hmem, Function.update_self,
    Finset.sum_congr rfl hsame]
  abel

theorem cachedEntries_put (cache : ℕ → List MmPtr) (hi : i < zendMmNumBuckets) (p : MmPtr) :
    cachedEntries (Function.update cache i (p :: cache i)) =
      (p, bucketSize i) ::ₘ cachedEntries cache := by
  have hupdate := cachedEntries_update cache hi (p :: cache i)
  rw [bucketEntries_cons, Multiset.add_cons, ← Multiset.cons_add] at hupdate
  exact add_right_cancel hupdate

theorem cachedEntries_take {cache : ℕ → List MmPtr} (hi : i < zendMmNumBuckets) {p : MmPtr}
    {rest : List MmPtr} (hcache : cache i = p :: rest) :
    cachedEntries cache = (p, bucketSize i) ::ₘ cachedEntries (Function.update cache i rest) := by
  have hupdate := cachedEntries_update cache hi rest
  rw [hcache, bucketEntries_cons, Multiset.add_cons, ← Multiset.cons_add] at hupdate
  exact (add_right_cancel hupdate).symm

theorem toNat_cached_add {cached : BitVec 32} {size : BitVec 64}
    (h : cached.toNat + size.toNat < 2 ^ 32) :
    ((cached.setWidth 64 + size).setWidth 32).toNat = cached.toNat + size.toNat := by
  rw [BitVec.toNat_setWidth, BitVec.toNat_add, BitVec.toNat_setWidth]
  omega

theorem toNat_cached_sub {cached : BitVec 32} {size : BitVec 64} (h : size.toNat ≤ cached.toNat) :
    ((cached.setWidth 64 - size).setWidth 32).toNat = cached.toNat - size.toNat := by
  rw [BitVec.toNat_setWidth, BitVec.toNat_sub, BitVec.toNat_setWidth]
  omega

def total (blocks : Multiset (MmPtr × BitVec 64)) : BitVec 64 := (blocks.map Prod.snd).sum

def totalNat (blocks : Multiset (MmPtr × BitVec 64)) : ℕ := (blocks.map fun e => e.2.toNat).sum

@[simp] theorem total_cons (e : MmPtr × BitVec 64) (blocks : Multiset (MmPtr × BitVec 64)) :
    total (e ::ₘ blocks) = e.2 + total blocks := by
  unfold total
  rw [Multiset.map_cons, Multiset.sum_cons]

@[simp] theorem total_add (blocks blocks' : Multiset (MmPtr × BitVec 64)) :
    total (blocks + blocks') = total blocks + total blocks' := by
  unfold total
  rw [Multiset.map_add, Multiset.sum_add]

@[simp] theorem totalNat_cons (e : MmPtr × BitVec 64) (blocks : Multiset (MmPtr × BitVec 64)) :
    totalNat (e ::ₘ blocks) = e.2.toNat + totalNat blocks := by
  unfold totalNat
  rw [Multiset.map_cons, Multiset.sum_cons]

namespace ZendMmHeap

/-- The blocks handed out and those of the cache are the used blocks, and the counters count them;
    `flushed` is what has left the cache without leaving `heap->size`. -/
structure Counts (h : ZendMmHeap) (handed cached : Multiset (MmPtr × BitVec 64))
    (flushed : BitVec 64) : Prop where
  laid : h.Laid
  blockSize : ∃ k, 5 ≤ k ∧ h.blockSize.toNat = 2 ^ k
  used : entries true h.segmentsList = handed + cached
  size : h.size = flushed + total (entries true h.segmentsList)
  cached : h.cached.toNat = totalNat cached
  bound : h.cached.toNat < zendMmCacheSize + 544

def Accounts (h : ZendMmHeap) (handed : Multiset (MmPtr × BitVec 64)) (flushed : BitVec 64) :
    Prop :=
  h.Counts handed (cachedEntries h.cache) flushed

variable {h : ZendMmHeap} {p : MmPtr} {size flushed : BitVec 64}
variable {handed cached : Multiset (MmPtr × BitVec 64)}

theorem Laid.blockAt (hlaid : h.Laid) {used : Bool} (hmem : (p, size) ∈ entries used h.segmentsList) :
    ∃ pl, h.blockAt p = some pl ∧ pl.block = ⟨size, used⟩ ∧ pl.ptr = p ∧ pl.Ok ∧
      pl.write [pl.block] = h.segmentsList ∧ h.realSize = sizesAround pl ∧
      ∀ u, entries u h.segmentsList = pl.others u + if used = u then {(p, size)} else 0 := by
  have ⟨pl, hfind, hblock, hptr, hoffset, hwrite⟩ := findPlace_of_mem hlaid.segments [] hmem
  have hwrite : pl.write [pl.block] = h.segmentsList := hwrite
  have hreal : h.realSize = sizesAround pl := by rw [hlaid.realSize, ← hwrite, sizes_write]
  have hok : pl.Ok := ⟨hoffset, by rw [hwrite]; exact hlaid.segments⟩
  refine ⟨pl, hfind, hblock, hptr, hok, hwrite, hreal, fun u => ?_⟩
  have hentries := @MmPlace.entries_write pl [pl.block] u hoffset (Nat.add_zero _)
  rw [hwrite, hblock, entriesFrom_single] at hentries
  rw [hentries, ← hptr]
  cases used <;> cases u <;> rfl

theorem FreeAround.of_used (hlaid : h.Laid) {pl : MmPlace}
    (hentries : ∀ u, entries u h.segmentsList = pl.others u + if true = u then {(p, size)} else 0) :
    h.FreeAround pl := by
  have hfree := hlaid.free
  rw [hentries false, if_neg (by decide), add_zero] at hfree
  exact hfree

theorem release_used {pl pl' : MmPlace} (hjoin : Joined pl pl') (hfree : h.FreeAround pl')
    (hreal : h.realSize = sizesAround pl)
    (hentries : entries true h.segmentsList = (p, size) ::ₘ pl.others true) :
    ∃ segments realSize freeBlocks restBlocks,
      h.releaseBlock pl' = h.relaid segments realSize freeBlocks restBlocks ∧
      Laid (h.relaid segments realSize freeBlocks restBlocks) ∧
      entries true h.segmentsList = (p, size) ::ₘ entries true segments := by
  have ⟨segments, realSize, free', rest', hrelease, hlaid, hused⟩ :=
    releaseBlock_ok hjoin.ok hfree (hreal.trans hjoin.sizesAround.symm)
  refine ⟨segments, realSize, free', rest', hrelease, hlaid, ?_⟩
  rw [hused, hjoin.used, hentries]

theorem zendMmFreeInt_ok (hacc : h.Accounts ((p, size) ::ₘ handed) flushed) :
    ∃ h', h.zendMmFreeInt (some p) = some h' ∧ h'.Accounts handed flushed ∧
      h'.reserve = h.reserve := by
  have hmem : (p, size) ∈ entries true h.segmentsList := by
    rw [hacc.used, Multiset.cons_add]
    exact Multiset.mem_cons_self _ _
  have ⟨pl, hfind, hblock, _, hok, _, hreal, hentries⟩ := hacc.laid.blockAt hmem
  have hsize : pl.block.size = size := by rw [hblock]
  unfold zendMmFreeInt
  simp only [hfind, Option.bind_some, hsize]
  by_cases hcache : zendMmSmallSize size = true ∧ h.cached.toNat < zendMmCacheSize
  · rw [if_pos hcache]
    have hsizeok : BlockSize size := by
      have hblockok := hok.blockSize
      rwa [hsize] at hblockok
    have ⟨hbucket, hindex⟩ := bucketSize_index hsizeok hcache.1
    have hsmall := (zendMmSmallSize_iff size).mp hcache.1
    have hcached := @toNat_cached_add h.cached size (by
      have hlt := hcache.2
      unfold zendMmCacheSize zendMmNumBuckets at hlt
      omega)
    have hput := cachedEntries_put h.cache hindex p
    rw [hbucket] at hput
    have hlaid : ((h.putCached p size).setCached (h.cached.setWidth 64 + size)).Laid :=
      ⟨hacc.laid.segments, hacc.laid.free, hacc.laid.realSize⟩
    refine ⟨_, rfl, ⟨hlaid, hacc.blockSize, ?_, hacc.size, ?_, ?_⟩, rfl⟩
    · show entries true h.segmentsList = handed + cachedEntries (Function.update h.cache _ _)
      rw [hput, hacc.used, Multiset.add_cons, Multiset.cons_add]
    · show ((h.cached.setWidth 64 + size).setWidth 32).toNat =
        totalNat (cachedEntries (Function.update h.cache _ _))
      rw [hput, totalNat_cons, hcached, hacc.cached, Nat.add_comm]
    · show ((h.cached.setWidth 64 + size).setWidth 32).toNat < _
      rw [hcached]
      omega
  · rw [if_neg hcache]
    have ⟨free₁, rest₁, pl₁, hnext, hjoin₁, hfree₁, _⟩ :=
      joinNext_ok (h := { h with size := h.size - size }) hok (FreeAround.of_used hacc.laid hentries)
    have ⟨free₂, rest₂, pl₂, hprev, hjoin₂, hfree₂⟩ := joinPrev_ok hjoin₁.ok hfree₁
    have hused : entries true h.segmentsList = (p, size) ::ₘ pl.others true := by
      rw [hentries true, if_pos rfl]
      exact Multiset.add_comm _ {_}
    have ⟨segments, realSize, free₃, rest₃, hrelease, hlaid, hkeep⟩ :=
      release_used (hjoin₁.trans hjoin₂) hfree₂ hreal hused
    simp only [hnext, Option.bind_some, hprev, Option.map_some, hrelease]
    have hrest := hacc.used
    rw [show entries true h.segmentsList = _ from hkeep, Multiset.cons_add] at hrest
    refine ⟨_, rfl, ⟨hlaid, hacc.blockSize, (Multiset.cons_inj_right _).mp hrest, ?_, hacc.cached,
      hacc.bound⟩, rfl⟩
    show h.size - size = flushed + total (entries true segments)
    rw [hacc.size, show entries true h.segmentsList = _ from hkeep, total_cons]
    abel

theorem freeCached_ok (hcounts : h.Counts handed ((p, size) ::ₘ cached) flushed) :
    ∃ h', h.freeCached p = some h' ∧ h'.Counts handed cached (flushed + size) ∧
      h'.cache = h.cache ∧ h'.reserve = h.reserve := by
  have hmem : (p, size) ∈ entries true h.segmentsList := by
    rw [hcounts.used, Multiset.add_cons]
    exact Multiset.mem_cons_self _ _
  have ⟨pl, hfind, hblock, _, hok, _, hreal, hentries⟩ := hcounts.laid.blockAt hmem
  have hsize : pl.block.size = size := by rw [hblock]
  have hsub := hcounts.cached
  rw [totalNat_cons] at hsub
  have hcached := @toNat_cached_sub h.cached size (by
    rw [hsub]
    exact Nat.le_add_right _ _)
  unfold freeCached
  simp only [hfind, Option.bind_some, hsize]
  have ⟨free₁, rest₁, pl₁, hprev, hjoin₁, hfree₁⟩ :=
    joinPrev_ok (h := h.setCached (h.cached.setWidth 64 - size)) hok
      (FreeAround.of_used hcounts.laid hentries)
  have ⟨free₂, rest₂, pl₂, hnext, hjoin₂, hfree₂, _⟩ := joinNext_ok hjoin₁.ok hfree₁
  have hused : entries true h.segmentsList = (p, size) ::ₘ pl.others true := by
    rw [hentries true, if_pos rfl]
    exact Multiset.add_comm _ {_}
  have ⟨segments, realSize, free₃, rest₃, hrelease, hlaid, hkeep⟩ :=
    release_used (hjoin₁.trans hjoin₂) hfree₂ hreal hused
  simp only [hprev, Option.bind_some, hnext, Option.map_some, hrelease]
  have hrest := hcounts.used
  rw [show entries true h.segmentsList = _ from hkeep, Multiset.add_cons] at hrest
  refine ⟨_, rfl, ⟨hlaid, hcounts.blockSize, (Multiset.cons_inj_right _).mp hrest, ?_, ?_, ?_⟩,
    rfl, rfl⟩
  · show h.size = flushed + size + total (entries true segments)
    rw [hcounts.size, show entries true h.segmentsList = _ from hkeep, total_cons, add_assoc]
  · show ((h.cached.setWidth 64 - size).setWidth 32).toNat = totalNat cached
    rw [hcached, hsub, Nat.add_sub_cancel_left]
  · show ((h.cached.setWidth 64 - size).setWidth 32).toNat < _
    have hbound := hcounts.bound
    rw [hcached]
    omega

theorem freeCached_all (i : ℕ) (bucket : List MmPtr)
    (hcounts : h.Counts handed (bucketEntries i bucket + cached) flushed) :
    ∃ h', bucket.foldlM freeCached h = some h' ∧
      h'.Counts handed cached (flushed + total (bucketEntries i bucket)) ∧
      h'.cache = h.cache ∧ h'.reserve = h.reserve := by
  induction bucket generalizing h flushed with
  | nil =>
    rw [show bucketEntries i [] = 0 from rfl, zero_add] at hcounts
    refine ⟨h, rfl, ?_, rfl, rfl⟩
    rw [show total (bucketEntries i []) = 0 from rfl, add_zero]
    exact hcounts
  | cons p bucket ih =>
    rw [bucketEntries_cons, Multiset.cons_add] at hcounts
    have ⟨h₁, hfreed, hcounts₁, hcache₁, hreserve₁⟩ := freeCached_ok hcounts
    have ⟨h₂, hall, hcounts₂, hcache₂, hreserve₂⟩ := ih hcounts₁
    refine ⟨h₂, ?_, ?_, hcache₂.trans hcache₁, hreserve₂.trans hreserve₁⟩
    · rw [List.foldlM_cons, hfreed]
      exact hall
    · rw [bucketEntries_cons, total_cons, ← add_assoc]
      exact hcounts₂

theorem freeBuckets_ok (indices : List ℕ) (hindices : ∀ i ∈ indices, i < zendMmNumBuckets)
    (hacc : h.Accounts handed flushed) :
    ∃ h' flushed', indices.foldlM freeBucket h = some h' ∧ h'.Accounts handed flushed' ∧
      flushed' + total (cachedEntries h'.cache) = flushed + total (cachedEntries h.cache) ∧
      (∀ i, i ∈ indices ∨ h.cache i = [] → h'.cache i = []) ∧ h'.reserve = h.reserve := by
  induction indices generalizing h flushed with
  | nil =>
    refine ⟨h, flushed, rfl, hacc, rfl, fun i hi => ?_, rfl⟩
    cases hi with
    | inl hin => exact absurd hin (List.not_mem_nil)
    | inr hempty => exact hempty
  | cons i indices ih =>
    have hi := hindices i List.mem_cons_self
    have hothers := fun j hj => hindices j (List.mem_cons_of_mem _ hj)
    have hturn : ∃ h₁ flushed₁, freeBucket h i = some h₁ ∧ h₁.Accounts handed flushed₁ ∧
        flushed₁ + total (cachedEntries h₁.cache) = flushed + total (cachedEntries h.cache) ∧
        h₁.cache i = [] ∧ (∀ j, h.cache j = [] → h₁.cache j = []) ∧ h₁.reserve = h.reserve := by
      unfold freeBucket
      by_cases hempty : h.cache i = []
      · rw [if_neg (not_not.mpr hempty)]
        exact ⟨h, flushed, rfl, hacc, rfl, hempty, fun _ hj => hj, rfl⟩
      · rw [if_pos hempty]
        have hsplit := cachedEntries_update h.cache hi []
        rw [show bucketEntries i [] = 0 from rfl, add_zero, add_comm] at hsplit
        have hcounts : h.Counts handed (cachedEntries h.cache) flushed := hacc
        rw [← hsplit] at hcounts
        have ⟨h₁, hall, hcounts₁, hcache₁, hreserve₁⟩ := freeCached_all i _ hcounts
        rw [hall]
        have hdone : cachedEntries (Function.update h.cache i []) =
            cachedEntries (Function.update h₁.cache i []) := by rw [hcache₁]
        refine ⟨_, flushed + total (bucketEntries i (h.cache i)), rfl, ?_, ?_,
          Function.update_self .., fun j hj => ?_, hreserve₁⟩
        · exact ⟨⟨hcounts₁.laid.segments, hcounts₁.laid.free, hcounts₁.laid.realSize⟩,
            hcounts₁.blockSize, hcounts₁.used.trans (by rw [hdone]), hcounts₁.size,
            hcounts₁.cached.trans (by rw [hdone]), hcounts₁.bound⟩
        · show flushed + total (bucketEntries i (h.cache i)) +
            total (cachedEntries (Function.update h₁.cache i [])) = _
          rw [hcache₁, ← hsplit, total_add, add_assoc]
        · show Function.update h₁.cache i [] j = []
          rw [Function.update_apply, hcache₁, hj, ite_self]
    have ⟨h₁, flushed₁, hfirst, hacc₁, hsum₁, hdone, hkept, hreserve₁⟩ := hturn
    have ⟨h₂, flushed₂, hrest, hacc₂, hsum₂, hall, hreserve₂⟩ := ih hothers hacc₁
    refine ⟨h₂, flushed₂, ?_, hacc₂, hsum₂.trans hsum₁, fun j hj => ?_, hreserve₂.trans hreserve₁⟩
    · rw [List.foldlM_cons, hfirst]
      exact hrest
    · apply hall
      cases hj with
      | inl hin =>
        cases List.mem_cons.mp hin with
        | inl heq =>
          rw [heq]
          exact Or.inr hdone
        | inr hin => exact Or.inl hin
      | inr hempty => exact Or.inr (hkept j hempty)

theorem toNat_total (blocks : Multiset (MmPtr × BitVec 64)) :
    (total blocks).toNat = totalNat blocks % 2 ^ 64 := by
  induction blocks using Multiset.induction_on with
  | empty => rfl
  | cons e blocks ih =>
    rw [total_cons, totalNat_cons, BitVec.toNat_add, ih]
    omega

theorem Counts.cached_eq (hcounts : h.Counts handed cached flushed) :
    h.cached.setWidth 64 = total cached := by
  apply BitVec.eq_of_toNat_eq
  rw [toNat_total, BitVec.toNat_setWidth, hcounts.cached]

theorem zendMmFreeCache_ok (hacc : h.Accounts handed flushed) :
    ∃ h', h.zendMmFreeCache = some h' ∧ h'.Accounts handed (flushed + h.cached.setWidth 64) ∧
      h'.reserve = h.reserve := by
  have ⟨h', flushed', hfree, hacc', hsum, hdone, hreserve⟩ :=
    freeBuckets_ok (List.range zendMmNumBuckets) (fun i hi => List.mem_range.mp hi) hacc
  have hempty : cachedEntries h'.cache = 0 := by
    apply Finset.sum_eq_zero
    intro i hi
    rw [hdone i (Or.inl (List.mem_range.mpr (Finset.mem_range.mp hi)))]
    rfl
  rw [hempty, show total 0 = 0 from rfl, add_zero, ← hacc.cached_eq] at hsum
  rw [hsum] at hacc'
  exact ⟨h', hfree, hacc', hreserve⟩

end ZendMmHeap

end Php53.Zend
