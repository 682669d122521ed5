import Php53.Zend.Hash.Listing

/-!
# PopShift — `array_pop` and `array_shift`

`_phpi_pop` deletes the last or the first bucket of a table and adjusts `nNextFreeElement`: a pop
lowers it by one where the removed key is not below it, a shift renumbers the integer keys.  The
symbol table of global variables deletes by a ready hash value; the compiled variables that point
into it are not modelled.
-/

namespace Php53.Zend

open Reasoning List

variable {k : Nat} {ks : List HashKey}

namespace HashTable

variable {α : Type}

/-- The loop that re-indexes, `k` counting in an `unsigned int`; it says whether to rehash. -/
def reindexLoop : Nat → Option BucketPtr → Nat → Bool → HashTable α →
    Option (Nat × Bool × HashTable α)
  | _, none, k, shouldRehash, ht => some (k, shouldRehash, ht)
  | 0, some _, _, _, _ => none
  | n + 1, some p, k, shouldRehash, ht =>
    if ht.nKeyLength p = 0 then
      if ht.h p ≠ BitVec.ofNat 64 k then
        reindexLoop n (ht.pListNext p) (uintInc k) true
          { ht with h := Function.update ht.h p (BitVec.ofNat 64 k) }
      else reindexLoop n (ht.pListNext p) (uintInc k) shouldRehash ht
    else reindexLoop n (ht.pListNext p) k shouldRehash ht

def deleteCurrent (ht : HashTable α) (isSymbolTable : Bool) (p : BucketPtr) :
    Option (Outcome α) :=
  if ht.nKeyLength p ≠ 0 then
    if isSymbolTable then
      ht.zendHashDelKeyOrIndex (ht.arKey p) (zendInlineHashFunc (ht.arKey p)) .delKeyQuick
    else ht.zendHashDelKeyOrIndex (ht.arKey p) 0 .delKey
  else ht.zendHashDelKeyOrIndex [] (ht.h p) .delIndex

/-- The value returned, none for an empty array, and the array. -/
def phpiPop (ht : HashTable α) (isSymbolTable offTheEnd : Bool) :
    Option (Option α × HashTable α) :=
  if ht.nNumOfElements = 0 then some (none, ht)
  else
    let ht := if offTheEnd then ht.zendHashInternalPointerEnd else ht.zendHashInternalPointerReset
    match ht.pInternalPointer with
    | none => none
    | some p =>
      let val := ht.pData p
      let isIndex := ht.nKeyLength p = 0
      let index := ht.h p
      (ht.deleteCurrent isSymbolTable p).bind fun o =>
        let ht := o.table
        let adjusted :=
          if offTheEnd then
            if isIndex ∧ ht.nNextFreeElement - 1 ≤ index then
              some { ht with nNextFreeElement := ht.nNextFreeElement - 1 }
            else some ht
          else
            (reindexLoop ht.live.length ht.pListHead 0 false ht).bind fun (k, shouldRehash, ht) =>
              let ht := { ht with nNextFreeElement := BitVec.ofNat 64 k }
              if shouldRehash then ht.zendHashRehash else some ht
        adjusted.map fun ht => (some val, ht.zendHashInternalPointerReset)

theorem Valid.deleteCurrent_eq {ht : HashTable α} {l : List BucketPtr} (hv : ht.Valid l)
    (isSymbolTable : Bool) {p : BucketPtr} (hp : p ∈ l) :
    ht.deleteCurrent isSymbolTable p =
      some { table := ht.deleteBucket p, result := .success } := by
  unfold deleteCurrent
  by_cases hlen : ht.nKeyLength p = 0
  · have hkey : ht.key p = HashKey.ofArKey [] (ht.h p) := by simp [key, hlen, HashKey.ofArKey]
    rw [if_neg (fun h => h hlen), hv.zendHashDelKeyOrIndex_eq hp (by simp) hkey rfl]
  · obtain ⟨-, hpl⟩ := hv.hash p hp hlen
    have hkey : ht.key p = HashKey.ofArKey (ht.arKey p) (zendInlineHashFunc (ht.arKey p)) := by
      simp [key, hlen, HashKey.ofArKey, hpl]
    rw [if_pos hlen, hv.zendHashDelKeyOrIndex_eq hp (fun _ => rfl) hkey rfl,
      hv.zendHashDelKeyOrIndex_eq hp (fun _ => rfl) hkey rfl, ite_self]

end HashTable

def HashKey.isIndex : HashKey → Bool
  | .index _ => true
  | .str _ => false

/-- The keys with the integers among them counted from `k`, in an `unsigned int`. -/
def reindexed : Nat → List HashKey → List HashKey
  | _, [] => []
  | k, .index _ :: ks => .index (BitVec.ofNat 64 (k % uintModulus)) :: reindexed (k + 1) ks
  | k, .str arKey :: ks => .str arKey :: reindexed k ks

def indexCount (ks : List HashKey) : Nat := ks.countP HashKey.isIndex

@[simp] theorem indexCount_index (h : BitVec 64) (ks : List HashKey) :
    indexCount (.index h :: ks) = indexCount ks + 1 :=
  countP_cons_of_pos rfl

@[simp] theorem indexCount_str (arKey : List UInt8) (ks : List HashKey) :
    indexCount (.str arKey :: ks) = indexCount ks :=
  countP_cons_of_neg Bool.false_ne_true

theorem index_mem_reindexed {x : BitVec 64} :
    .index x ∈ reindexed k ks ↔
      ∃ j < indexCount ks, x = BitVec.ofNat 64 ((k + j) % uintModulus) := by
  induction ks generalizing k with
  | nil => simp [reindexed, indexCount]
  | cons key ks ih =>
    cases key with
    | index h =>
      rw [reindexed, mem_cons, ih, indexCount_index, HashKey.index.injEq]
      constructor
      · rintro (hx | ⟨j, hj, hx⟩)
        · exact ⟨0, by omega, hx⟩
        · exact ⟨j + 1, by omega, by rw [hx, Nat.add_right_comm, Nat.add_assoc]⟩
      · rintro ⟨j, hj, hx⟩
        cases j with
        | zero => exact Or.inl hx
        | succ j => exact Or.inr ⟨j, by omega, by rw [hx, Nat.add_right_comm, Nat.add_assoc]⟩
    | str arKey =>
      rw [reindexed, mem_cons, ih, indexCount_str]
      simp

theorem str_mem_reindexed {arKey : List UInt8} :
    HashKey.str arKey ∈ reindexed k ks ↔ HashKey.str arKey ∈ ks := by
  induction ks generalizing k with
  | nil => simp [reindexed]
  | cons key ks ih => cases key <;> simp [reindexed, ih]

theorem reindexed_nodup (h : ks.Nodup) (hk : k + indexCount ks ≤ uintModulus)
    : (reindexed k ks).Nodup := by
  induction ks generalizing k with
  | nil => exact nodup_nil
  | cons key ks ih =>
    obtain ⟨hkey, hks⟩ := nodup_cons.mp h
    cases key with
    | index h' =>
      rw [indexCount_index] at hk
      refine nodup_cons.mpr ⟨fun hm => ?_, ih hks (by omega)⟩
      obtain ⟨j, hj, hx⟩ := index_mem_reindexed.mp hm
      have hx := congrArg BitVec.toNat hx
      unfold uintModulus at hx hk
      simp only [BitVec.toNat_ofNat] at hx
      omega
    | str arKey =>
      rw [indexCount_str] at hk
      refine nodup_cons.mpr ⟨fun hm => hkey (str_mem_reindexed.mp hm), ih hks hk⟩

namespace HashTable

variable {α : Type}

variable {n : BitVec 64} {l : List BucketPtr} {ks : List HashKey} {ht : HashTable α}

theorem map_key_update {b : List BucketPtr} {x : BucketPtr} (hx : x ∉ b) {h : BitVec 64} :
    b.map ({ ht with h := Function.update ht.h x h } : HashTable α).key = b.map ht.key := by
  refine map_congr_left fun q hq => ?_
  have hqx : q ≠ x := fun he => hx (he ▸ hq)
  unfold key
  simp [Function.update_of_ne hqx]

theorem reindexLoop_eq {b : List BucketPtr} (hnd : b.Nodup) {n : Nat} {p : Option BucketPtr}
    (hw : Walk ht.pListNext p b) (hn : b.length ≤ n) (k : Nat) (shouldRehash : Bool) :
    ∃ rehash h, reindexLoop n p (k % uintModulus) shouldRehash ht =
        some ((k + indexCount (b.map ht.key)) % uintModulus, rehash, { ht with h := h }) ∧
      b.map ({ ht with h := h } : HashTable α).key = reindexed k (b.map ht.key) ∧
      (∀ q, q ∉ b ∨ ht.nKeyLength q ≠ 0 → h q = ht.h q) ∧
      (shouldRehash = true → rehash = true) ∧ (rehash = false → h = ht.h) := by
  induction b generalizing ht n p k shouldRehash with
  | nil =>
    rw [show p = none from hw]
    refine ⟨shouldRehash, ht.h, ?_, rfl, fun _ _ => rfl, id, fun _ => rfl⟩
    cases n <;> rfl
  | cons x b ih =>
    obtain ⟨rfl, hw⟩ := hw
    obtain ⟨hxb, hnd⟩ := nodup_cons.mp hnd
    obtain ⟨n, rfl⟩ : ∃ m, n = m + 1 := ⟨n - 1, by rw [length_cons] at hn; omega⟩
    have hn' : b.length ≤ n := by simpa using hn
    by_cases hlen : ht.nKeyLength x = 0
    · have hkey : ht.key x = .index (ht.h x) := if_pos hlen
      rw [reindexLoop, if_pos hlen, uintInc_mod, map_cons, hkey, indexCount_index, reindexed]
      by_cases hx : ht.h x = BitVec.ofNat 64 (k % uintModulus)
      · -- the key is right already
        obtain ⟨rehash, h, he, hmap, hframe, hkeep, hsame⟩ := ih hnd hw hn' (k + 1) shouldRehash
        have hhx : h x = ht.h x := hframe x (Or.inl hxb)
        rw [if_neg (not_not.mpr hx)]
        refine ⟨rehash, h, ?_, ?_, fun q hq => hframe q ?_, hkeep, hsame⟩
        · rw [he, Nat.add_assoc, Nat.add_comm 1]
        · have hkx : ({ ht with h := h } : HashTable α).key x = .index (h x) := if_pos hlen
          rw [map_cons, hmap, hkx, hhx, hx]
        · exact hq.imp_left fun hq hm => hq (mem_cons_of_mem _ hm)
      · have hw' : Walk ({ ht with h := Function.update ht.h x (BitVec.ofNat 64 (k % uintModulus)) } :
            HashTable α).pListNext (ht.pListNext x) b := hw
        obtain ⟨rehash, h, he, hmap, hframe, hkeep, -⟩ := ih hnd hw' hn' (k + 1) true
        have hhx : h x = BitVec.ofNat 64 (k % uintModulus) := by
          rw [hframe x (Or.inl hxb)]
          exact Function.update_self _ _ _
        rw [map_key_update hxb] at he hmap
        rw [if_pos hx]
        refine ⟨rehash, h, ?_, ?_, fun q hq => ?_, fun _ => hkeep rfl, fun hr => ?_⟩
        · rw [he, Nat.add_assoc, Nat.add_comm 1]
        · have hkx : ({ ht with h := h } : HashTable α).key x = .index (h x) := if_pos hlen
          rw [map_cons, hkx, hhx, ← hmap]
        · have hqx : q ≠ x := by
            rintro rfl
            rcases hq with hq | hq
            · exact hq mem_cons_self
            · exact hq hlen
          rw [hframe q (hq.imp_left fun hq hm => hq (mem_cons_of_mem _ hm))]
          exact Function.update_of_ne hqx _ _
        · rw [hkeep rfl] at hr
          exact nomatch hr
    · have hkey : ht.key x = .str (ht.arKey x) := if_neg hlen
      obtain ⟨rehash, h, he, hmap, hframe, hkeep, hsame⟩ := ih hnd hw hn' k shouldRehash
      rw [reindexLoop, if_neg hlen, map_cons, hkey, indexCount_str, reindexed]
      refine ⟨rehash, h, he, ?_, fun q hq => hframe q ?_, hkeep, hsame⟩
      · have hkx : ({ ht with h := h } : HashTable α).key x = .str (ht.arKey x) := if_neg hlen
        rw [map_cons, hkx, hmap]
      · exact hq.imp_left fun hq hm => hq (mem_cons_of_mem _ hm)

def Appendable (ht : HashTable α) : Prop :=
  (∃ l, ht.Valid l ∧ ht.NextFree l) ∧ ht.AppendsPastAll

theorem Valid.appendable_iff (hv : ht.Valid l) :
    ht.Appendable ↔ ht.NextFree l := by
  constructor
  · rintro ⟨⟨l', hv', hn⟩, -⟩
    rwa [hv.list_unique hv' rfl rfl]
  · exact fun hn => ⟨⟨l, hv, hn⟩, hv.appendsPastAll hn⟩

/-- The keys that are not negative are below `n`. -/
def NonNegBelow (n : BitVec 64) (ks : List HashKey) : Prop :=
  ∀ h, .index h ∈ ks → 0 ≤ h.toInt → h.toInt < n.toInt

/-- `n` is not negative, and it is past the keys unless it is saturated. -/
def PastAll (n : BitVec 64) (ks : List HashKey) : Prop :=
  0 ≤ n.toInt ∧ ∀ h, .index h ∈ ks → h.toInt < n.toInt ∨ n = longMax

theorem pastAll_iff (h : NonNegBelow n ks) :
    PastAll n ks ↔ 0 ≤ n.toInt := by
  constructor
  · exact fun hp => hp.1
  · intro hn
    refine ⟨hn, fun x hx => Or.inl ?_⟩
    have hx' := h x hx
    omega

/-- `nNextFreeElement` behind a pop. -/
def popped (n : BitVec 64) : HashKey → BitVec 64
  | .index h => if n - 1 ≤ h then n - 1 else n
  | .str _ => n

/-- The removed key may be a string or not negative; a negative one lowers the next free element
    `n`, which then must not have been the key behind another element. -/
def PopFits (n : BitVec 64) (ks : List HashKey) : Prop :=
  match ks.getLast? with
  | some (.index h) =>
    0 ≤ h.toInt ∨ (1 ≤ n.toInt ∧ .index (n - 1) ∉ ks) ∨ (n.toInt = 0 ∧ h.toInt ≠ -1) ∨
      n.toInt = -2 ^ 63
  | _ => 0 ≤ n.toInt

theorem toInt_cases (x : BitVec 64) :
    (x.toInt = x.toNat ∧ x.toNat < 2 ^ 63) ∨
      (x.toInt = x.toNat - 2 ^ 64 ∧ 2 ^ 63 ≤ x.toNat ∧ x.toNat < 2 ^ 64) := by
  have hlt := x.isLt
  rw [BitVec.toInt_eq_toNat_cond]
  split_ifs <;> omega

theorem toNat_sub_one (n : BitVec 64) :
    (n - 1).toNat = if n.toNat = 0 then 2 ^ 64 - 1 else n.toNat - 1 := by
  have hlt := n.isLt
  have hone : (1 : BitVec 64).toNat = 1 := rfl
  rw [BitVec.toNat_sub, hone]
  split_ifs <;> omega

theorem pastAll_sub_one (h : NonNegBelow n ks) (hn : 1 ≤ n.toInt) (hfree : .index (n - 1) ∉ ks)
    : PastAll (n - 1) ks := by
  have hsub := toNat_sub_one n
  have hnc := toInt_cases n
  have hsc := toInt_cases (n - 1)
  split_ifs at hsub
  · omega
  · refine ⟨by omega, fun x hx => Or.inl ?_⟩
    have hxn := h x hx
    have hne : x.toInt ≠ (n - 1).toInt := fun he => hfree (BitVec.eq_of_toInt_eq he ▸ hx)
    omega

theorem popped_pastAll_iff {key : HashKey} (hnd : (ks ++ [key]).Nodup)
    (hn : NonNegBelow n (ks ++ [key])) :
    PastAll (popped n key) ks ↔ PopFits n (ks ++ [key]) := by
  have hks : NonNegBelow n ks := fun h hh => hn h (mem_append_left _ hh)
  have hlast : (ks ++ [key]).getLast? = some key := by simp
  unfold PopFits
  rw [hlast]
  cases key with
  | str arKey => exact pastAll_iff hks
  | index h =>
    have hsub := toNat_sub_one n
    have hnc := toInt_cases n
    have hsc := toInt_cases (n - 1)
    have hhc := toInt_cases h
    have hh := hn h (by simp)
    have hout : HashKey.index h ∉ ks := fun hm =>
      (nodup_append.mp hnd).2.2 _ hm _ (by simp) rfl
    have hmax := longMax_toNat
    have hmem : HashKey.index (n - 1) ∈ ks ++ [HashKey.index h] ↔
        HashKey.index (n - 1) ∈ ks ∨ n - 1 = h := by simp
    show PastAll (if n - 1 ≤ h then n - 1 else n) ks ↔ _
    dsimp only
    rw [hmem]
    by_cases hle : n - 1 ≤ h
    · rw [if_pos hle]
      have hle := BitVec.le_def.mp hle
      constructor
      · rintro ⟨hpos, hbelow⟩
        by_cases hneg : 0 ≤ h.toInt
        · exact Or.inl hneg
        by_cases hmin : n.toInt = -2 ^ 63
        · exact Or.inr (Or.inr (Or.inr hmin))
        split_ifs at hsub with hzero
        · omega
        · refine Or.inr (Or.inl ⟨by omega, ?_⟩)
          rintro (hm | rfl)
          · rcases hbelow _ hm with hlt | he
            · omega
            · rw [he, hmax] at hsub
              omega
          · omega
      · rintro (hpos | ⟨hpos, hfree⟩ | ⟨hzero, hne⟩ | hmin)
        · -- the removed key is `n - 1`
          have heq : n - 1 = h := by
            apply BitVec.eq_of_toNat_eq
            split_ifs at hsub <;> omega
          exact pastAll_sub_one hks (by omega) (heq ▸ hout)
        · exact pastAll_sub_one hks hpos fun hm => hfree (Or.inl hm)
        · split_ifs at hsub <;> omega
        · have heq : n - 1 = longMax := by
            apply BitVec.eq_of_toNat_eq
            split_ifs at hsub <;> omega
          exact ⟨by split_ifs at hsub <;> omega, fun _ _ => Or.inr heq⟩
    · rw [if_neg hle, pastAll_iff hks]
      have hle := BitVec.le_def.not.mp hle
      split_ifs at hsub with hzero
      · have hnz : n - 1 ≠ h := by
          rintro rfl
          exact hle (Nat.le_refl _)
        omega
      · omega

theorem Valid.length_pos (hv : ht.Valid l) (hnum : ht.nNumOfElements ≠ 0) : l ≠ [] := by
  rintro rfl
  exact hnum hv.count

theorem Valid.pop (hv : ht.Valid l) (hnum : ht.nNumOfElements ≠ 0) (isSymbolTable : Bool) :
    ∃ b p r, l = b ++ [p] ∧ ht.phpiPop isSymbolTable true = some r ∧ r.2.Valid b ∧
      r.2.key = ht.key ∧ r.2.nNextFreeElement = popped ht.nNextFreeElement (ht.key p) := by
  obtain ⟨b, p, rfl⟩ : ∃ b p, l = b ++ [p] :=
    ⟨_, _, (dropLast_append_getLast (hv.length_pos hnum)).symm⟩
  have htail : ht.pListTail = some p := by rw [hv.list.tail_eq]; simp
  have hv0 : ht.zendHashInternalPointerEnd.Valid (b ++ [p]) :=
    hv.setInternalPointer fun q hq => mem_of_getLast? (hv.list.tail_eq ▸ hq)
  have hp : p ∈ b ++ [p] := by simp
  have hpb : p ∉ b := fun hm => (nodup_append.mp hv.list.nodup).2.2 p hm p (by simp) rfl
  have herase : (b ++ [p]).erase p = b := by
    rw [erase_append_right _ hpb]
    simp
  have hvd := hv0.delete hp
  rw [herase] at hvd
  have hreset : ∀ n, ({ ht.zendHashInternalPointerEnd.deleteBucket p with
      nNextFreeElement := n } : HashTable α).zendHashInternalPointerReset.Valid b := fun n =>
    (hvd.setNextFreeElement n).setInternalPointer fun q hq =>
      mem_of_head? (hvd.list.head_eq ▸ hq)
  have hdel := hv0.deleteCurrent_eq isSymbolTable hp
  unfold phpiPop
  simp only [if_neg hnum, if_true]
  have hcur : ht.zendHashInternalPointerEnd.pInternalPointer = some p := htail
  simp only [hcur, hdel, Option.bind_some]
  by_cases hlower : ht.nKeyLength p = 0 ∧ ht.nNextFreeElement - 1 ≤ ht.h p
  · have hlower' : ht.zendHashInternalPointerEnd.nKeyLength p = 0 ∧
        (ht.zendHashInternalPointerEnd.deleteBucket p).nNextFreeElement - 1 ≤
          ht.zendHashInternalPointerEnd.h p := hlower
    have hpop : popped ht.nNextFreeElement (ht.key p) = ht.nNextFreeElement - 1 := by
      rw [key, if_pos hlower.1]
      exact if_pos hlower.2
    rw [if_pos hlower']
    exact ⟨b, p, _, rfl, rfl, hreset _, rfl, hpop.symm⟩
  · have hlower' : ¬ (ht.zendHashInternalPointerEnd.nKeyLength p = 0 ∧
        (ht.zendHashInternalPointerEnd.deleteBucket p).nNextFreeElement - 1 ≤
          ht.zendHashInternalPointerEnd.h p) := hlower
    have hpop : popped ht.nNextFreeElement (ht.key p) = ht.nNextFreeElement := by
      rw [key]
      by_cases hindex : ht.nKeyLength p = 0
      · rw [if_pos hindex]
        exact if_neg fun hle => hlower ⟨hindex, hle⟩
      · rw [if_neg hindex]
        rfl
    rw [if_neg hlower']
    exact ⟨b, p, _, rfl, rfl, hreset _, rfl, hpop.symm⟩

theorem Valid.shift (hv : ht.Valid l) (hnum : ht.nNumOfElements ≠ 0) (isSymbolTable : Bool) :
    ∃ p b r, l = p :: b ∧ ht.phpiPop isSymbolTable false = some r ∧
      (((b.map r.2.key).Nodup → r.2.Valid b) ∧ Walk r.2.pListNext r.2.pListHead b) ∧
      b.map r.2.key = reindexed 0 (b.map ht.key) ∧
      r.2.nNextFreeElement =
        BitVec.ofNat 64 (indexCount (b.map ht.key) % uintModulus) := by
  obtain ⟨p, b, rfl⟩ := exists_cons_of_ne_nil (hv.length_pos hnum)
  have hhead : ht.pListHead = some p := hv.list.head_eq
  have hv0 : ht.zendHashInternalPointerReset.Valid (p :: b) :=
    hv.setInternalPointer fun q hq => mem_of_head? (hv.list.head_eq ▸ hq)
  have hp : p ∈ p :: b := mem_cons_self
  have hvd := hv0.delete hp
  rw [erase_cons_head] at hvd
  have hdel := hv0.deleteCurrent_eq isSymbolTable hp
  have hcur : ht.zendHashInternalPointerReset.pInternalPointer = some p := hhead
  generalize hD : ht.zendHashInternalPointerReset.deleteBucket p = D at hvd hdel
  have hDkey : D.key = ht.key := by rw [← hD]; rfl
  have hwalk : Walk D.pListNext D.pListHead b := hvd.list.head_eq ▸ hvd.list.linked.walk
  obtain ⟨rehash, h, hloop, hmap, hframe, -, hsame⟩ :=
    reindexLoop_eq hvd.list.nodup hwalk hvd.live.length_eq.ge 0 false
  rw [hDkey, Nat.zero_add] at hloop
  rw [hDkey] at hmap
  have hpointer : ∀ q ∈ D.pListHead, q ∈ b := fun q hq =>
    mem_of_head? (hvd.list.head_eq ▸ hq)
  unfold phpiPop
  simp only [if_neg hnum, Bool.false_eq_true, if_false, hcur, hdel, Option.bind_some]
  have hmod : 0 % uintModulus = 0 := rfl
  rw [hmod] at hloop
  rw [hloop]
  simp only [Option.bind_some]
  cases rehash with
  | false =>
    refine ⟨p, b, _, rfl, rfl, ⟨fun _ => ?_, hwalk⟩, hmap, rfl⟩
    rw [hsame rfl]
    exact (hvd.setNextFreeElement _).setInternalPointer hpointer
  | true =>
    generalize hT : ({ D with
      h := h
      nNextFreeElement := BitVec.ofNat 64 (indexCount (b.map ht.key) % uintModulus) } :
        HashTable α) = T
    have hTlist : DList T.pListNext T.pListLast T.pListHead T.pListTail b := by
      rw [← hT]
      exact hvd.list
    obtain ⟨arBuckets, pNext, pLast, hrehash, hchains⟩ := zendHashRehash_eq T hTlist
      (by rw [← hT]; exact hvd.live) (by rw [← hT]; exact hvd.index_lt)
    simp only [if_true, hrehash, Option.map_some]
    refine ⟨p, b, _, rfl, rfl, ⟨fun hkeys => ?_, ?_⟩, ?_, ?_⟩
    · subst hT
      refine ⟨hvd.size, hvd.mask, hvd.list, hvd.live, hchains, hpointer, hvd.count,
        fun q hq => ?_, hkeys⟩
      intro hlen
      have hhq : h q = D.h q := hframe q (Or.inr hlen)
      have hok := hvd.hash q hq hlen
      rw [← hhq] at hok
      exact hok
    · subst hT
      exact hwalk
    · subst hT
      exact hmap
    · subst hT
      rfl

theorem toInt_ofNat_of_lt {n : Nat} (hn : n < uintModulus) : (BitVec.ofNat 64 n).toInt = n := by
  have hcases := toInt_cases (BitVec.ofNat 64 n)
  unfold uintModulus at hn
  rw [BitVec.toNat_ofNat] at hcases
  omega

theorem reindexed_pastAll_iff (ks : List HashKey) :
    PastAll (BitVec.ofNat 64 (indexCount ks % uintModulus)) (reindexed 0 ks) ↔
      indexCount ks < uintModulus := by
  have hpos : 0 < uintModulus := by decide
  have hnext : (BitVec.ofNat 64 (indexCount ks % uintModulus)).toInt =
      (indexCount ks % uintModulus : Nat) := toInt_ofNat_of_lt (Nat.mod_lt _ hpos)
  constructor
  · intro hpast
    by_contra hwrap
    -- the largest `unsigned int` is a key then
    have hmem : .index (BitVec.ofNat 64 (uintModulus - 1)) ∈ reindexed 0 ks := by
      refine index_mem_reindexed.mpr ⟨uintModulus - 1, by omega, ?_⟩
      rw [Nat.zero_add, Nat.mod_eq_of_lt (by omega)]
    have hkey : (BitVec.ofNat 64 (uintModulus - 1)).toInt = (uintModulus - 1 : Nat) :=
      toInt_ofNat_of_lt (by omega)
    have hmod := Nat.mod_lt (indexCount ks) hpos
    rcases hpast.2 _ hmem with hlt | hmax
    · omega
    · have hmax := congrArg BitVec.toInt hmax
      rw [hnext, longMax_toInt] at hmax
      unfold uintModulus at hmax
      omega
  · intro hlt
    refine ⟨by omega, fun h hh => Or.inl ?_⟩
    obtain ⟨j, hj, rfl⟩ := index_mem_reindexed.mp hh
    rw [Nat.zero_add, Nat.mod_eq_of_lt (by omega : j < uintModulus), hnext,
      Nat.mod_eq_of_lt hlt, toInt_ofNat_of_lt (by omega)]
    omega

/-- The inputs that leave a table one can append to.  An array that counts no elements is left as
    it is.  A shift counts the integer keys in an `unsigned int`. -/
def PopShiftFits (ht : HashTable α) (ks : List HashKey) (offTheEnd : Bool) : Prop :=
  if ht.nNumOfElements = 0 then 0 ≤ ht.nNextFreeElement.toInt
  else if offTheEnd then PopFits ht.nNextFreeElement ks
  else indexCount ks.tail < uintModulus

theorem phpiPop_appendable_iff {ht : HashTable α} {l : List BucketPtr} (hv : ht.Valid l)
    (hnext : NonNegBelow ht.nNextFreeElement (l.map ht.key)) (isSymbolTable offTheEnd : Bool) :
    ∃ r, ht.phpiPop isSymbolTable offTheEnd = some r ∧
      (r.2.Appendable ↔ ht.PopShiftFits (l.map ht.key) offTheEnd) := by
  unfold PopShiftFits
  by_cases hnum : ht.nNumOfElements = 0
  · refine ⟨(none, ht), by rw [phpiPop, if_pos hnum], ?_⟩
    rw [if_pos hnum, hv.appendable_iff]
    exact pastAll_iff hnext
  rw [if_neg hnum]
  cases offTheEnd with
  | true =>
    obtain ⟨b, p, r, rfl, hpop, hvr, hkey, hr⟩ := hv.pop hnum isSymbolTable
    have hkeys := hv.keys
    rw [List.map_append, List.map_singleton] at hkeys hnext ⊢
    refine ⟨r, hpop, ?_⟩
    rw [if_pos rfl, hvr.appendable_iff, ← popped_pastAll_iff hkeys hnext, ← hr, ← hkey]
    rfl
  | false =>
    obtain ⟨p, b, r, rfl, hpop, ⟨hvr, hwalk⟩, hkey, hr⟩ := hv.shift hnum isSymbolTable
    refine ⟨r, hpop, ?_⟩
    rw [if_neg Bool.false_ne_true, List.map_cons, List.tail_cons,
      ← reindexed_pastAll_iff, ← hr, ← hkey]
    have hnd : (b.map ht.key).Nodup := (List.nodup_cons.mp hv.keys).2
    constructor
    · rintro ⟨⟨l', hv', hn⟩, -⟩
      have hwalk' : Walk r.2.pListNext r.2.pListHead l' :=
        hv'.list.head_eq ▸ hv'.list.linked.walk
      obtain rfl := hwalk.unique hwalk'
      exact hn
    · intro hpast
      have hcount := hpast
      rw [hr, hkey, reindexed_pastAll_iff] at hcount
      have hkeysnd := reindexed_nodup hnd (by omega : 0 + indexCount (b.map ht.key) ≤ uintModulus)
      rw [← hkey] at hkeysnd
      exact (hvr hkeysnd).appendable_iff.mpr hpast

theorem zeroAndNegative_valid :
    ∃ (ht : HashTable Unit) (l : List BucketPtr), ht.Valid l ∧
      l.map ht.key = [.index 0, .index (-5)] ∧ ht.nNextFreeElement = 1 ∧ ht.nNumOfElements = 2 ∧
      NonNegBelow ht.nNextFreeElement (l.map ht.key) ∧
      (ht.phpiPop false true).map (fun r => (r.2.nNextFreeElement, r.2.listKeys)) =
        some (0, [.index 0]) := by
  have hrun : ∃ ht : HashTable Unit, ht.listKeys = [.index 0, .index (-5)] ∧
      ht.nNextFreeElement = 1 ∧ ht.nNumOfElements = 2 ∧
      (ht.phpiPop false true).map (fun r => (r.2.nNextFreeElement, r.2.listKeys)) =
        some (0, [.index 0]) ∧
      Run step OpOk (zendHashInit Unit 8 false false)
        [.indexUpdateOrNextInsert 0 () sizeofVoidPtr hashUpdate ⟨some 0, true, true⟩,
          .indexUpdateOrNextInsert (-5) () sizeofVoidPtr hashUpdate ⟨some 1, true, true⟩] ht := by
    refine ⟨_, ?_, ?_, ?_, ?_, Run.snoc (Run.snoc (Run.nil _) ?_ rfl) ?_ rfl⟩
    · decide
    · decide
    · decide
    · decide
    · exact fun _ _ => not_mem_nil
    · intro p hp
      obtain rfl := Option.some.inj hp
      decide
  obtain ⟨ht, hkeys, hnext, hnum, hpop, hrun⟩ := hrun
  obtain ⟨l, hv⟩ := Run.valid hrun
  rw [hv.listKeys_eq] at hkeys
  refine ⟨ht, l, hv, hkeys, hnext, hnum, ?_, hpop⟩
  rw [hkeys, hnext]
  intro h hh hpos
  rcases mem_cons.mp hh with hh | hh
  · obtain rfl := HashKey.index.inj hh
    decide
  · obtain rfl := HashKey.index.inj (mem_singleton.mp hh)
    exact absurd hpos (by decide)

/-- The pop of `-5` makes `0` the next free element, the key that is still there. -/
theorem pop_negative_collides :
    ¬ ∀ (ht : HashTable Unit) (l : List BucketPtr), ht.Valid l →
      NonNegBelow ht.nNextFreeElement (l.map ht.key) → ∀ isSymbolTable offTheEnd,
        ∃ r, ht.phpiPop isSymbolTable offTheEnd = some r ∧ r.2.Appendable := by
  intro hall
  obtain ⟨ht, l, hv, -, -, -, hbelow, hpop⟩ := zeroAndNegative_valid
  obtain ⟨r, hr, ⟨⟨l', hv', hn⟩, -⟩⟩ := hall ht l hv hbelow false true
  rw [hr] at hpop
  obtain ⟨hzero, hlist⟩ := Prod.mk.inj (Option.some.inj hpop)
  rw [hv'.listKeys_eq] at hlist
  have hmem : HashKey.index 0 ∈ l'.map r.2.key := by rw [hlist]; exact List.mem_singleton_self _
  have hcontra := hn.2 0 hmem
  rw [hzero] at hcontra
  exact absurd hcontra (by decide)

theorem phpiPop_appendable_iff_negative :
    ∃ (ht : HashTable Unit) (l : List BucketPtr), l.map ht.key = [.index 0, .index (-5)] ∧
      (∃ r, ht.phpiPop false true = some r ∧ ¬ r.2.Appendable) ∧
      ∃ r, ht.phpiPop false false = some r ∧ r.2.Appendable := by
  obtain ⟨ht, l, hv, hkeys, hnext, hnum, hbelow, -⟩ := zeroAndNegative_valid
  obtain ⟨r, hr, hiff⟩ := phpiPop_appendable_iff hv hbelow false true
  obtain ⟨r', hr', hiff'⟩ := phpiPop_appendable_iff hv hbelow false false
  refine ⟨ht, l, hkeys, ⟨r, hr, fun happ => ?_⟩, r', hr', hiff'.mpr ?_⟩
  · have hfits := hiff.mp happ
    rw [PopShiftFits, hnum, hkeys, hnext, if_neg (by decide), if_pos rfl] at hfits
    rcases hfits with h | ⟨-, h⟩ | ⟨h, -⟩ | h
    · exact absurd h (by decide)
    · exact h (by decide)
    · exact absurd h (by decide)
    · exact absurd h (by decide)
  · rw [PopShiftFits, hnum, hkeys, if_neg (by decide), if_neg Bool.false_ne_true]
    decide

end HashTable

end Php53.Zend
