import Php53.Zend.Hash.Operations

/-!
# Rekey — changing the key of a bucket in place, and sorting

`zend_hash_update_current_key_ex` takes a bucket out of its chain, may move it to a new bucket of
another size, writes the new key and links it into its new chain; in between the table is
`Detached`.  `zend_hash_sort` rebuilds the global list and, when it renumbers, every key.
-/

open Reasoning

namespace Php53.Zend

open List

namespace HashTable

variable {α : Type}

variable {a b l : List BucketPtr} {p : BucketPtr} {ht : HashTable α}

/-- The key that `zend_hash_update_current_key_ex` gives to a bucket. -/
def targetKey (keyType : HashKeyType) (strIndex : List UInt8) (numIndex : BitVec 64) : HashKey :=
  if keyType = .isLong then .index numIndex
  else HashKey.ofArKey strIndex (zendInlineHashFunc strIndex)

theorem Valid.updateKeySearch_cases (hv : ht.Valid l) (keyType : HashKeyType)
    (strIndex : List UInt8) (numIndex : BitVec 64) (hp : p ∈ l) :
    (∃ r, ht.updateKeySearch keyType strIndex numIndex p = some (.inl r)) ∨
      (ht.key p ≠ targetKey keyType strIndex numIndex ∧
        ht.updateKeySearch keyType strIndex numIndex p =
          some (.inr (ht.lookup l (targetKey keyType strIndex numIndex)))) := by
  cases keyType with
  | nonExistant => exact Or.inl ⟨.failure, rfl⟩
  | isLong =>
    by_cases h : ht.nKeyLength p = 0 ∧ ht.h p = numIndex
    · exact Or.inl ⟨.success, if_pos h⟩
    · refine Or.inr ⟨?_, ?_⟩
      · rw [targetKey, if_pos rfl, Ne, ← matchesIndex_iff]
        simpa [matchesIndex] using h
      · rw [updateKeySearch, if_neg h, hv.find_matchesIndex]
        rfl
  | isString =>
    have hiff := (hv.hash p hp).key_eq_ofArKey_iff (zendInlineHashFunc strIndex)
      fun _ : strIndex ≠ [] => rfl
    by_cases h : ht.nKeyLength p = strIndex.length ∧
        memcmpEq (ht.arKey p) strIndex strIndex.length
    · exact Or.inl ⟨.success, if_pos h⟩
    · refine Or.inr ⟨fun he => h ?_, ?_⟩
      · obtain ⟨-, h1, h2⟩ := hiff.mp he
        exact ⟨h1, by simpa [memcmpEq] using h2⟩
      · rw [updateKeySearch, if_neg h]
        dsimp only
        rw [hv.find_matchesKey fun _ => rfl]
        rfl

theorem listedBefore_of_walk {q : BucketPtr} {n : Nat} {r : Option BucketPtr}
    (hw : Walk ht.pListLast r l) (hn : l.length ≤ n) :
    ht.listedBefore q n r = some (decide (q ∈ l)) := by
  induction l generalizing n r with
  | nil =>
    rw [show r = none from hw]
    cases n <;> simp [listedBefore]
  | cons x l ih =>
    obtain ⟨rfl, hw⟩ := hw
    obtain ⟨m, rfl⟩ : ∃ m, n = m + 1 := ⟨n - 1, by simp at hn; omega⟩
    rw [listedBefore]
    by_cases hx : x = q
    · simp [hx]
    · rw [if_neg hx, ih hw (by simpa using hn)]
      simp [Ne.symm hx]

theorem Valid.listedBefore_eq (hv : ht.Valid (a ++ p :: b)) (q : BucketPtr) :
    ht.listedBefore q ht.live.length (ht.pListLast p) = some (decide (q ∈ a)) := by
  have hlast : ht.pListLast p = a.getLast? := by simpa using hv.list.linked.last_mid
  have hlen : a.reverse.length ≤ ht.live.length := by
    rw [hv.live.length_eq, length_reverse, length_append]
    omega
  rw [hlast, listedBefore_of_walk (Linked.append_iff.mp hv.list.linked).1.walk_reverse hlen]
  simp

/-- A valid table but for the bucket `x`, which is on no chain and whose key does not count. -/
structure Detached (ht : HashTable α) (l : List BucketPtr) (x : BucketPtr) : Prop where
  size : ∃ k, 3 ≤ k ∧ k ≤ 31 ∧ ht.nTableSize = 2 ^ k
  mask : ht.nTableMask = ht.nTableSize - 1
  list : DList ht.pListNext ht.pListLast ht.pListHead ht.pListTail l
  mem : x ∈ l
  live : ht.live.Perm l
  chains : Chained ht.nTableSize ht.arBuckets ht.pNext ht.pLast (fun p => ht.index (ht.h p))
    (l.erase x)
  cursor : ∀ p ∈ ht.pInternalPointer, p ∈ l
  count : ht.nNumOfElements = l.length % uintModulus
  hash : ∀ p ∈ l.erase x, ht.HashOk p
  keys : ((l.erase x).map ht.key).Nodup

theorem Valid.detach (hv : ht.Valid l) (hp : p ∈ l) : (ht.unlinkChain p).Detached l p :=
  ⟨hv.size, hv.mask, hv.list, hp, hv.live,
    hv.chains.unlink hv.list.nodup hp (hv.index_lt _), hv.cursor, hv.count,
    fun q hq => hv.hash q (mem_of_mem_erase hq),
    hv.keys.sublist (erase_sublist.map _)⟩

theorem erase_middle (hp : p ∉ a) :
    (a ++ p :: b).erase p = a ++ b := by
  rw [erase_append_right _ hp, erase_cons_head]

theorem Detached.replaceBucket {q : BucketPtr} (hd : ht.Detached (a ++ p :: b) p)
    (hq : q ∉ a ++ p :: b) (strLength : Nat) :
    (ht.replaceBucket p q strLength).Detached (a ++ q :: b) q := by
  have hpa : p ∉ a := fun hm => by
    have hnd := hd.list.nodup
    rw [nodup_append] at hnd
    exact hnd.2.2 p hm p (by simp) rfl
  have hqa : q ∉ a := fun hm => hq (mem_append_left _ hm)
  have hqb : q ∉ b := fun hm => hq (mem_append_right _ (mem_cons_of_mem _ hm))
  have hqne : ∀ x ∈ a ++ b, x ≠ q := by
    rintro x hx rfl
    exact (mem_append.mp hx).elim hqa hqb
  have hchains := hd.chains
  have hhash := hd.hash
  have hkeys := hd.keys
  rw [erase_middle hpa] at hchains hhash hkeys
  have hfields : ∀ x ∈ a ++ b, (ht.replaceBucket p q strLength).nKeyLength x = ht.nKeyLength x ∧
      (ht.replaceBucket p q strLength).arKey x = ht.arKey x := fun x hx =>
    ⟨Function.update_of_ne (hqne x hx) _ _, Function.update_of_ne (hqne x hx) _ _⟩
  refine ⟨hd.size, hd.mask, hd.list.replace hq, by simp, ?_, ?_, ?_, ?_, ?_, ?_⟩
  · have hlive := (hd.live.erase p).cons q
    rw [erase_middle hpa] at hlive
    exact hlive.trans perm_middle.symm
  · rw [erase_middle hqa]
    exact hchains
  · intro x hx
    change x ∈ (if ht.pInternalPointer = some p then some q else ht.pInternalPointer) at hx
    split at hx
    · simp_all
    · rename_i hne
      have hxp : x ≠ p := fun he => hne (he ▸ hx)
      have hmem := hd.cursor x hx
      simp only [mem_append, mem_cons, hxp, false_or] at hmem ⊢
      tauto
  · change ht.nNumOfElements = _
    rw [hd.count, length_append, length_append, length_cons, length_cons]
  · rw [erase_middle hqa]
    intro x hx
    have hok := hhash x hx
    rw [HashOk, (hfields x hx).1, (hfields x hx).2]
    exact hok
  · rw [erase_middle hqa]
    have he : (a ++ b).map (ht.replaceBucket p q strLength).key = (a ++ b).map ht.key :=
      map_congr_left fun x hx => by
        rw [key, (hfields x hx).1, (hfields x hx).2]
        rfl
    rw [he]
    exact hkeys

theorem nNextFreeElement_rekeyBucket (ht : HashTable α) (keyType : HashKeyType)
    (strIndex : List UInt8) (numIndex : BitVec 64) (p : BucketPtr) :
    (ht.rekeyBucket keyType strIndex numIndex p).nNextFreeElement = ht.nNextFreeElement := by
  unfold HashTable.rekeyBucket
  split <;> rfl

theorem Detached.rekeyBucket {x : BucketPtr} (hd : ht.Detached l x) (keyType : HashKeyType)
    (strIndex : List UInt8) (numIndex : BitVec 64)
    (hlen : ht.nKeyLength x = if keyType = .isLong then 0 else strIndex.length)
    (hk : targetKey keyType strIndex numIndex ∉ (l.erase x).map ht.key) :
    (ht.rekeyBucket keyType strIndex numIndex x).Valid l ∧
      (ht.rekeyBucket keyType strIndex numIndex x).key x =
        targetKey keyType strIndex numIndex ∧
      ∀ q ∈ l.erase x, (ht.rekeyBucket keyType strIndex numIndex x).key q = ht.key q := by
  have hne : ∀ q ∈ l.erase x, q ≠ x := fun q hq => (hd.list.nodup.mem_erase_iff.mp hq).1
  have hlt : ∀ h, ht.index h < ht.nTableSize := fun h => by
    obtain ⟨k, -, -, hk⟩ := hd.size
    rw [index, hd.mask, hk, Nat.and_two_pow_sub_one_eq_mod]
    exact Nat.mod_lt _ (Nat.two_pow_pos _)
  obtain ⟨h', arKey', hself, hold, he⟩ : ∃ h' arKey',
      (h' x = (targetKey keyType strIndex numIndex).hash ∧
        (ht.nKeyLength x ≠ 0 → arKey' x = strIndex ∧ h' x = zendInlineHashFunc strIndex) ∧
        (ht.nKeyLength x = 0 → .index (h' x) = targetKey keyType strIndex numIndex)) ∧
      (∀ q, q ≠ x → h' q = ht.h q ∧ arKey' q = ht.arKey q) ∧
      ht.rekeyBucket keyType strIndex numIndex x =
        { ht with
          h := h'
          arKey := arKey'
          pNext := Function.update ht.pNext x (ht.arBuckets (ht.index (h' x)))
          pLast := updateAt (Function.update ht.pLast x none) (ht.arBuckets (ht.index (h' x)))
            (some x)
          arBuckets := Function.update ht.arBuckets (ht.index (h' x)) (some x) } := by
    by_cases hkt : keyType = .isLong
    · refine ⟨Function.update ht.h x numIndex, ht.arKey, ⟨?_, ?_, ?_⟩, ?_, ?_⟩
      · simp [targetKey, hkt, HashKey.hash]
      · simp [hlen, hkt]
      · simp [targetKey, hkt]
      · intro q hq
        simp [hq]
      · subst hkt
        rfl
    · refine ⟨Function.update ht.h x (zendInlineHashFunc strIndex),
        Function.update ht.arKey x strIndex, ⟨?_, ?_, ?_⟩, ?_, ?_⟩
      · rw [targetKey, if_neg hkt, HashKey.hash_ofArKey fun _ => rfl, Function.update_self]
      · simp
      · intro h0
        have hs : strIndex.length = 0 := by rw [if_neg hkt] at hlen; omega
        simp [targetKey, hkt, HashKey.ofArKey, hs]
      · intro q hq
        simp [hq]
      · unfold HashTable.rekeyBucket
        rw [if_neg hkt]
        rfl
  have hkeyx : (ht.rekeyBucket keyType strIndex numIndex x).key x =
      targetKey keyType strIndex numIndex := by
    rw [he]
    by_cases h0 : ht.nKeyLength x = 0
    · simp only [key, h0, if_true]
      exact hself.2.2 h0
    · have hkt : keyType ≠ .isLong := fun hkt => h0 (by simpa [hkt] using hlen)
      rw [if_neg hkt] at hlen
      simp only [key, if_neg h0, (hself.2.1 h0).1, targetKey, if_neg hkt, HashKey.ofArKey,
        ← hlen]
  have hkeyq : ∀ q ∈ l.erase x,
      (ht.rekeyBucket keyType strIndex numIndex x).key q = ht.key q := fun q hq => by
    rw [he]
    simp only [key, (hold q (hne q hq)).1, (hold q (hne q hq)).2]
  refine ⟨?_, hkeyx, hkeyq⟩
  have hperm : l.Perm (x :: l.erase x) := perm_cons_erase hd.mem
  refine ⟨?_, ?_, ?_, ?_, ?_, ?_, ?_, ?_, ?_⟩
  · rw [he]; exact hd.size
  · rw [he]; exact hd.mask
  · rw [he]; exact hd.list
  · rw [he]; exact hd.live
  · rw [he]
    have hc : Chained ht.nTableSize ht.arBuckets ht.pNext ht.pLast
        (fun q => ht.index (h' q)) (l.erase x) :=
      hd.chains.congr (fun _ => Iff.rfl) fun q hq => by rw [(hold q (hne q hq)).1]
    exact (hc.push (fun hm => hne x hm rfl) (hlt _)).congr (fun q => hperm.mem_iff)
      fun _ _ => rfl
  · rw [he]; exact hd.cursor
  · rw [he]; exact hd.count
  · intro q hq
    rw [he]
    by_cases hqx : q = x
    · subst hqx
      intro h0
      have hkt : keyType ≠ .isLong := fun hkt => h0 (by simpa [hkt] using hlen)
      rw [if_neg hkt] at hlen
      obtain ⟨h1, h2⟩ := hself.2.1 h0
      exact ⟨by simp only [h1, h2], by simp only [h1, hlen]⟩
    · have hqe := hd.list.nodup.mem_erase_iff.mpr ⟨hqx, hq⟩
      have hok := hd.hash q hqe
      simpa only [HashOk, (hold q hqx).1, (hold q hqx).2] using hok
  · rw [(hperm.map _).nodup_iff, map_cons, nodup_cons, hkeyx,
      map_congr_left hkeyq]
    exact ⟨hk, hd.keys⟩

theorem Valid.updateKeyOf_cases (hv : ht.Valid (a ++ p :: b)) {keyType : HashKeyType}
    {strIndex : List UInt8} (numIndex : BitVec 64) {mem : Pemalloc} (hmem : ht.Fresh mem)
    (hk : targetKey keyType strIndex numIndex ∉ (a ++ p :: b).map ht.key) :
    (mem.bucket = none ∧ ht.updateKeyOf keyType strIndex numIndex p mem = none) ∨
      ∃ ht' q, ht.updateKeyOf keyType strIndex numIndex p mem = some (ht', q) ∧
        ht'.Valid (a ++ q :: b) ∧ ht'.nNextFreeElement = ht.nNextFreeElement ∧
        (a ++ q :: b).map ht'.key =
          a.map ht.key ++ targetKey keyType strIndex numIndex :: b.map ht.key := by
  have hpa : p ∉ a := fun hm => by
    have hnd := hv.list.nodup
    rw [nodup_append] at hnd
    exact hnd.2.2 p hm p (by simp) rfl
  have hd := hv.detach (p := p) (by simp)
  have hkab : targetKey keyType strIndex numIndex ∉ (a ++ b).map ht.key := fun hm => hk (by
    rw [map_append] at hm ⊢
    cases mem_append.mp hm with
    | inl hm => exact mem_append_left _ hm
    | inr hm => exact mem_append_right _ (mem_cons_of_mem _ hm))
  -- the keys of the other buckets, once `x` in the place of `p` has its new key
  have hmap : ∀ (ht' : HashTable α) (x : BucketPtr), x ∉ a → x ∉ b →
      ht'.key x = targetKey keyType strIndex numIndex →
      (∀ q ∈ (a ++ x :: b).erase x, ht'.key q = ht.key q) →
      (a ++ x :: b).map ht'.key =
        a.map ht.key ++ targetKey keyType strIndex numIndex :: b.map ht.key := by
    intro ht' x hxa hxb hx hrest
    rw [erase_middle hxa] at hrest
    rw [map_append, map_cons, hx,
      map_congr_left fun q hq => hrest q (mem_append_left _ hq),
      map_congr_left fun q hq => hrest q (mem_append_right _ hq)]
  have hpb : p ∉ b := (nodup_cons.mp hv.list.nodup.of_append_right).1
  unfold HashTable.updateKeyOf
  dsimp only
  rw [unlinkChainByLast_eq]
  by_cases hlen : (ht.unlinkChain p).nKeyLength p ≠ if keyType = .isLong then 0
      else strIndex.length
  · rw [if_pos hlen]
    cases hb : mem.bucket with
    | none => exact Or.inl ⟨rfl, rfl⟩
    | some q =>
      have hq : q ∉ a ++ p :: b := fun hm => hmem q hb (hv.live.mem_iff.mpr hm)
      have hqa : q ∉ a := fun hm => hq (mem_append_left _ hm)
      have hqb : q ∉ b := fun hm => hq (mem_append_right _ (mem_cons_of_mem _ hm))
      have hd' := hd.replaceBucket hq (if keyType = .isLong then 0 else strIndex.length)
      have hother : ∀ x ∈ (a ++ q :: b).erase q, ((ht.unlinkChain p).replaceBucket p q
          (if keyType = .isLong then 0 else strIndex.length)).key x = ht.key x := by
        rw [erase_middle hqa]
        intro x hx
        have hxq : x ≠ q := by
          rintro rfl
          exact (mem_append.mp hx).elim hqa hqb
        simp [key, HashTable.replaceBucket, unlinkChain, hxq]
      obtain ⟨hv', hkx, hkq⟩ := hd'.rekeyBucket keyType strIndex numIndex
        (Function.update_self _ _ _) (by
          rw [map_congr_left hother, erase_middle hqa]
          exact hkab)
      refine Or.inr ⟨_, q, rfl, hv', nNextFreeElement_rekeyBucket .., hmap _ q hqa hqb hkx fun x hx => ?_⟩
      rw [hkq x hx, hother x hx]
  · rw [if_neg hlen]
    obtain ⟨hv', hkx, hkq⟩ := hd.rekeyBucket keyType strIndex numIndex
      (not_not.mp hlen) (by
        rw [erase_middle hpa]
        exact hkab)
    exact Or.inr ⟨_, p, rfl, hv', nNextFreeElement_rekeyBucket .., hmap _ p hpa hpb hkx hkq⟩

theorem Valid.updateCurrentKey_cases (hv : ht.Valid l) (keyType : HashKeyType)
    (strIndex : List UInt8) (numIndex : BitVec 64) (mode : Nat) {pos : Option (Option BucketPtr)}
    (hpos : ∀ p, pos = some (some p) → p ∈ l) {mem : Pemalloc} (hmem : ht.Fresh mem) :
    (mem.bucket = none ∧
        ht.zendHashUpdateCurrentKeyEx keyType strIndex numIndex mode pos mem = none) ∨
      ∃ o pos', ht.zendHashUpdateCurrentKeyEx keyType strIndex numIndex mode pos mem =
          some (o, pos') ∧
        (o.table = ht ∨ (∃ p ∈ l, o.table = ht.deleteBucket p) ∨
          keyType ≠ .nonExistant ∧ pos.getD ht.pInternalPointer ≠ none ∧
            ∃ l', o.table.Valid l' ∧ o.table.nNextFreeElement = ht.nNextFreeElement ∧
              ∀ k ∈ l'.map o.table.key,
                k = targetKey keyType strIndex numIndex ∨ k ∈ l.map ht.key) := by
  have hcur : ∀ p, pos.getD ht.pInternalPointer = some p → p ∈ l := by
    intro p hp
    cases pos with
    | none => exact hv.cursor p hp
    | some o => exact hpos p (by simpa using hp)
  unfold HashTable.zendHashUpdateCurrentKeyEx
  cases hp : pos.getD ht.pInternalPointer with
  | none => exact Or.inr ⟨_, _, rfl, Or.inl rfl⟩
  | some p =>
    have hpl := hcur p hp
    dsimp only
    rcases hv.updateKeySearch_cases keyType strIndex numIndex hpl with ⟨r, hr⟩ | ⟨hne, hr⟩
    · rw [hr]
      exact Or.inr ⟨_, _, rfl, Or.inl rfl⟩
    have htype : keyType ≠ .nonExistant := by
      rintro rfl
      exact nomatch hr
    rw [hr]
    cases hl : ht.lookup l (targetKey keyType strIndex numIndex) with
    | none =>
      dsimp only
      obtain ⟨a, b, rfl⟩ := append_of_mem hpl
      rcases hv.updateKeyOf_cases numIndex hmem (lookup_none.mp hl) with
        ⟨hnone, he⟩ | ⟨ht', q, he, hv', hnext, hkeys⟩
      · exact Or.inl ⟨hnone, by rw [he]; rfl⟩
      · refine Or.inr ⟨_, _, by rw [he]; rfl, Or.inr (Or.inr
          ⟨htype, nofun, _, hv', hnext, fun k hk => ?_⟩)⟩
        rw [hkeys] at hk
        rw [map_append, map_cons]
        rcases mem_append.mp hk with hk | hk
        · exact Or.inr (mem_append_left _ hk)
        · rcases mem_cons.mp hk with hk | hk
          · exact Or.inl hk
          · exact Or.inr (mem_append_right _ (mem_cons_of_mem _ hk))
    | some q =>
      obtain ⟨hq, hqk⟩ := lookup_some hl
      have hqp : p ≠ q := fun he => hne (he ▸ hqk)
      obtain ⟨a, b, rfl⟩ := append_of_mem hpl
      dsimp only
      rw [hv.listedBefore_eq q]
      dsimp only
      generalize (if decide (q ∈ a) = true then hashUpdateKeyIfAfter
        else hashUpdateKeyIfBefore) = found
      split
      · refine Or.inr ⟨_, _, rfl, Or.inr (Or.inl ⟨p, hpl, ?_⟩)⟩
        rw [hv.deleteBucketByHead_eq hpl]
      · rw [hv.deleteBucketByHead_eq hq]
        have hv1 := hv.delete hq
        have hpe : p ∈ (a ++ p :: b).erase q := hv.list.nodup.mem_erase_iff.mpr ⟨hqp, hpl⟩
        have hmem1 : (ht.deleteBucket q).Fresh mem := fun r hr hm =>
          hmem r hr (mem_of_mem_erase hm)
        have hk1 : targetKey keyType strIndex numIndex ∉
            ((a ++ p :: b).erase q).map (ht.deleteBucket q).key := fun hm => by
          obtain ⟨r, hr, hrk⟩ := mem_map.mp hm
          obtain ⟨hrq, hrl⟩ := hv.list.nodup.mem_erase_iff.mp hr
          exact hrq (inj_on_of_nodup_map hv.keys hrl hq (hrk.trans hqk.symm))
        obtain ⟨a', b', hab⟩ := append_of_mem hpe
        rw [hab] at hv1 hk1
        rcases hv1.updateKeyOf_cases numIndex hmem1 hk1 with
          ⟨hnone, he⟩ | ⟨ht', x, he, hv', hnext, hkeys⟩
        · exact Or.inl ⟨hnone, by rw [he]; rfl⟩
        · refine Or.inr ⟨_, _, by rw [he]; rfl, Or.inr (Or.inr
            ⟨htype, nofun, _, hv', hnext, fun k hk => ?_⟩)⟩
          rw [hkeys] at hk
          have hsub : ∀ k ∈ (a' ++ p :: b').map ht.key, k ∈ (a ++ p :: b).map ht.key := by
            rw [← hab]
            exact fun k hk => (erase_sublist.map ht.key).subset hk
          rcases mem_append.mp hk with hk | hk
          · exact Or.inr (hsub k (by simp only [map_append, mem_append]; exact Or.inl hk))
          · rcases mem_cons.mp hk with hk | hk
            · exact Or.inl hk
            · refine Or.inr (hsub k ?_)
              simp only [map_append, map_cons, mem_append, mem_cons]
              exact Or.inr (Or.inr hk)

theorem relink_eq (arTmp : List BucketPtr) (hnd : arTmp.Nodup) (ht : HashTable α)
    (prev : Option BucketPtr) :
    ∃ pListNext pListLast,
      ht.relink prev arTmp = { ht with pListNext := pListNext, pListLast := pListLast } ∧
      Linked pListNext pListLast prev arTmp none ∧
      ∀ x, x ∉ arTmp → pListNext x = ht.pListNext x ∧ pListLast x = ht.pListLast x := by
  induction arTmp generalizing ht prev with
  | nil => exact ⟨_, _, rfl, trivial, fun _ _ => ⟨rfl, rfl⟩⟩
  | cons p arTmp ih =>
    obtain ⟨hp, hnd⟩ := nodup_cons.mp hnd
    obtain ⟨pListNext, pListLast, he, hlink, hframe⟩ := ih hnd
      { ht with
        pListLast := Function.update ht.pListLast p prev
        pListNext := Function.update ht.pListNext p arTmp.head? } (some p)
    refine ⟨pListNext, pListLast, he, ⟨?_, ?_, hlink⟩, fun x hx => ?_⟩
    · rw [(hframe p hp).2]
      exact Function.update_self _ _ _
    · rw [(hframe p hp).1, Option.or_none]
      exact Function.update_self _ _ _
    · obtain ⟨hxp, hx⟩ := not_or.mp (mem_cons.not.mp hx)
      rw [(hframe x hx).1, (hframe x hx).2]
      exact ⟨Function.update_of_ne hxp _ _, Function.update_of_ne hxp _ _⟩

theorem renumberFrom_eq (l : List BucketPtr) (hnd : l.Nodup) (ht : HashTable α) (i : Nat) :
    ∃ nKeyLength h,
      ht.renumberFrom i l = { ht with nKeyLength := nKeyLength, h := h } ∧
      l.map (fun p => (nKeyLength p, h p)) =
        (range' i l.length).map (fun j => (0, BitVec.ofNat 64 j)) ∧
      ∀ x, x ∉ l → nKeyLength x = ht.nKeyLength x ∧ h x = ht.h x := by
  induction l generalizing ht i with
  | nil => exact ⟨_, _, rfl, rfl, fun _ _ => ⟨rfl, rfl⟩⟩
  | cons p l ih =>
    obtain ⟨hp, hnd⟩ := nodup_cons.mp hnd
    obtain ⟨nKeyLength, h, he, hmap, hframe⟩ := ih hnd
      { ht with
        nKeyLength := Function.update ht.nKeyLength p 0
        h := Function.update ht.h p (BitVec.ofNat 64 i) } (i + 1)
    refine ⟨nKeyLength, h, he, ?_, fun x hx => ?_⟩
    · rw [map_cons, hmap, (hframe p hp).1, (hframe p hp).2, length_cons,
        range'_succ, map_cons]
      simp only [Function.update_self]
    · obtain ⟨hxp, hx⟩ := not_or.mp (mem_cons.not.mp hx)
      rw [(hframe x hx).1, (hframe x hx).2]
      exact ⟨Function.update_of_ne hxp _ _, Function.update_of_ne hxp _ _⟩

theorem Valid.reorder {arTmp : List BucketPtr} (hv : ht.Valid l) (hperm : arTmp.Perm l)
    {pListNext pListLast : BucketPtr → Option BucketPtr}
    (hlink : Linked pListNext pListLast none arTmp none) :
    ({ ht with
        pListNext := pListNext
        pListLast := pListLast
        pListHead := arTmp.head?
        pInternalPointer := arTmp.head?
        pListTail := arTmp.getLast? } : HashTable α).Valid arTmp := by
  refine ⟨hv.size, hv.mask, ⟨hperm.nodup_iff.mpr hv.list.nodup, hlink, rfl, rfl⟩,
    hv.live.trans hperm.symm, hv.chains.congr (fun p => hperm.mem_iff) fun _ _ => rfl, ?_, ?_,
    fun p hp => hv.hash p (hperm.mem_iff.mp hp), (hperm.map _).nodup_iff.mpr hv.keys⟩
  · exact fun p hp => mem_of_head? hp
  · exact hv.count.trans (by rw [hperm.length_eq])

theorem nodup_index_range {n : Nat} (hn : n ≤ 2 ^ 64) :
    ((range' 0 n).map fun j => HashKey.index (BitVec.ofNat 64 j)).Nodup := by
  rw [← range_eq_range']
  refine List.Nodup.map_on (fun i hi j hj h => ?_) nodup_range
  have h := congrArg BitVec.toNat (HashKey.index.inj h)
  rw [mem_range] at hi hj
  rw [BitVec.toNat_ofNat, BitVec.toNat_ofNat, Nat.mod_eq_of_lt (by omega),
    Nat.mod_eq_of_lt (by omega)] at h
  exact h

theorem Valid.zendHashSort_cases (hv : ht.Valid l) {sortFunc : List BucketPtr → List BucketPtr}
    (hsort : (sortFunc l).Perm l) (renumber : Bool) (mem : Pemalloc) :
    (2 ^ 31 ≤ l.length ∧ ht.zendHashSort sortFunc renumber mem = none) ∨
      ∃ o, ht.zendHashSort sortFunc renumber mem = some o ∧
        (o.table = ht ∨
          (o.table.Valid (sortFunc l) ∧ o.table.nNextFreeElement = ht.nNextFreeElement ∧
            o.table.key = ht.key) ∨
          (renumber = true ∧ l.length < 2 ^ 31 ∧ o.table.Valid (sortFunc l) ∧
            o.table.nNextFreeElement = BitVec.ofNat 64 l.length ∧
            (sortFunc l).map o.table.key =
              (range' 0 l.length).map fun j => HashKey.index (BitVec.ofNat 64 j))) := by
  unfold HashTable.zendHashSort
  by_cases hsmall : ¬ ht.nNumOfElements > 1 ∧ ¬ (renumber ∧ ht.nNumOfElements > 0)
  · rw [if_pos hsmall]
    exact Or.inr ⟨_, rfl, Or.inl rfl⟩
  rw [if_neg hsmall]
  by_cases hb : mem.buckets = true
  swap
  · rw [if_neg hb]
    exact Or.inr ⟨_, rfl, Or.inl rfl⟩
  rw [if_pos hb, hv.listFrom_eq]
  dsimp only
  by_cases hlong : 2 ^ 31 ≤ l.length
  · rw [if_pos hlong]
    exact Or.inl ⟨hlong, rfl⟩
  rw [if_neg hlong]
  have hnd : (sortFunc l).Nodup := hsort.nodup_iff.mpr hv.list.nodup
  obtain ⟨pListNext, pListLast, he, hlink, -⟩ := relink_eq (sortFunc l) hnd ht none
  have hv1 := hv.reorder hsort hlink
  rw [he]
  cases renumber with
  | false => exact Or.inr ⟨_, rfl, Or.inr (Or.inl ⟨hv1, rfl, rfl⟩)⟩
  | true =>
    refine Or.inr ?_
    rw [if_pos rfl]
    obtain ⟨nKeyLength, h, hre, hmap, -⟩ := renumberFrom_eq (sortFunc l) hnd
      { ht with
        pListNext := pListNext
        pListLast := pListLast
        pListHead := (sortFunc l).head?
        pInternalPointer := (sortFunc l).head?
        pListTail := (sortFunc l).getLast? } 0
    obtain ⟨arBuckets, pNext, pLast, hrh, hc⟩ := zendHashRehash_eq
      { ht with
        pListNext := pListNext
        pListLast := pListLast
        pListHead := (sortFunc l).head?
        pInternalPointer := (sortFunc l).head?
        pListTail := (sortFunc l).getLast?
        nKeyLength := nKeyLength
        h := h
        nNextFreeElement := BitVec.ofNat 64 (sortFunc l).length } hv1.list hv1.live hv1.index_lt
    have hk0 : ∀ p ∈ sortFunc l, nKeyLength p = 0 := by
      intro p hp
      have hm : (nKeyLength p, h p) ∈ (sortFunc l).map fun p => (nKeyLength p, h p) :=
        mem_map_of_mem hp
      rw [hmap] at hm
      obtain ⟨j, -, hj⟩ := mem_map.mp hm
      exact (congrArg Prod.fst hj).symm
    have hkeys : (sortFunc l).map (fun p => HashKey.index (h p)) =
        (range' 0 l.length).map fun j => HashKey.index (BitVec.ofNat 64 j) := by
      have hm := congrArg (map fun x : Nat × BitVec 64 => HashKey.index x.2) hmap
      rw [hsort.length_eq] at hm
      simpa [Function.comp_def] using hm
    rw [hre]
    refine ⟨_, congrArg (Option.map _) hrh, Or.inr (Or.inr ⟨rfl, by omega, ?_, ?_, ?_⟩)⟩
    · refine ⟨hv1.size, hv1.mask, hv1.list, hv1.live, hc, hv1.cursor, hv1.count, ?_, ?_⟩
      · intro p hp h0
        exact (h0 (hk0 p hp)).elim
      · rw [map_congr_left (g := fun p => HashKey.index (h p)) fun p hp => by
          simp only [key, hk0 p hp, if_true], hkeys]
        exact nodup_index_range (by omega)
    · change BitVec.ofNat 64 (sortFunc l).length = _
      rw [hsort.length_eq]
    · rw [← hkeys]
      exact map_congr_left fun p hp => by simp only [key, hk0 p hp, if_true]

end HashTable

end Php53.Zend
