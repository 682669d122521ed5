import Php53.Zend.Hash.Operations

/-!
# Copy — `zend_hash_copy`

Every table has addresses of its own, so a bucket of the copy may have the address of the one that
it is copied from.  `emalloc` does not fail.
-/

open Reasoning

namespace Php53.Zend

/-- What `emalloc` answers where a bucket goes to `p`. -/
def Pemalloc.grant (p : BucketPtr) : Pemalloc := ⟨some p, true, true⟩

namespace HashTable

variable {α : Type}

/-- One round of the loop, without the copy constructor. -/
def copyBucket (source : HashTable α) (setTargetPointer : Bool) (target : HashTable α)
    (p : BucketPtr) : Option (HashTable α) :=
  let target :=
    if setTargetPointer ∧ source.pInternalPointer = some p then
      { target with pInternalPointer := none }
    else target
  let outcome :=
    if source.nKeyLength p ≠ 0 then
      target.zendHashQuickAddOrUpdate (source.arKey p) (source.h p) (source.pData p) sizeofVoidPtr
        hashUpdate (.grant p)
    else
      target.zendHashIndexUpdateOrNextInsert (source.h p) (source.pData p) sizeofVoidPtr hashUpdate
        (.grant p)
  outcome.map Outcome.table

def copyLoop (source : HashTable α) (setTargetPointer : Bool) :
    List BucketPtr → HashTable α → Option (HashTable α)
  | [], target => some target
  | p :: ps, target =>
    (copyBucket source setTargetPointer target p).bind (copyLoop source setTargetPointer ps)

def zendHashCopy (target source : HashTable α) : Option (HashTable α) :=
  (source.listFrom source.live.length source.pListHead).bind fun l =>
    (copyLoop source target.pInternalPointer.isNone l target).map fun target =>
      if target.pInternalPointer = none then { target with pInternalPointer := target.pListHead }
      else target

def SameAt (ht ht' : HashTable α) (p : BucketPtr) : Prop :=
  ht'.key p = ht.key p ∧ ht'.pData p = ht.pData p

theorem pData_insertBucket_self (ht : HashTable α) (p : BucketPtr) (arKey : List UInt8)
    (h : BitVec 64) (pData : α) : (ht.insertBucket p arKey h pData).pData p = pData := by
  simp [insertBucket]

theorem pData_insertBucket_of_ne (ht : HashTable α) {p q : BucketPtr} (arKey : List UInt8)
    (h : BitVec 64) (pData : α) (hq : q ≠ p) :
    (ht.insertBucket p arKey h pData).pData q = ht.pData q := by
  simp [insertBucket, hq]

theorem Valid.copyBucket_eq {source target : HashTable α} {l : List BucketPtr}
    (hv : target.Valid l) (setTargetPointer : Bool) {p : BucketPtr} (hp : p ∉ l)
    (hok : source.HashOk p) (hkey : source.key p ∉ l.map target.key) :
    ∃ t, copyBucket source setTargetPointer target p = some t ∧ t.Valid (l ++ [p]) ∧
      SameAt source t p ∧ ∀ q ∈ l, SameAt target t q := by
  obtain ⟨t₀, ht₀⟩ : ∃ t₀, t₀ = (if setTargetPointer ∧ source.pInternalPointer = some p then
      { target with pInternalPointer := none } else target) := ⟨_, rfl⟩
  have hv₀ : t₀.Valid l := by
    rw [ht₀]
    split
    · exact hv.setInternalPointer (by simp)
    · exact hv
  have hsame : t₀.key = target.key ∧ t₀.pData = target.pData := by
    rw [ht₀]
    split <;> exact ⟨rfl, rfl⟩
  have hfresh : t₀.Fresh (.grant p) := by
    intro q hq hlive
    obtain rfl := Option.some.inj hq
    exact hp (hv₀.live.mem_iff.mp hlive)
  -- both insertions put the same bucket in
  have hinsert : ∀ {t : HashTable α} {arKey : List UInt8},
      HashKey.ofArKey arKey (source.h p) = source.key p →
      t.key = (t₀.insertBucket p arKey (source.h p) (source.pData p)).key →
      t.pData = (t₀.insertBucket p arKey (source.h p) (source.pData p)).pData →
      SameAt source t p ∧ ∀ q ∈ l, SameAt target t q := by
    intro t arKey hof htkey htdata
    constructor
    · exact ⟨by rw [htkey, key_insertBucket_self, hof], by rw [htdata, pData_insertBucket_self]⟩
    · intro q hq
      have hqp : q ≠ p := fun he => hp (he ▸ hq)
      constructor
      · rw [htkey, key_insertBucket_of_ne _ _ _ _ hqp, hsame.1]
      · rw [htdata, pData_insertBucket_of_ne _ _ _ _ hqp, hsame.2]
  rw [← hsame.1] at hkey
  unfold copyBucket
  rw [← ht₀]
  dsimp only
  by_cases hlen : source.nKeyLength p = 0
  · have hof : HashKey.ofArKey [] (source.h p) = source.key p := by
      simp [HashTable.key, hlen, HashKey.ofArKey]
    rw [← hof] at hkey
    have hnew : t₀.lookup l (.index (t₀.insertIndex (source.h p) hashUpdate)) = none :=
      lookup_none.mpr hkey
    obtain ⟨t, heq, hresized, hvalid⟩ := hv₀.indexUpdate_new hnew (source.pData p) sizeofVoidPtr
      hfresh rfl rfl
    rw [if_neg (fun h => h hlen), heq]
    exact ⟨t, rfl, hvalid, hinsert hof hresized.key_eq hresized.pData_eq⟩
  · obtain ⟨hhash, harKey⟩ := hok hlen
    have hne : source.arKey p ≠ [] := by
      intro hempty
      rw [hempty] at harKey
      exact hlen harKey.symm
    have hof : HashKey.ofArKey (source.arKey p) (source.h p) = source.key p := by
      simp [HashTable.key, hlen, HashKey.ofArKey, hne]
    rw [← hof] at hkey
    obtain ⟨t, heq, hresized, hvalid⟩ := hv₀.addOrUpdateHashed_new (fun _ => hhash)
      (lookup_none.mpr hkey) (source.pData p) sizeofVoidPtr hashUpdate hfresh rfl rfl
    have hquick : t₀.zendHashQuickAddOrUpdate (source.arKey p) (source.h p) (source.pData p)
        sizeofVoidPtr hashUpdate (.grant p) =
        some { table := t, result := .success, pDest := some p } := by
      unfold zendHashQuickAddOrUpdate
      rw [if_neg (fun h => hne (List.length_eq_zero_iff.mp h)), heq]
    rw [if_pos hlen, hquick]
    exact ⟨t, rfl, hvalid, hinsert hof hresized.key_eq hresized.pData_eq⟩

theorem Valid.copyLoop_eq {source target : HashTable α} {done rest : List BucketPtr}
    (hsource : source.Valid (done ++ rest)) (hv : target.Valid done)
    (hsame : ∀ p ∈ done, SameAt source target p) (setTargetPointer : Bool) :
    ∃ t, copyLoop source setTargetPointer rest target = some t ∧ t.Valid (done ++ rest) ∧
      ∀ p ∈ done ++ rest, SameAt source t p := by
  induction rest generalizing done target with
  | nil =>
    rw [List.append_nil] at hsource ⊢
    exact ⟨target, rfl, hv, hsame⟩
  | cons p rest ih =>
    have hsplit : done ++ p :: rest = (done ++ [p]) ++ rest := by simp
    have hnodup := hsource.list.nodup
    have hkeys := hsource.keys
    have hp : p ∉ done := by
      intro hmem
      rw [List.nodup_append] at hnodup
      exact hnodup.2.2 p hmem p List.mem_cons_self rfl
    have hkey : source.key p ∉ done.map target.key := by
      intro hmem
      obtain ⟨q, hq, hqp⟩ := List.mem_map.mp hmem
      rw [List.map_append, List.nodup_append] at hkeys
      refine hkeys.2.2 (source.key q) (List.mem_map_of_mem hq) (source.key p)
        (List.mem_map_of_mem List.mem_cons_self) ?_
      rw [← (hsame q hq).1, hqp]
    obtain ⟨t, heq, hvalid, hself, hothers⟩ := hv.copyBucket_eq setTargetPointer hp
      (hsource.hash p (by simp)) hkey
    rw [hsplit] at hsource ⊢
    unfold copyLoop
    rw [heq, Option.bind_some]
    apply ih hsource hvalid
    intro q hq
    rcases List.mem_append.mp hq with hdone | hlast
    · have hkept := hothers q hdone
      have hwas := hsame q hdone
      exact ⟨hkept.1.trans hwas.1, hkept.2.trans hwas.2⟩
    · obtain rfl := List.mem_singleton.mp hlast
      exact hself

theorem Valid.zendHashCopy_eq {source target : HashTable α} {l : List BucketPtr}
    (hsource : source.Valid l) (hv : target.Valid []) :
    ∃ t, zendHashCopy target source = some t ∧ t.Valid l ∧ ∀ p ∈ l, SameAt source t p := by
  have hall : source.Valid ([] ++ l) := hsource
  obtain ⟨t, heq, hvalid, hsame⟩ := Valid.copyLoop_eq hall hv (by simp)
    target.pInternalPointer.isNone
  unfold zendHashCopy
  rw [hsource.listFrom_eq, Option.bind_some, heq, Option.map_some]
  refine ⟨_, rfl, ?_⟩
  split
  · refine ⟨hvalid.setInternalPointer fun p hp => ?_, hsame⟩
    have hhead := hvalid.list.head_eq
    exact List.mem_of_mem_head? (hhead ▸ hp)
  · exact ⟨hvalid, hsame⟩

end HashTable

end Php53.Zend
