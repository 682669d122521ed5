import Php53.Zend.Hash.Operations

/-!
# Compare — `zend_hash_compare`

The comparison works on two tables of a heap, since the recursion guard counts visits in the tables
themselves and the two may be the same one.  The comparison function runs in between and sees those
counters.  With an exact difference of the integer keys the ordered comparison would decide
equality of the two key sequences; with the difference cut to an `int` it decides `SameInt`.
-/

open Reasoning

namespace Php53.Zend

/-- The address of a `HashTable`. -/
abbrev TablePtr := Nat

abbrev Tables (α : Type) := TablePtr → HashTable α

/-- Why a comparison does not return. -/
inductive Abort where
  /-- `zend_error(E_ERROR, "Nesting level too deep - recursive dependency?")` -/
  | nestingLevel
  /-- The bound on the number of steps was too small. -/
  | steps
deriving DecidableEq, Repr

/-- A `long` assigned to an `int`. -/
def intOfLong (x : BitVec 64) : Int := (x.setWidth 32).toInt

/-- The difference of two `uint`s assigned to an `int`. -/
def uintDiff (m n : Nat) : Int := (BitVec.ofNat 32 m - BitVec.ofNat 32 n).toInt

/-- `memcmp(s, t, n)` -/
def memcmp : List UInt8 → List UInt8 → Nat → Int
  | a :: s, b :: t, n + 1 => if a = b then memcmp s t n else a.toNat - b.toNat
  | _, _, _ => 0

section

variable {α : Type}

variable {l1 l2 : List BucketPtr} {ht1 ht2 : TablePtr} {tables : Tables α} {cmp : α → α → Int}

def HashTable.setApplyCount (ht : HashTable α) (n : Nat) : HashTable α :=
  { ht with nApplyCount := n }

@[simp] theorem HashTable.bApplyProtection_setApplyCount (ht : HashTable α) (n : Nat) :
    (ht.setApplyCount n).bApplyProtection = ht.bApplyProtection := rfl

@[simp] theorem HashTable.nApplyCount_setApplyCount (ht : HashTable α) (n : Nat) :
    (ht.setApplyCount n).nApplyCount = n := rfl

@[simp] theorem HashTable.setApplyCount_setApplyCount (ht : HashTable α) (m n : Nat) :
    (ht.setApplyCount m).setApplyCount n = ht.setApplyCount n := rfl

@[simp] theorem HashTable.setApplyCount_self (ht : HashTable α) :
    ht.setApplyCount ht.nApplyCount = ht := rfl

def protectRecursion (tables : Tables α) (ht : TablePtr) : Except Abort (Tables α) :=
  if (tables ht).bApplyProtection then
    if (tables ht).nApplyCount ≥ 3 then .error .nestingLevel
    else .ok (Function.update tables ht
      ((tables ht).setApplyCount ((tables ht).nApplyCount + 1)))
  else .ok tables

/-- `HASH_UNPROTECT_RECURSION`; the counter is an `unsigned char`. -/
def unprotectRecursion (tables : Tables α) (ht : TablePtr) : Tables α :=
  if (tables ht).bApplyProtection then
    Function.update tables ht ((tables ht).setApplyCount
      (if (tables ht).nApplyCount = 0 then 255 else (tables ht).nApplyCount - 1))
  else tables

def compareKeys (ht1 : HashTable α) (p1 : BucketPtr) (ht2 : HashTable α) (p2 : BucketPtr) : Int :=
  if ht1.nKeyLength p1 = 0 ∧ ht2.nKeyLength p2 = 0 then intOfLong (ht1.h p1 - ht2.h p2)
  else
    let result := uintDiff (ht1.nKeyLength p1) (ht2.nKeyLength p2)
    if result ≠ 0 then result else memcmp (ht1.arKey p1) (ht2.arKey p2) (ht1.nKeyLength p1)

/-- The part of the loop body that finds the partner of `p1`: a result to return, or `pData2`. -/
def comparePartner (ordered : Bool) (ht1 : HashTable α) (p1 : BucketPtr) (ht2 : HashTable α)
    (p2 : Option BucketPtr) : Except Abort (Int ⊕ α) :=
  if ordered then
    match p2 with
    | none => .ok (.inl 1)
    | some p2 =>
      let result := compareKeys ht1 p1 ht2 p2
      if result ≠ 0 then .ok (.inl result) else .ok (.inr (ht2.pData p2))
  else
    let found :=
      if ht1.nKeyLength p1 = 0 then ht2.zendHashIndexFind (ht1.h p1)
      else ht2.zendHashQuickFind (ht1.arKey p1) (ht1.h p1)
    match found with
    | none => .error .steps
    | some none => .ok (.inl 1)
    | some (some p) => .ok (.inr (ht2.pData p))

abbrev CompareFunc (α : Type) := Tables α → α → α → Except Abort (Int × Tables α)

/-- The loop of `zend_hash_compare`. -/
def compareLoop (compar : CompareFunc α) (ordered : Bool) (ht1 ht2 : TablePtr) :
    Nat → Option BucketPtr → Option BucketPtr → Tables α → Except Abort (Int × Tables α)
  | _, none, _, tables => .ok (0, tables)
  | 0, some _, _, _ => .error .steps
  | n + 1, some p1, p2, tables =>
    match comparePartner ordered (tables ht1) p1 (tables ht2) p2 with
    | .error e => .error e
    | .ok (.inl result) => .ok (result, tables)
    | .ok (.inr pData2) =>
      match compar tables ((tables ht1).pData p1) pData2 with
      | .error e => .error e
      | .ok (result, tables) =>
        if result ≠ 0 then .ok (result, tables)
        else
          compareLoop compar ordered ht1 ht2 n ((tables ht1).pListNext p1)
            (if ordered then p2.bind (tables ht2).pListNext else p2) tables

/-- What `zend_hash_compare` does between protecting and unprotecting the tables. -/
def compareProtected (compar : CompareFunc α) (tables : Tables α) (ht1 ht2 : TablePtr)
    (ordered : Bool) : Except Abort (Int × Tables α) :=
  let result := uintDiff (tables ht1).nNumOfElements (tables ht2).nNumOfElements
  if result ≠ 0 then .ok (result, tables)
  else
    compareLoop compar ordered ht1 ht2 (tables ht1).live.length (tables ht1).pListHead
      (if ordered then (tables ht2).pListHead else none) tables

/-- `zend_hash_compare`; every return path unprotects both tables. -/
def zendHashCompare (compar : CompareFunc α) (tables : Tables α) (ht1 ht2 : TablePtr)
    (ordered : Bool) : Except Abort (Int × Tables α) := do
  let tables ← protectRecursion tables ht1
  let tables ← protectRecursion tables ht2
  let (result, tables) ← compareProtected compar tables ht1 ht2 ordered
  return (result, unprotectRecursion (unprotectRecursion tables ht1) ht2)

/-- What the comparison of two keys decides: integer keys only count modulo `2 ^ 32`. -/
def HashKey.SameInt : HashKey → HashKey → Prop
  | .index h1, .index h2 => h1.setWidth 32 = h2.setWidth 32
  | .str s1, .str s2 => s1 = s2
  | _, _ => False

theorem HashKey.SameInt.refl (k : HashKey) : k.SameInt k := by
  cases k <;> rfl

theorem intOfLong_sub_eq_zero {h1 h2 : BitVec 64} :
    intOfLong (h1 - h2) = 0 ↔ h1.setWidth 32 = h2.setWidth 32 := by
  have hzero : (0 : BitVec 32).toInt = 0 := rfl
  rw [intOfLong, ← hzero, BitVec.toInt_inj]
  constructor
  · intro h
    bv_omega
  · intro h
    bv_omega

theorem uintDiff_eq_zero {m n : Nat} (hm : m < uintModulus) (hn : n < uintModulus) :
    uintDiff m n = 0 ↔ m = n := by
  have hzero : (0 : BitVec 32).toInt = 0 := rfl
  rw [uintDiff, ← hzero, BitVec.toInt_inj]
  unfold uintModulus at hm hn
  rw [BitVec.sub_eq_iff_eq_add]
  change BitVec.ofNat 32 m = 0#32 + BitVec.ofNat 32 n ↔ m = n
  rw [BitVec.zero_add]
  constructor
  · intro h
    have h := congrArg BitVec.toNat h
    rwa [BitVec.toNat_ofNat, BitVec.toNat_ofNat, Nat.mod_eq_of_lt hm, Nat.mod_eq_of_lt hn] at h
  · rintro rfl
    rfl

theorem memcmp_eq_zero {s t : List UInt8} (h : s.length = t.length) :
    memcmp s t s.length = 0 ↔ s = t := by
  induction s generalizing t with
  | nil =>
    obtain rfl := List.length_eq_zero_iff.mp h.symm
    simp [memcmp]
  | cons a s ih =>
    cases t with
    | nil => simp at h
    | cons b t =>
      rw [List.length_cons, memcmp]
      by_cases hab : a = b
      · rw [if_pos hab, ih (by simpa using h), hab]
        simp
      · rw [if_neg hab]
        have hne : a.toNat ≠ b.toNat := fun he => hab (UInt8.toNat_inj.mp he)
        constructor
        · intro he
          omega
        · intro he
          exact (hab (List.cons.inj he).1).elim

/-- A valid table whose `uint`s hold what they stand for: the count of the elements has not
overflowed, and key lengths are `uint`s. -/
structure HashTable.Exact (ht : HashTable α) (l : List BucketPtr) : Prop extends ht.Valid l where
  numOfElements : ht.nNumOfElements = l.length
  keyLength : ∀ p ∈ l, ht.nKeyLength p < uintModulus

theorem compareKeys_eq_zero {ht1 ht2 : HashTable α} (h1 : ht1.Exact l1) (h2 : ht2.Exact l2)
    {p1 p2 : BucketPtr} (hp1 : p1 ∈ l1) (hp2 : p2 ∈ l2) :
    compareKeys ht1 p1 ht2 p2 = 0 ↔ (ht1.key p1).SameInt (ht2.key p2) := by
  unfold compareKeys HashTable.key
  have hlen := uintDiff_eq_zero (h1.keyLength p1 hp1) (h2.keyLength p2 hp2)
  by_cases hz1 : ht1.nKeyLength p1 = 0 <;> by_cases hz2 : ht2.nKeyLength p2 = 0
  · simp [hz1, hz2, HashKey.SameInt, intOfLong_sub_eq_zero]
  · -- an integer key against a string key: the lengths already differ
    have hne : uintDiff (ht1.nKeyLength p1) (ht2.nKeyLength p2) ≠ 0 := by
      rw [Ne, hlen]
      omega
    rw [if_neg (fun h => hz2 h.2)]
    simp only [hz1, if_true, hz2, if_false, HashKey.SameInt, iff_false]
    rw [hz1] at hne
    rwa [if_pos hne]
  · have hne : uintDiff (ht1.nKeyLength p1) (ht2.nKeyLength p2) ≠ 0 := by
      rw [Ne, hlen]
      omega
    rw [if_neg (fun h => hz1 h.1)]
    simp only [hz2, if_true, hz1, if_false, HashKey.SameInt, iff_false]
    rw [hz2] at hne
    rwa [if_pos hne]
  · rw [if_neg (fun h => hz1 h.1)]
    obtain ⟨-, hl1⟩ := h1.hash p1 hp1 hz1
    obtain ⟨-, hl2⟩ := h2.hash p2 hp2 hz2
    simp only [hz1, hz2, if_false, HashKey.SameInt]
    by_cases hd : uintDiff (ht1.nKeyLength p1) (ht2.nKeyLength p2) = 0
    · simp only [hd, ne_eq, not_true_eq_false, if_false]
      rw [← hl1]
      exact memcmp_eq_zero (by rw [hl1, hl2, hlen.mp hd])
    · simp only [hd, ne_eq, not_false_eq_true, if_true, false_iff]
      intro he
      exact hd (hlen.mpr (by rw [← hl1, ← hl2, he]))

/-- A call on `ht1` and `ht2` runs into the recursion guard. -/
def GuardTrips (tables : Tables α) (ht1 ht2 : TablePtr) : Prop :=
  ((tables ht1).bApplyProtection = true ∧ (tables ht1).nApplyCount ≥ 3) ∨
    ((tables ht2).bApplyProtection = true ∧
      (tables ht2).nApplyCount + (if ht1 = ht2 then 1 else 0) ≥ 3)

instance (tables : Tables α) (ht1 ht2 : TablePtr) : Decidable (GuardTrips tables ht1 ht2) :=
  inferInstanceAs (Decidable (_ ∨ _))

/-- One more visit of `ht`. -/
def visit (tables : Tables α) (ht : TablePtr) : Tables α :=
  if (tables ht).bApplyProtection then
    Function.update tables ht ((tables ht).setApplyCount ((tables ht).nApplyCount + 1))
  else tables

theorem visit_self (tables : Tables α) (ht : TablePtr) :
    visit tables ht ht = (tables ht).setApplyCount
      (if (tables ht).bApplyProtection then (tables ht).nApplyCount + 1
        else (tables ht).nApplyCount) := by
  unfold visit
  split
  · exact Function.update_self ..
  · rfl

theorem visit_of_ne (tables : Tables α) {ht t : TablePtr} (h : t ≠ ht) :
    visit tables ht t = tables t := by
  unfold visit
  split
  · exact Function.update_of_ne h ..
  · rfl

theorem visit_comm (tables : Tables α) (ht1 ht2 : TablePtr) :
    visit (visit tables ht1) ht2 = visit (visit tables ht2) ht1 := by
  by_cases h : ht1 = ht2
  · rw [h]
  · funext t
    by_cases h1 : t = ht1
    · subst h1
      rw [visit_of_ne _ h, visit_self, visit_self, visit_of_ne _ h]
    · by_cases h2 : t = ht2
      · subst h2
        rw [visit_self, visit_of_ne _ h1, visit_of_ne _ h1, visit_self]
      · rw [visit_of_ne _ h2, visit_of_ne _ h1, visit_of_ne _ h1, visit_of_ne _ h2]

theorem unprotectRecursion_visit (tables : Tables α) (ht : TablePtr) :
    unprotectRecursion (visit tables ht) ht = tables := by
  unfold unprotectRecursion
  rw [visit_self]
  rw [HashTable.bApplyProtection_setApplyCount]
  by_cases hb : (tables ht).bApplyProtection = true
  · rw [if_pos hb, visit, if_pos hb, Function.update_idem]
    simp [hb]
  · rw [if_neg hb, visit, if_neg hb]

theorem unprotect_visit_visit (tables : Tables α) (ht1 ht2 : TablePtr) :
    unprotectRecursion (unprotectRecursion (visit (visit tables ht1) ht2) ht1) ht2 = tables := by
  rw [visit_comm, unprotectRecursion_visit, unprotectRecursion_visit]

theorem protectRecursion_eq (tables : Tables α) (ht : TablePtr) :
    protectRecursion tables ht =
      if (tables ht).bApplyProtection = true ∧ (tables ht).nApplyCount ≥ 3 then
        .error .nestingLevel
      else .ok (visit tables ht) := by
  unfold protectRecursion visit
  by_cases hb : (tables ht).bApplyProtection = true
  · simp only [hb, if_true, true_and]
  · rw [if_neg hb, if_neg hb, if_neg (fun h => hb h.1)]

theorem protect_both (tables : Tables α) (ht1 ht2 : TablePtr) :
    (protectRecursion tables ht1 >>= fun tables => protectRecursion tables ht2) =
      if GuardTrips tables ht1 ht2 then .error .nestingLevel
      else .ok (visit (visit tables ht1) ht2) := by
  rw [protectRecursion_eq]
  by_cases h1 : (tables ht1).bApplyProtection = true ∧ (tables ht1).nApplyCount ≥ 3
  · rw [if_pos h1, if_pos (show GuardTrips tables ht1 ht2 from Or.inl h1)]
    rfl
  · rw [if_neg h1]
    change protectRecursion (visit tables ht1) ht2 = _
    rw [protectRecursion_eq]
    refine if_congr ?_ rfl rfl
    rw [GuardTrips, or_iff_right h1]
    by_cases h : ht1 = ht2
    · subst h
      rw [visit_self, if_pos rfl, HashTable.bApplyProtection_setApplyCount]
      refine and_congr_right fun hb => ?_
      rw [HashTable.nApplyCount_setApplyCount, if_pos hb]
    · rw [visit_of_ne _ (Ne.symm h), if_neg h]
      exact Iff.rfl

/-- What the comparison decides about the two buckets at one position, `R` being what the
comparison function decides about their payloads. -/
def MatchesAt (ht1 ht2 : HashTable α) (R : α → α → Prop) (p1 p2 : BucketPtr) : Prop :=
  (ht1.key p1).SameInt (ht2.key p2) ∧ R (ht1.pData p1) (ht2.pData p2)

/-- Whenever the comparison function returns, the tables are as before and the result says whether
`R` holds. -/
def Decides (compar : CompareFunc α) (tables : Tables α) (R : α → α → Prop) : Prop :=
  ∀ a b r t, compar tables a b = .ok (r, t) → t = tables ∧ (r = 0 ↔ R a b)

theorem compareLoop_ordered {compar : CompareFunc α} {R : α → α → Prop} (h1 : (tables ht1).Exact l1)
    (h2 : (tables ht2).Exact l2) (hc : Decides compar tables R) {b1 b2 : List BucketPtr}
    (hb1 : ∀ p ∈ b1, p ∈ l1) (hb2 : ∀ p ∈ b2, p ∈ l2) (hlen : b1.length = b2.length) {n : Nat}
    (hn : b1.length ≤ n) {p1 p2 : Option BucketPtr} (hw1 : Walk (tables ht1).pListNext p1 b1)
    (hw2 : Walk (tables ht2).pListNext p2 b2) :
    (∃ r, compareLoop compar true ht1 ht2 n p1 p2 tables = .ok (r, tables) ∧
        (r = 0 ↔ List.Forall₂ (MatchesAt (tables ht1) (tables ht2) R) b1 b2)) ∨
      ∃ a b e, compar tables a b = .error e ∧
        compareLoop compar true ht1 ht2 n p1 p2 tables = .error e := by
  induction b1 generalizing b2 n p1 p2 with
  | nil =>
    obtain rfl := List.length_eq_zero_iff.mp hlen.symm
    obtain rfl : p1 = none := hw1
    refine Or.inl ⟨0, ?_, by simp⟩
    cases n <;> rfl
  | cons x b1 ih =>
    obtain ⟨y, b2, rfl⟩ : ∃ y b, b2 = y :: b := List.exists_cons_of_length_pos (by
      rw [← hlen]
      exact Nat.succ_pos _)
    obtain ⟨rfl, hw1⟩ := hw1
    obtain ⟨rfl, hw2⟩ := hw2
    obtain ⟨m, rfl⟩ : ∃ m, n = m + 1 := ⟨n - 1, by simp at hn; omega⟩
    have hkey := compareKeys_eq_zero h1 h2 (hb1 x (by simp)) (hb2 y (by simp))
    rw [compareLoop, comparePartner, if_pos rfl, List.forall₂_cons]
    dsimp only
    by_cases hk : compareKeys (tables ht1) x (tables ht2) y = 0
    swap
    · -- the keys differ: the loop returns their difference
      rw [if_pos hk]
      refine Or.inl ⟨_, rfl, ?_⟩
      constructor
      · exact fun he => (hk he).elim
      · exact fun hm => hkey.mpr hm.1.1
    rw [if_neg (not_not.mpr hk)]
    dsimp only
    cases hcmp : compar tables ((tables ht1).pData x) ((tables ht2).pData y) with
    | error e => exact Or.inr ⟨_, _, e, hcmp, rfl⟩
    | ok rt =>
      obtain ⟨r, t⟩ := rt
      obtain ⟨rfl, hR⟩ := hc _ _ _ _ hcmp
      dsimp only
      by_cases hr : r = 0
      swap
      · rw [if_pos hr]
        refine Or.inl ⟨r, rfl, ?_⟩
        constructor
        · exact fun he => (hr he).elim
        · exact fun hm => hR.mpr hm.1.2
      have hm : MatchesAt (t ht1) (t ht2) R x y := ⟨hkey.mp hk, hR.mp hr⟩
      rw [if_neg (not_not.mpr hr), and_iff_right hm]
      exact ih (fun p hp => hb1 p (by simp [hp])) (fun p hp => hb2 p (by simp [hp]))
        (by simpa using hlen) (by simpa using hn) hw1 hw2

theorem HashTable.listFrom_setApplyCount (ht : HashTable α) (m n : Nat) (p : Option BucketPtr) :
    (ht.setApplyCount m).listFrom n p = ht.listFrom n p := by
  induction n generalizing p with
  | zero => cases p <;> rfl
  | succ n ih =>
    cases p with
    | none => rfl
    | some p => exact congrArg (Option.map (p :: ·)) (ih (ht.pListNext p))

@[simp] theorem HashTable.buckets_setApplyCount (ht : HashTable α) (n : Nat) :
    (ht.setApplyCount n).buckets = ht.buckets :=
  congrArg (·.getD []) (ht.listFrom_setApplyCount n _ _)

theorem HashTable.Exact.setApplyCount {ht : HashTable α} {l : List BucketPtr} (h : ht.Exact l)
    (n : Nat) : (ht.setApplyCount n).Exact l :=
  ⟨⟨h.size, h.mask, h.list, h.live, h.chains, h.cursor, h.count, h.hash, h.keys⟩,
    h.numOfElements, h.keyLength⟩

theorem HashTable.Exact.numOfElements_lt {ht : HashTable α} {l : List BucketPtr}
    (h : ht.Exact l) : ht.nNumOfElements < uintModulus := by
  rw [h.count]
  exact Nat.mod_lt _ (by decide)

theorem visit_eq_setApplyCount (tables : Tables α) (ht t : TablePtr) :
    ∃ n, visit tables ht t = (tables t).setApplyCount n := by
  by_cases h : t = ht
  · subst h
    exact ⟨_, visit_self ..⟩
  · exact ⟨(tables t).nApplyCount, visit_of_ne _ h⟩

theorem visit_visit_eq_setApplyCount (tables : Tables α) (ht1 ht2 t : TablePtr) :
    ∃ n, visit (visit tables ht1) ht2 t = (tables t).setApplyCount n := by
  obtain ⟨m, hm⟩ := visit_eq_setApplyCount tables ht1 t
  obtain ⟨n, hn⟩ := visit_eq_setApplyCount (visit tables ht1) ht2 t
  exact ⟨n, by rw [hn, hm, HashTable.setApplyCount_setApplyCount]⟩

theorem HashTable.Exact.uintDiff_iff {a b : HashTable α} (ha : a.Exact l1) (hb : b.Exact l2) :
    uintDiff a.nNumOfElements b.nNumOfElements = 0 ↔ l1.length = l2.length := by
  rw [uintDiff_eq_zero ha.numOfElements_lt hb.numOfElements_lt, ha.numOfElements, hb.numOfElements]

theorem zendHashCompare_ordered {compar : CompareFunc α} {R : α → α → Prop}
    (h1 : (tables ht1).Exact l1) (h2 : (tables ht2).Exact l2)
    (hc : Decides compar (visit (visit tables ht1) ht2) R) :
    (GuardTrips tables ht1 ht2 ∧
        zendHashCompare compar tables ht1 ht2 true = .error .nestingLevel) ∨
      ¬ GuardTrips tables ht1 ht2 ∧
        ((∃ r, zendHashCompare compar tables ht1 ht2 true = .ok (r, tables) ∧
            (r = 0 ↔ List.Forall₂ (MatchesAt (tables ht1) (tables ht2) R) l1 l2)) ∨
          ∃ a b e, compar (visit (visit tables ht1) ht2) a b = .error e ∧
            zendHashCompare compar tables ht1 ht2 true = .error e) := by
  have hprot := protect_both tables ht1 ht2
  obtain ⟨n1, hn1⟩ := visit_visit_eq_setApplyCount tables ht1 ht2 ht1
  obtain ⟨n2, hn2⟩ := visit_visit_eq_setApplyCount tables ht1 ht2 ht2
  have hrestore := unprotect_visit_visit tables ht1 ht2
  generalize visit (visit tables ht1) ht2 = T at *
  have h1' : (T ht1).Exact l1 := hn1 ▸ h1.setApplyCount n1
  have h2' : (T ht2).Exact l2 := hn2 ▸ h2.setApplyCount n2
  -- the call once both tables are protected
  have hrun : zendHashCompare compar tables ht1 ht2 true =
      (protectRecursion tables ht1 >>= fun tables => protectRecursion tables ht2) >>= fun T =>
        compareProtected compar T ht1 ht2 true >>= fun x =>
          .ok (x.1, unprotectRecursion (unprotectRecursion x.2 ht1) ht2) := by
    rw [bind_assoc]
    rfl
  rw [hprot] at hrun
  by_cases hg : GuardTrips tables ht1 ht2
  · rw [if_pos hg] at hrun
    exact Or.inl ⟨hg, hrun⟩
  rw [if_neg hg] at hrun
  change zendHashCompare compar tables ht1 ht2 true =
    (compareProtected compar T ht1 ht2 true >>= _) at hrun
  refine Or.inr ⟨hg, ?_⟩
  have hcount := h1'.uintDiff_iff h2'
  by_cases hd : uintDiff (T ht1).nNumOfElements (T ht2).nNumOfElements = 0
  swap
  · rw [compareProtected, if_pos hd] at hrun
    refine Or.inl ⟨_, hrun.trans (congrArg (fun t => Except.ok (_, t)) hrestore), ?_⟩
    constructor
    · exact fun he => (hd he).elim
    · exact fun hm => hcount.mpr hm.length_eq
  rw [compareProtected, if_neg (not_not.mpr hd), if_pos rfl] at hrun
  have hloop := compareLoop_ordered h1' h2' hc (fun _ hp => hp) (fun _ hp => hp) (hcount.mp hd)
    (h1'.live.length_eq.ge) (h1'.list.head_eq ▸ h1'.list.linked.walk)
    (h2'.list.head_eq ▸ h2'.list.linked.walk)
  rcases hloop with ⟨r, hr, hiff⟩ | ⟨a, b, e, hab, he⟩
  · rw [hr] at hrun
    refine Or.inl ⟨r, hrun.trans (congrArg (fun t => Except.ok (_, t)) hrestore), ?_⟩
    rw [hiff, hn1, hn2]
    exact Iff.rfl
  · rw [he] at hrun
    exact Or.inr ⟨a, b, e, hab, hrun⟩

/-- The two tables have the same keys and `cmp` calls the payloads at each position equal. -/
def SameSequence (cmp : α → α → Int) (ht1 ht2 : HashTable α) : Prop :=
  ht1.listKeys = ht2.listKeys ∧
    List.Forall₂ (fun p1 p2 => cmp (ht1.pData p1) (ht2.pData p2) = 0) ht1.buckets ht2.buckets

/-- The two tables differ in integer keys only, and there by multiples of `2 ^ 32`. -/
def KeysWrap (cmp : α → α → Int) (ht1 ht2 : HashTable α) : Prop :=
  ht1.listKeys ≠ ht2.listKeys ∧
    List.Forall₂ (fun p1 p2 => (ht1.key p1).SameInt (ht2.key p2) ∧
      cmp (ht1.pData p1) (ht2.pData p2) = 0) ht1.buckets ht2.buckets

theorem forall₂_sameInt_of_eq {ht1 ht2 : HashTable α} {R : BucketPtr → BucketPtr → Prop}
    (hv : List.Forall₂ R l1 l2) (hk : l1.map ht1.key = l2.map ht2.key) :
    List.Forall₂ (fun p1 p2 => (ht1.key p1).SameInt (ht2.key p2) ∧ R p1 p2) l1 l2 := by
  induction hv with
  | nil => exact .nil
  | cons hR _ ih =>
    simp only [List.map_cons, List.cons.injEq] at hk
    exact .cons ⟨hk.1 ▸ HashKey.SameInt.refl _, hR⟩ (ih hk.2)

theorem zendHashCompare_pure (h1 : (tables ht1).Exact l1) (h2 : (tables ht2).Exact l2) :
    (∃ t, zendHashCompare (fun t a b => .ok (cmp a b, t)) tables ht1 ht2 true = .ok (0, t)) ↔
      ¬ GuardTrips tables ht1 ht2 ∧
        List.Forall₂ (MatchesAt (tables ht1) (tables ht2) fun a b => cmp a b = 0) l1 l2 := by
  have hc : Decides (fun t a b => .ok (cmp a b, t)) (visit (visit tables ht1) ht2)
      fun a b => cmp a b = 0 := by
    intro a b r t h
    obtain ⟨rfl, rfl⟩ := Prod.mk.inj (Except.ok.inj h)
    exact ⟨rfl, Iff.rfl⟩
  rcases zendHashCompare_ordered h1 h2 hc with ⟨hg, he⟩ | ⟨hg, ⟨r, he, hr⟩ | ⟨a, b, e, hab, -⟩⟩
  · rw [he]
    constructor
    · exact fun ⟨t, ht⟩ => nomatch ht
    · exact fun h => (h.1 hg).elim
  · rw [he, and_iff_right hg, ← hr]
    constructor
    · rintro ⟨t, ht⟩
      exact (Prod.mk.inj (Except.ok.inj ht)).1
    · rintro rfl
      exact ⟨tables, rfl⟩
  · exact nomatch hab

theorem forall₂_matchesAt_iff {ht1 ht2 : HashTable α} (h1 : ht1.Exact l1) (h2 : ht2.Exact l2) :
    List.Forall₂ (MatchesAt ht1 ht2 fun a b => cmp a b = 0) l1 l2 ↔
      SameSequence cmp ht1 ht2 ∨ KeysWrap cmp ht1 ht2 := by
  rw [SameSequence, KeysWrap, h1.buckets_eq, h2.buckets_eq, h1.listKeys_eq, h2.listKeys_eq]
  constructor
  · intro h
    by_cases hk : l1.map ht1.key = l2.map ht2.key
    · exact Or.inl ⟨hk, h.imp fun _ _ hm => hm.2⟩
    · exact Or.inr ⟨hk, h⟩
  · rintro (⟨hk, hv⟩ | ⟨-, h⟩)
    · exact forall₂_sameInt_of_eq hv hk
    · exact h

/-- Exactly when the ordered comparison returns `0` for tables with the same keys and values only:
the guard does not stop it on such tables, and it does not meet integer keys that differ by a
multiple of `2 ^ 32`. -/
theorem zendHashCompare_sameSequence_iff (h1 : (tables ht1).Exact l1) (h2 : (tables ht2).Exact l2) :
    ((∃ t, zendHashCompare (fun t a b => .ok (cmp a b, t)) tables ht1 ht2 true = .ok (0, t)) ↔
        SameSequence cmp (tables ht1) (tables ht2)) ↔
      ¬ (GuardTrips tables ht1 ht2 ∧ SameSequence cmp (tables ht1) (tables ht2)) ∧
        ¬ (¬ GuardTrips tables ht1 ht2 ∧ KeysWrap cmp (tables ht1) (tables ht2)) := by
  rw [zendHashCompare_pure h1 h2, forall₂_matchesAt_iff h1 h2]
  have hexcl : ¬ (SameSequence cmp (tables ht1) (tables ht2) ∧
      KeysWrap cmp (tables ht1) (tables ht2)) := fun h => h.2.1 h.1.1
  tauto

end

end Php53.Zend
