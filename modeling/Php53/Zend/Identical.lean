import Mathlib.Algebra.BigOperators.Group.Finset.Basic
import Mathlib.Algebra.Order.BigOperators.Group.Finset
import Php53.Zend.Hash.Compare

/-!
# Identical — `is_identical_function`

`===` on arrays is the ordered comparison of the two tables, with `===` itself as the comparison
function of the elements.  Arrays may contain themselves through references; the recursion then
ends in the recursion guard.
-/

open Reasoning

namespace Php53.Zend

variable {K : HashKey → HashKey → Prop} {zvals : ZvalPtr → ZvalueValue} {tables : Tables ZvalPtr}
  {z1 z2 : ZvalPtr} {n : Nat}

/-- The type and the value of a `zval`. -/
inductive ZvalueValue where
  | null
  | bool (lval : BitVec 64)
  | long (lval : BitVec 64)
  | resource (lval : BitVec 64)
  /-- `dval` holds the bits of the double. -/
  | double (dval : BitVec 64)
  | string (val : List UInt8)
  | array (ht : TablePtr)
  | object (handlers handle : Nat)
  | constant
  | constantArray

def isNaN (d : BitVec 64) : Bool := 0x7ff0000000000000 < (d &&& 0x7fffffffffffffff).toNat

/-- `==` on doubles -/
def doubleEq (d1 d2 : BitVec 64) : Bool :=
  !isNaN d1 && !isNaN d2 &&
    (d1 == d2 || ((d1 &&& 0x7fffffffffffffff) == 0 && (d2 &&& 0x7fffffffffffffff) == 0))

/-- `Z_LVAL_P(result)` as a truth value, and the returned code. -/
abbrev IdenticalResult := Except Abort ((Bool × ZendResult) × Tables ZvalPtr)

def hashZvalIdenticalFunction (isIdentical : Tables ZvalPtr → ZvalPtr → ZvalPtr → IdenticalResult) :
    CompareFunc ZvalPtr := fun tables z1 z2 =>
  match isIdentical tables z1 z2 with
  | .error e => .error e
  | .ok ((_, .failure), tables) => .ok (1, tables)
  | .ok ((lval, .success), tables) => .ok (if lval then 0 else 1, tables)

/-- `is_identical_function`, with a bound on the depth of the recursion. -/
def isIdenticalFunction (zvals : ZvalPtr → ZvalueValue) :
    Nat → Tables ZvalPtr → ZvalPtr → ZvalPtr → IdenticalResult
  | 0, _, _, _ => .error .steps
  | n + 1, tables, op1, op2 =>
    match zvals op1, zvals op2 with
    | .null, .null => .ok ((true, .success), tables)
    | .bool l1, .bool l2 => .ok ((l1 == l2, .success), tables)
    | .long l1, .long l2 => .ok ((l1 == l2, .success), tables)
    | .resource l1, .resource l2 => .ok ((l1 == l2, .success), tables)
    | .double d1, .double d2 => .ok ((doubleEq d1 d2, .success), tables)
    | .string s1, .string s2 =>
      .ok ((s1.length == s2.length && memcmp s1 s2 s1.length == 0, .success), tables)
    | .array ht1, .array ht2 =>
      if ht1 = ht2 then .ok ((true, .success), tables)
      else
        match zendHashCompare (hashZvalIdenticalFunction (isIdenticalFunction zvals n)) tables
          ht1 ht2 true with
        | .error e => .error e
        | .ok (result, tables) => .ok ((result == 0, .success), tables)
    | .object handlers1 handle1, .object handlers2 handle2 =>
      if handlers1 = handlers2 then .ok ((handle1 == handle2, .success), tables)
      else .ok ((false, .success), tables)
    | .constant, .constant => .ok ((false, .failure), tables)
    | .constantArray, .constantArray => .ok ((false, .failure), tables)
    | _, _ => .ok ((false, .success), tables)

/-- Equality of values other than arrays. -/
def SameScalar : ZvalueValue → ZvalueValue → Prop
  | .null, .null => True
  | .bool l1, .bool l2 => l1 = l2
  | .long l1, .long l2 => l1 = l2
  | .resource l1, .resource l2 => l1 = l2
  | .double d1, .double d2 => doubleEq d1 d2 = true
  | .string s1, .string s2 => s1 = s2
  | .object handlers1 handle1, .object handlers2 handle2 =>
    handlers1 = handlers2 ∧ handle1 = handle2
  | _, _ => False

/-- Identity of two values when keys are compared by `SameKey`: arrays are identical when they are
one table, or have identical sequences of keys and values. -/
inductive Identical (SameKey : HashKey → HashKey → Prop) (zvals : ZvalPtr → ZvalueValue)
    (tables : Tables ZvalPtr) : ZvalPtr → ZvalPtr → Prop where
  | scalar {z1 z2 : ZvalPtr} : SameScalar (zvals z1) (zvals z2) →
      Identical SameKey zvals tables z1 z2
  | table {z1 z2 : ZvalPtr} {ht : TablePtr} : zvals z1 = .array ht → zvals z2 = .array ht →
      Identical SameKey zvals tables z1 z2
  | elements {z1 z2 : ZvalPtr} {ht1 ht2 : TablePtr} :
      zvals z1 = .array ht1 → zvals z2 = .array ht2 →
      (tables ht1).buckets.length = (tables ht2).buckets.length →
      (∀ (i : Nat) p1 p2, (tables ht1).buckets[i]? = some p1 → (tables ht2).buckets[i]? = some p2 →
        SameKey ((tables ht1).key p1) ((tables ht2).key p2)) →
      (∀ (i : Nat) p1 p2, (tables ht1).buckets[i]? = some p1 → (tables ht2).buckets[i]? = some p2 →
        Identical SameKey zvals tables ((tables ht1).pData p1) ((tables ht2).pData p2)) →
      Identical SameKey zvals tables z1 z2

theorem Identical.mono {K' : HashKey → HashKey → Prop} (h : Identical K zvals tables z1 z2)
    (hK : ∀ k1 k2, K k1 k2 → K' k1 k2) : Identical K' zvals tables z1 z2 := by
  induction h with
  | scalar hs => exact .scalar hs
  | table h1 h2 => exact .table h1 h2
  | elements h1 h2 hlen hk _ ih =>
    exact .elements h1 h2 hlen (fun i p1 p2 hp1 hp2 => hK _ _ (hk i p1 p2 hp1 hp2)) ih

theorem Identical.congr {tables' : Tables ZvalPtr} (h : Identical K zvals tables z1 z2)
    (ht : ∀ t, ∃ n, tables' t = (tables t).setApplyCount n) :
    Identical K zvals tables' z1 z2 := by
  induction h with
  | scalar hs => exact .scalar hs
  | table h1 h2 => exact .table h1 h2
  | @elements z1 z2 ht1 ht2 h1 h2 hlen hk _ ih =>
    obtain ⟨n1, hn1⟩ := ht ht1
    obtain ⟨n2, hn2⟩ := ht ht2
    refine .elements h1 h2 ?_ ?_ ?_
    · rw [hn1, hn2, HashTable.buckets_setApplyCount, HashTable.buckets_setApplyCount]
      exact hlen
    · rw [hn1, hn2, HashTable.buckets_setApplyCount, HashTable.buckets_setApplyCount]
      exact hk
    · rw [hn1, hn2, HashTable.buckets_setApplyCount, HashTable.buckets_setApplyCount]
      exact ih

theorem forall₂_iff_getElem? {β γ : Type} {R : β → γ → Prop} {l1 : List β} {l2 : List γ} :
    List.Forall₂ R l1 l2 ↔ l1.length = l2.length ∧
      ∀ (i : Nat) a b, l1[i]? = some a → l2[i]? = some b → R a b := by
  rw [List.forall₂_iff_get]
  refine and_congr_right fun hlen => ?_
  constructor
  · intro h i a b ha hb
    obtain ⟨hi1, rfl⟩ := List.getElem?_eq_some_iff.mp ha
    obtain ⟨hi2, rfl⟩ := List.getElem?_eq_some_iff.mp hb
    exact h i hi1 hi2
  · intro h i hi1 hi2
    exact h i _ _ (List.getElem?_eq_getElem hi1) (List.getElem?_eq_getElem hi2)

theorem identical_arrays_iff {ht1 ht2 : TablePtr} (h1 : zvals z1 = .array ht1)
    (h2 : zvals z2 = .array ht2) (hne : ht1 ≠ ht2) :
    Identical HashKey.SameInt zvals tables z1 z2 ↔
      List.Forall₂ (MatchesAt (tables ht1) (tables ht2)
        (Identical HashKey.SameInt zvals tables)) (tables ht1).buckets (tables ht2).buckets := by
  rw [forall₂_iff_getElem?]
  constructor
  · intro h
    cases h with
    | scalar hs =>
      rw [h1, h2] at hs
      exact hs.elim
    | table h1' h2' =>
      rw [h1] at h1'
      rw [h2] at h2'
      cases h1'
      cases h2'
      exact (hne rfl).elim
    | elements h1' h2' hlen hk hv =>
      rw [h1] at h1'
      rw [h2] at h2'
      cases h1'
      cases h2'
      exact ⟨hlen, fun i p1 p2 hp1 hp2 => ⟨hk i p1 p2 hp1 hp2, hv i p1 p2 hp1 hp2⟩⟩
  · rintro ⟨hlen, h⟩
    exact .elements h1 h2 hlen (fun i p1 p2 hp1 hp2 => (h i p1 p2 hp1 hp2).1)
      fun i p1 p2 hp1 hp2 => (h i p1 p2 hp1 hp2).2

/-- Every table of the heap is valid, and its `uint`s have not overflowed. -/
def TablesExact (zvals : ZvalPtr → ZvalueValue) (tables : Tables ZvalPtr) : Prop :=
  ∀ z ht, zvals z = .array ht → ∃ l, (tables ht).Exact l

theorem TablesExact.visit (h : TablesExact zvals tables) (ht1 ht2 : TablePtr) :
    TablesExact zvals (visit (visit tables ht1) ht2) := by
  intro z ht hz
  obtain ⟨l, hl⟩ := h z ht hz
  obtain ⟨n, hn⟩ := visit_visit_eq_setApplyCount tables ht1 ht2 ht
  exact ⟨l, hn ▸ hl.setApplyCount n⟩

theorem identical_visit_iff (tables : Tables ZvalPtr) (ht1 ht2 : TablePtr) :
    Identical K zvals (visit (visit tables ht1) ht2) z1 z2 ↔ Identical K zvals tables z1 z2 := by
  constructor
  · refine fun h => h.congr fun t => ?_
    obtain ⟨n, hn⟩ := visit_visit_eq_setApplyCount tables ht1 ht2 t
    exact ⟨(tables t).nApplyCount, by rw [hn]; rfl⟩
  · exact fun h => h.congr fun t => visit_visit_eq_setApplyCount tables ht1 ht2 t

theorem isIdenticalFunction_scalar (n : Nat) (tables : Tables ZvalPtr)
    (h : ∀ ht1 ht2, ¬ (zvals z1 = .array ht1 ∧ zvals z2 = .array ht2)) :
    ∃ b code, isIdenticalFunction zvals (n + 1) tables z1 z2 = .ok ((b, code), tables) ∧
      (b = true ↔ SameScalar (zvals z1) (zvals z2)) ∧ (code = .failure → b = false) := by
  unfold isIdenticalFunction
  cases h1 : zvals z1 <;> cases h2 : zvals z2
  case array.array ht1 ht2 => exact (h ht1 ht2 ⟨h1, h2⟩).elim
  case string.string s1 s2 =>
    refine ⟨_, _, rfl, ?_, nofun⟩
    simp only [SameScalar, Bool.and_eq_true, beq_iff_eq]
    constructor
    · exact fun ⟨hlen, hcmp⟩ => (memcmp_eq_zero hlen).mp hcmp
    · rintro rfl
      exact ⟨rfl, (memcmp_eq_zero rfl).mpr rfl⟩
  case object.object handlers1 handle1 handlers2 handle2 =>
    by_cases hh : handlers1 = handlers2
    · exact ⟨_, _, if_pos hh, by simp [SameScalar, hh], nofun⟩
    · exact ⟨_, _, if_neg hh, by simp [SameScalar, hh], nofun⟩
  all_goals exact ⟨_, _, rfl, by simp [SameScalar], by simp⟩

/-- To depth `n`, `===` returns with the tables as they were and decides identity up to integer
keys that agree modulo `2 ^ 32`. -/
def DecidesIdentity (zvals : ZvalPtr → ZvalueValue) (n : Nat) : Prop :=
  ∀ tables, TablesExact zvals tables → ∀ z1 z2 b code t,
    isIdenticalFunction zvals n tables z1 z2 = .ok ((b, code), t) →
      t = tables ∧ (b = true ↔ Identical HashKey.SameInt zvals tables z1 z2) ∧
        (code = .failure → b = false)

theorem DecidesIdentity.decides (hn : DecidesIdentity zvals n) (hx : TablesExact zvals tables)
    (ht1 ht2 : TablePtr) :
    Decides (hashZvalIdenticalFunction (isIdenticalFunction zvals n))
      (visit (visit tables ht1) ht2) (Identical HashKey.SameInt zvals tables) := by
  intro z1 z2 r t hr
  rw [hashZvalIdenticalFunction] at hr
  cases he : isIdenticalFunction zvals n (visit (visit tables ht1) ht2) z1 z2 with
  | error e =>
    rw [he] at hr
    exact nomatch hr
  | ok x =>
    obtain ⟨⟨b, code⟩, t'⟩ := x
    obtain ⟨rfl, hb, hcode⟩ := hn _ (hx.visit ht1 ht2) _ _ _ _ _ he
    rw [identical_visit_iff] at hb
    rw [he] at hr
    rw [← hb]
    cases code with
    | success =>
      obtain ⟨rfl, rfl⟩ := Prod.mk.inj (Except.ok.inj hr)
      exact ⟨rfl, by cases b <;> simp⟩
    | failure =>
      obtain ⟨rfl, rfl⟩ := Prod.mk.inj (Except.ok.inj hr)
      exact ⟨rfl, by simp [hcode rfl]⟩

theorem decidesIdentity (zvals : ZvalPtr → ZvalueValue) (n : Nat) : DecidesIdentity zvals n := by
  induction n with
  | zero => exact fun _ _ _ _ _ _ _ h => nomatch h
  | succ n ih =>
    intro tables hx z1 z2 b code t h
    by_cases harr : ∃ ht1 ht2, zvals z1 = .array ht1 ∧ zvals z2 = .array ht2
    swap
    · obtain ⟨b', code', he, hiff, hcode⟩ := isIdenticalFunction_scalar n tables
        fun ht1 ht2 h => harr ⟨ht1, ht2, h⟩
      rw [he] at h
      obtain ⟨hbc, rfl⟩ := Prod.mk.inj (Except.ok.inj h)
      obtain ⟨rfl, rfl⟩ := Prod.mk.inj hbc
      refine ⟨rfl, ?_, hcode⟩
      rw [hiff]
      constructor
      · exact fun hs => .scalar hs
      · intro hid
        cases hid with
        | scalar hs => exact hs
        | table h1 h2 => exact (harr ⟨_, _, h1, h2⟩).elim
        | elements h1 h2 => exact (harr ⟨_, _, h1, h2⟩).elim
    obtain ⟨ht1, ht2, h1, h2⟩ := harr
    rw [isIdenticalFunction, h1, h2] at h
    dsimp only at h
    by_cases hne : ht1 = ht2
    · subst hne
      rw [if_pos rfl] at h
      obtain ⟨hbc, rfl⟩ := Prod.mk.inj (Except.ok.inj h)
      obtain ⟨rfl, rfl⟩ := Prod.mk.inj hbc
      exact ⟨rfl, iff_of_true rfl (.table h1 h2), nofun⟩
    rw [if_neg hne] at h
    obtain ⟨l1, hl1⟩ := hx z1 ht1 h1
    obtain ⟨l2, hl2⟩ := hx z2 ht2 h2
    rcases zendHashCompare_ordered hl1 hl2 (ih.decides hx ht1 ht2) with
      ⟨-, he⟩ | ⟨-, ⟨r, he, hr⟩ | ⟨_, _, e, -, he⟩⟩ <;> rw [he] at h
    · exact nomatch h
    · obtain ⟨hbc, rfl⟩ := Prod.mk.inj (Except.ok.inj h)
      obtain ⟨rfl, rfl⟩ := Prod.mk.inj hbc
      refine ⟨rfl, ?_, nofun⟩
      rw [identical_arrays_iff h1 h2 hne, hl1.buckets_eq, hl2.buckets_eq, ← hr, beq_iff_eq]
    · exact nomatch h

/-- How many visits the guard still allows to the tables of `S`. -/
def visitsLeft (S : Finset TablePtr) (tables : Tables ZvalPtr) : Nat :=
  ∑ t ∈ S, (3 - (tables t).nApplyCount)

theorem nApplyCount_le_visit (tables : Tables ZvalPtr) (ht t : TablePtr) :
    (tables t).nApplyCount ≤ (visit tables ht t).nApplyCount := by
  by_cases h : t = ht
  · subst h
    rw [visit_self, HashTable.nApplyCount_setApplyCount]
    split <;> omega
  · rw [visit_of_ne _ h]

theorem visitsLeft_visit_lt {S : Finset TablePtr} {ht1 ht2 : TablePtr} (hmem : ht1 ∈ S)
    (hprot : (tables ht1).bApplyProtection = true) (hg : ¬ GuardTrips tables ht1 ht2) :
    visitsLeft S (visit (visit tables ht1) ht2) < visitsLeft S tables := by
  refine Finset.sum_lt_sum (fun t _ => ?_) ⟨ht1, hmem, ?_⟩
  · have h1 := nApplyCount_le_visit tables ht1 t
    have h2 := nApplyCount_le_visit (visit tables ht1) ht2 t
    omega
  · have h2 := nApplyCount_le_visit (visit tables ht1) ht2 ht1
    have hlt : (tables ht1).nApplyCount < 3 := by
      by_contra hge
      exact hg (Or.inl ⟨hprot, by omega⟩)
    rw [visit_self, HashTable.nApplyCount_setApplyCount, if_pos hprot] at h2
    omega

theorem isIdenticalFunction_ends {S : Finset TablePtr} (hx : TablesExact zvals tables)
    (hS : ∀ z ht, zvals z = .array ht → ht ∈ S ∧ (tables ht).bApplyProtection = true)
    (hn : visitsLeft S tables < n) (z1 z2 : ZvalPtr) :
    isIdenticalFunction zvals n tables z1 z2 ≠ .error .steps := by
  induction n generalizing tables z1 z2 with
  | zero => omega
  | succ n ih =>
    by_cases harr : ∃ ht1 ht2, zvals z1 = .array ht1 ∧ zvals z2 = .array ht2
    swap
    · obtain ⟨b, code, he, -⟩ := isIdenticalFunction_scalar n tables
        fun ht1 ht2 h => harr ⟨ht1, ht2, h⟩
      rw [he]
      nofun
    obtain ⟨ht1, ht2, h1, h2⟩ := harr
    rw [isIdenticalFunction, h1, h2]
    dsimp only
    by_cases hne : ht1 = ht2
    · rw [if_pos hne]
      nofun
    rw [if_neg hne]
    obtain ⟨l1, hl1⟩ := hx z1 ht1 h1
    obtain ⟨l2, hl2⟩ := hx z2 ht2 h2
    have hc := (decidesIdentity zvals n).decides hx ht1 ht2
    rcases zendHashCompare_ordered hl1 hl2 hc with
      ⟨-, he⟩ | ⟨hg, ⟨r, he, hr⟩ | ⟨a, b, e, hab, he⟩⟩ <;> rw [he]
    · nofun
    · nofun
    · -- the error comes from a call one level down, where fewer visits are left
      have hlt := visitsLeft_visit_lt (hS z1 ht1 h1).1 (hS z1 ht1 h1).2 hg
      have hS' : ∀ z ht, zvals z = .array ht →
          ht ∈ S ∧ (visit (visit tables ht1) ht2 ht).bApplyProtection = true := by
        intro z ht hz
        obtain ⟨m, hm⟩ := visit_visit_eq_setApplyCount tables ht1 ht2 ht
        rw [hm]
        exact hS z ht hz
      have hne := ih (hx.visit ht1 ht2) hS' (by omega) a b
      rw [hashZvalIdenticalFunction] at hab
      cases hi : isIdenticalFunction zvals n (visit (visit tables ht1) ht2) a b with
      | error e' =>
        rw [hi] at hab hne
        obtain rfl := Except.error.inj hab
        simpa using hne
      | ok x =>
        rw [hi] at hab
        obtain ⟨⟨b', code⟩, t'⟩ := x
        cases code <;> exact nomatch hab

theorem isIdenticalFunction_iff (hx : TablesExact zvals tables) {b : Bool} {code : ZendResult}
    {t : Tables ZvalPtr} (h : isIdenticalFunction zvals n tables z1 z2 = .ok ((b, code), t)) :
    (b = true ↔ Identical Eq zvals tables z1 z2) ↔
      ¬ (Identical HashKey.SameInt zvals tables z1 z2 ∧ ¬ Identical Eq zvals tables z1 z2) := by
  have hspec := (decidesIdentity zvals n tables hx _ _ _ _ _ h).2.1
  have hmono : Identical Eq zvals tables z1 z2 → Identical HashKey.SameInt zvals tables z1 z2 :=
    fun h => h.mono fun k1 k2 hk => hk ▸ HashKey.SameInt.refl k1
  tauto

/-- Exactly when the ordered `zend_hash_compare` decides whether two tables have the same keys and
values, and when `===` decides whether two arrays do, level by level. -/
theorem array_identity_iff {α : Type} (cmp : α → α → Int) {tables : Tables α} {ht1 ht2 : TablePtr}
    {l1 l2 : List BucketPtr} (h1 : (tables ht1).Exact l1) (h2 : (tables ht2).Exact l2)
    {zvals : ZvalPtr → ZvalueValue} {heap : Tables ZvalPtr} (hx : TablesExact zvals heap)
    {S : Finset TablePtr}
    (hS : ∀ z ht, zvals z = .array ht → ht ∈ S ∧ (heap ht).bApplyProtection = true)
    (z1 z2 : ZvalPtr) :
    (((∃ t, zendHashCompare (fun t a b => .ok (cmp a b, t)) tables ht1 ht2 true = .ok (0, t)) ↔
          SameSequence cmp (tables ht1) (tables ht2)) ↔
        ¬ (GuardTrips tables ht1 ht2 ∧ SameSequence cmp (tables ht1) (tables ht2)) ∧
          ¬ (¬ GuardTrips tables ht1 ht2 ∧ KeysWrap cmp (tables ht1) (tables ht2))) ∧
      (∃ m, ∀ n, m ≤ n → isIdenticalFunction zvals n heap z1 z2 ≠ .error .steps) ∧
        ∀ n b code t, isIdenticalFunction zvals n heap z1 z2 = .ok ((b, code), t) →
          ((b = true ↔ Identical Eq zvals heap z1 z2) ↔
            ¬ (Identical HashKey.SameInt zvals heap z1 z2 ∧ ¬ Identical Eq zvals heap z1 z2)) := by
  refine ⟨zendHashCompare_sameSequence_iff h1 h2, ⟨visitsLeft S heap + 1, fun n hn => ?_⟩, ?_⟩
  · exact isIdenticalFunction_ends hx hS (by omega) z1 z2
  · exact fun n b code t h => isIdenticalFunction_iff hx h

/-- `array($key => $value)` -/
def oneElementArray (key : BitVec 64) (value : ZvalPtr) : HashTable ZvalPtr :=
  ((zendHashInit ZvalPtr 8 true false).insertBucket 0 [] key value).bumpNextFreeElement key

theorem oneElementArray_exact (key : BitVec 64) (value : ZvalPtr) :
    (oneElementArray key value).Exact [0] := by
  have hv : (zendHashInit ZvalPtr 8 true false).Valid [] := HashTable.valid_zendHashInit _ _ _
  have hk : HashKey.ofArKey [] key ∉ [].map (zendHashInit ZvalPtr 8 true false).key :=
    List.not_mem_nil
  have hv1 := hv.insert (p := 0) List.not_mem_nil nofun hk value
  refine ⟨hv1.setNextFreeElement _, rfl, fun p hp => ?_⟩
  obtain rfl := List.mem_singleton.mp hp
  exact Nat.two_pow_pos 32

/-- `$z0 = array(0 => 7)`, `$z1 = array(4294967296 => 7)`, the element being `$z2`. -/
def wrapZvals : ZvalPtr → ZvalueValue
  | 0 => .array 0
  | 1 => .array 1
  | _ => .long 7

def wrapTables : Tables ZvalPtr
  | 0 => oneElementArray 0 2
  | _ => oneElementArray 4294967296 2

/-- The two arrays have different keys, and compare as identical. -/
theorem array_identity_fails :
    (wrapTables 0).Exact [0] ∧ (wrapTables 1).Exact [0] ∧
      (wrapTables 0).listKeys = [.index 0] ∧ (wrapTables 1).listKeys = [.index 4294967296] ∧
      (∃ t, zendHashCompare (fun t a b => .ok (if a = b then 0 else 1, t)) wrapTables 0 1 true =
        .ok (0, t)) ∧
      ∃ t, isIdenticalFunction wrapZvals 2 wrapTables 0 1 = .ok ((true, .success), t) :=
  ⟨oneElementArray_exact 0 2, oneElementArray_exact 4294967296 2, by decide, by decide,
    ⟨_, rfl⟩, ⟨_, rfl⟩⟩

/-- `array($key1 => $value1, $key2 => $value2)` -/
def twoElementArray (key1 : BitVec 64) (value1 : ZvalPtr) (key2 : BitVec 64) (value2 : ZvalPtr) :
    HashTable ZvalPtr :=
  ((oneElementArray key1 value1).insertBucket 1 [] key2 value2).bumpNextFreeElement key2

theorem twoElementArray_exact {key1 key2 : BitVec 64} (hne : key1 ≠ key2) (value1 value2 : ZvalPtr) :
    (twoElementArray key1 value1 key2 value2).Exact [0, 1] := by
  have hone := oneElementArray_exact key1 value1
  have hk : HashKey.ofArKey [] key2 ∉ [0].map (oneElementArray key1 value1).key := by
    intro hmem
    exact hne (HashKey.index.inj (List.mem_singleton.mp hmem)).symm
  have hv := hone.insert (p := 1) (by decide) nofun hk value2
  refine ⟨hv.setNextFreeElement _, rfl, fun p hp => ?_⟩
  rcases List.mem_cons.mp hp with rfl | hp
  · exact Nat.two_pow_pos 32
  · obtain rfl := List.mem_singleton.mp hp
    exact Nat.two_pow_pos 32

/-- `$z0` and `$z1` are arrays, the other variables 7 and 8 by turns. -/
def pairZvals : ZvalPtr → ZvalueValue
  | 0 => .array 0
  | 1 => .array 1
  | z => .long (if z % 2 = 0 then 7 else 8)

def pairTables : Tables ZvalPtr
  | 0 => twoElementArray 0 2 1 3
  | _ => twoElementArray 0 4 1 5

theorem pairTables_exact : TablesExact pairZvals pairTables := by
  intro z ht _
  cases ht with
  | zero => exact ⟨[0, 1], twoElementArray_exact (by decide) ..⟩
  | succ n => exact ⟨[0, 1], twoElementArray_exact (by decide) ..⟩

def pairCompare (z1 z2 : ZvalPtr) : Int := if z1 % 2 = z2 % 2 then 0 else 1

/-- `array(0 => 7, 1 => 8)` twice, with variables of their own. -/
theorem array_identity_pairs :
    (∃ t, zendHashCompare (fun t a b => .ok (pairCompare a b, t)) pairTables 0 1 true = .ok (0, t)) ∧
    (∃ m, ∀ n, m ≤ n → isIdenticalFunction pairZvals n pairTables 0 1 ≠ .error .steps) ∧
    ∀ n b code t, isIdenticalFunction pairZvals n pairTables 0 1 = .ok ((b, code), t) → b = true := by
  have hS : ∀ z ht, pairZvals z = .array ht →
      ht ∈ ({0, 1} : Finset TablePtr) ∧ (pairTables ht).bApplyProtection = true := by
    intro z ht hz
    match z, hz with
    | 0, hz =>
      obtain rfl := ZvalueValue.array.inj hz
      decide
    | 1, hz =>
      obtain rfl := ZvalueValue.array.inj hz
      decide
  have hx0 : (pairTables 0).Exact [0, 1] := twoElementArray_exact (by decide) ..
  have hx1 : (pairTables 1).Exact [0, 1] := twoElementArray_exact (by decide) ..
  have hkeys : (pairTables 0).listKeys = (pairTables 1).listKeys := by
    rw [hx0.listKeys_eq, hx1.listKeys_eq]
    rfl
  have hsame : SameSequence pairCompare (pairTables 0) (pairTables 1) := by
    refine ⟨hkeys, ?_⟩
    rw [hx0.buckets_eq, hx1.buckets_eq]
    exact .cons rfl (.cons rfl .nil)
  have hidentical : Identical Eq pairZvals pairTables 0 1 := by
    refine .elements rfl rfl ?_ ?_ ?_
    · rw [hx0.buckets_eq, hx1.buckets_eq]
    · rw [hx0.buckets_eq, hx1.buckets_eq]
      intro i p1 p2 hp1 hp2
      match i, hp1, hp2 with
      | 0, rfl, rfl => rfl
      | 1, rfl, rfl => rfl
    · rw [hx0.buckets_eq, hx1.buckets_eq]
      intro i p1 p2 hp1 hp2
      match i, hp1, hp2 with
      | 0, rfl, rfl => exact .scalar rfl
      | 1, rfl, rfl => exact .scalar rfl
  obtain ⟨hcmp, hends, hdecides⟩ := array_identity_iff pairCompare hx0 hx1 pairTables_exact hS 0 1
  refine ⟨(hcmp.mpr ⟨fun h => absurd h.1 (by decide), fun h => h.2.1 hkeys⟩).mpr hsame, hends,
    fun n b code t h => ?_⟩
  exact ((hdecides n b code t h).mpr fun h => h.2 hidentical).mpr hidentical

end Php53.Zend
