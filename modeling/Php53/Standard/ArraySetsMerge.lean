import Php53.Reasoning.SortedCursors
import Php53.Standard.ArraySets
import Php53.Zend.CompareArrays

/-!
# ArraySetsMerge — which entries of the first array are left

At every round of the loops the cursors have gone by nothing that is still of use, and the copy
lists the buckets that are to stay or have not been looked at.
-/

open Reasoning

namespace Php53.Zend

open List

namespace HashTable

variable {α : Type} {compareData : α → α → Int} {p : BucketPtr}

theorem length_pointerBytes (n : Nat) (p : BucketPtr) : (pointerBytes n p).length = n := by
  induction n generalizing p with
  | zero => rfl
  | succ n ih => exact congrArg (· + 1) (ih (p / 256))

theorem pointerOf_pointerBytes (n : Nat) (p : BucketPtr) :
    pointerOf (pointerBytes n p) = p % 256 ^ n := by
  induction n generalizing p with
  | zero => exact (Nat.mod_one p).symm
  | succ n ih =>
    have hbyte : (UInt8.ofNat p).toNat = p % 256 := UInt8.toNat_ofNat'
    unfold pointerBytes pointerOf
    rw [ih, hbyte, Nat.pow_succ', Nat.mod_mul]

theorem sortedBuckets_eq (h : Comparison compareData) {hash : HashTable α} {l : List BucketPtr}
    (hv : hash.Valid l) (hlen : l.length < uintModulus) (haddress : ∀ p ∈ l, p < 2 ^ 64) :
    ∃ list, sortedBuckets compareData hash = some list ∧ list.Perm l ∧
      list.Pairwise fun p q => compareData (hash.pData p) (hash.pData q) ≤ 0 := by
  have hback : ∀ p ∈ l, pointerOf (pointerBytes sizeofVoidPtr p) = p := by
    intro p hp
    rw [pointerOf_pointerBytes]
    exact Nat.mod_eq_of_lt (haddress p hp)
  have hcount : hash.nNumOfElements = (l.map (pointerBytes sizeofVoidPtr)).length := by
    rw [hv.count, length_map, Nat.mod_eq_of_lt hlen]
  have hmod : uintModulus ≤ 2 ^ 64 := by decide
  have hsizes : ∀ bytes ∈ l.map (pointerBytes sizeofVoidPtr), bytes.length = sizeofVoidPtr := by
    intro bytes hbytes
    obtain ⟨p, -, rfl⟩ := mem_map.mp hbytes
    exact length_pointerBytes _ _
  obtain ⟨sorted, mem, user, hrun, hmem, hperm, hsorted⟩ := zendQsort_of_pos (by decide)
    (fun a b (_ : Unit) =>
      (compareData (hash.pData (pointerOf a)) (hash.pData (pointerOf b)), ()))
    hsizes (by rw [length_map]; omega) ()
  have hlength : l.length = sorted.length := by
    rw [hperm.length_eq, length_map]
  have hread : ((range l.length).map fun i =>
      pointerOf (element sizeofVoidPtr mem (sizeofVoidPtr * i : Nat))) = sorted.map pointerOf := by
    apply ext_getElem
    · simp [hlength]
    · intro i hi hi'
      rw [length_map] at hi'
      simp only [getElem_map, getElem_range]
      rw [hmem.element (List.getElem?_eq_getElem hi')]
  refine ⟨sorted.map pointerOf, ?_, ?_, ?_⟩
  · unfold sortedBuckets
    rw [hv.listFrom_eq, Option.bind_some, hcount]
    dsimp only
    rw [hrun]
    dsimp only
    rw [hread]
  · have hmap := hperm.map pointerOf
    rw [map_map] at hmap
    rwa [show l.map (pointerOf ∘ pointerBytes sizeofVoidPtr) = l from
      (map_congr_left hback).trans (map_id l)] at hmap
  · rw [pairwise_map]
    apply hsorted
    · exact ⟨fun a b c => h.trans _ _ _⟩
    · refine ⟨fun a b => ?_⟩
      have hpos := h.pos_iff (a := hash.pData (pointerOf a)) (b := hash.pData (pointerOf b))
      omega
    · intro a b u
      exact (Int.not_le).symm

theorem deleteKeyOf_eq {args0 ret : HashTable α} {l : List BucketPtr} (hok : args0.HashOk p)
    (hv : ret.Valid l) (hp : p ∈ l) (hsame : SameAt args0 ret p) :
    deleteKeyOf args0 p ret = some (ret.deleteBucket p) := by
  unfold deleteKeyOf
  by_cases hlen : args0.nKeyLength p = 0
  · have hkey : ret.key p = HashKey.ofArKey [] (args0.h p) := by
      rw [hsame.1]
      simp [HashTable.key, hlen, HashKey.ofArKey]
    rw [if_pos hlen, hv.zendHashDelKeyOrIndex_eq hp (by simp) hkey rfl]
    rfl
  · obtain ⟨hhash, harKey⟩ := hok hlen
    have hne : (args0.arKey p).length ≠ 0 := by
      rw [harKey]
      exact hlen
    have hkey : ret.key p = HashKey.ofArKey (args0.arKey p) (args0.h p) := by
      rw [hsame.1]
      unfold HashTable.key HashKey.ofArKey
      rw [if_neg hlen, if_neg hne]
    rw [if_neg hlen, hv.zendHashDelKeyOrIndex_eq hp (fun _ => hhash) hkey rfl]
    rfl

/-- The copy lists the buckets of the first argument that are not settled, in `ptr0`, and those that
    stay. -/
structure Settled (args0 ret : HashTable α) (stays : BucketPtr → Bool) (ptr0 : List BucketPtr) :
    Prop where
  valid : ret.Valid (args0.buckets.filter fun p => decide (p ∈ ptr0) || stays p)
  same : ∀ p ∈ args0.buckets, SameAt args0 ret p

section Settled

variable {args0 ret : HashTable α} {stays : BucketPtr → Bool} {run rest : List BucketPtr}

theorem Settled.keep (h : Settled args0 ret stays (run ++ rest))
    (hstays : ∀ p ∈ run, stays p = true) : Settled args0 ret stays rest := by
  have hlist : (args0.buckets.filter fun p => decide (p ∈ run ++ rest) || stays p) =
      args0.buckets.filter fun p => decide (p ∈ rest) || stays p := by
    apply filter_congr
    intro p _
    by_cases hrun : p ∈ run
    · rw [hstays p hrun, Bool.or_true, Bool.or_true]
    · simp [hrun]
  exact ⟨hlist ▸ h.valid, h.same⟩

theorem Settled.deleteAll (hargs0 : args0.Valid args0.buckets)
    (h : Settled args0 ret stays (run ++ rest)) (hnodup : (run ++ rest).Nodup)
    (hsub : run ⊆ args0.buckets) (hgoes : ∀ p ∈ run, stays p = false) :
    ∃ t, args0.deleteAll run ret = some t ∧ Settled args0 t stays rest := by
  induction run generalizing ret with
  | nil => exact ⟨ret, rfl, h⟩
  | cons p run ih =>
    have hp : p ∈ args0.buckets := hsub mem_cons_self
    have hlisted : p ∈ args0.buckets.filter fun q => decide (q ∈ p :: run ++ rest) || stays q := by
      simp [hp]
    have hlist : (args0.buckets.filter fun q => decide (q ∈ p :: run ++ rest) || stays q).erase p =
        args0.buckets.filter fun q => decide (q ∈ run ++ rest) || stays q := by
      rw [(hargs0.list.nodup.filter _).erase_eq_filter, filter_filter]
      apply filter_congr
      intro q _
      by_cases hqp : q = p
      · subst hqp
        have hnot : q ∉ run ++ rest := (nodup_cons.mp hnodup).1
        rw [hgoes q mem_cons_self]
        simp [hnot]
      · simp [hqp]
    have hdeleted : Settled args0 (ret.deleteBucket p) stays (run ++ rest) :=
      ⟨hlist ▸ h.valid.delete hlisted, h.same⟩
    obtain ⟨t, heq, hsettled⟩ := ih hdeleted (nodup_cons.mp hnodup).2
      (fun q hq => hsub (mem_cons_of_mem p hq))
      (fun q hq => hgoes q (mem_cons_of_mem p hq))
    refine ⟨t, ?_, hsettled⟩
    unfold HashTable.deleteAll
    rw [deleteKeyOf_eq (hargs0.hash p hp) h.valid hlisted (h.same p hp), Option.bind_some, heq]

end Settled

theorem until_spec (args0 : HashTable α) {stops : BucketPtr → BucketPtr → Bool}
    {P : BucketPtr → Prop} (hnext : ∀ q r, P q → stops q r = false → P r) (hp : P p)
    (ptr0 : List BucketPtr) :
    ∃ run rest, p :: ptr0 = run ++ rest ∧ p ∈ run ∧ (∀ q ∈ run, P q) ∧
      (∃ last ∈ run, ∀ q ∈ rest.head?, stops last q = true) ∧ skipUntil stops p ptr0 = rest ∧
      ∀ ret, deleteUntil stops args0 p ptr0 ret =
        (deleteAll args0 run ret).map fun ret => (rest, ret) := by
  induction ptr0 generalizing p with
  | nil =>
    refine ⟨[p], [], rfl, by simp, by simpa using hp, ⟨p, by simp, by simp⟩, rfl, fun ret => ?_⟩
    unfold deleteUntil deleteAll deleteAll
    cases deleteKeyOf args0 p ret <;> rfl
  | cons q ptr0 ih =>
    unfold skipUntil
    cases hstops : stops p q with
    | true =>
      refine ⟨[p], q :: ptr0, rfl, by simp, by simpa using hp, ⟨p, by simp, ?_⟩, if_pos rfl,
        fun ret => ?_⟩
      · intro r hr
        obtain rfl := Option.some.inj hr
        exact hstops
      · unfold deleteUntil deleteAll deleteAll
        rw [hstops]
        cases deleteKeyOf args0 p ret <;> rfl
    | false =>
      obtain ⟨run, rest, hsplit, -, hrun, ⟨last, hlast, hstop⟩, hskip, hdelete⟩ :=
        ih (hnext p q hp hstops)
      refine ⟨p :: run, rest, by rw [hsplit]; rfl, by simp, ?_, ⟨last, by simp [hlast], hstop⟩, ?_,
        fun ret => ?_⟩
      · intro r hr
        rcases mem_cons.mp hr with rfl | hr
        · exact hp
        · exact hrun r hr
      · rw [if_neg Bool.false_ne_true, hskip]
      · unfold deleteUntil deleteAll
        rw [hstops]
        cases hdel : deleteKeyOf args0 p ret with
        | none => rfl
        | some t =>
          rw [Option.bind_some, Option.bind_some, if_neg Bool.false_ne_true]
          exact hdelete t

section Cursors

variable {x : α} {xs : List α} {lists ptrs : List (List α)}

theorem passLower_spec (h : Comparison compareData) {all ys : List α}
    (hxs : ∀ x' ∈ xs, compareData x x' ≤ 0) (hcur : Cursor compareData xs all ys) (c : Int) :
    ∃ c' ys', passLower compareData x ys c = (c', ys') ∧ Cursor compareData xs all ys' ∧
      (ys' = [] ∧ (c' = c ∨ 0 < c') ∨
        ∃ y rest, ys' = y :: rest ∧ c' = compareData x y ∧ c' ≤ 0) := by
  induction ys generalizing c with
  | nil => exact ⟨c, [], rfl, hcur, Or.inl ⟨rfl, Or.inl rfl⟩⟩
  | cons y ys ih =>
    unfold passLower
    dsimp only
    by_cases hlower : 0 < compareData x y
    · have hmoved : Cursor compareData xs all ys :=
        hcur.move fun x' hx' => h.lt_of_lt_of_le (h.pos_iff.mp hlower) (hxs x' hx')
      obtain ⟨c', ys', heq, hcur', hend⟩ := ih hmoved (compareData x y)
      rw [if_pos hlower, heq]
      refine ⟨c', ys', rfl, hcur', ?_⟩
      rcases hend with ⟨hnil, hc⟩ | hcons
      · exact Or.inl ⟨hnil, Or.inr (by omega)⟩
      · exact Or.inr hcons
    · rw [if_neg hlower]
      exact ⟨_, _, rfl, hcur, Or.inr ⟨y, ys, rfl, rfl, by omega⟩⟩

/-- The cursors serve all of `xs`, in whatever lists they are. -/
def Cursors (compareData : α → α → Int) (xs : List α) (lists ptrs : List (List α)) : Prop :=
  List.Forall₂ (Cursor compareData xs) lists ptrs

/-- The cursors serve whatever of `xs` is above `x`. -/
def Above (compareData : α → α → Int) (x : α) (xs : List α) (lists ptrs : List (List α)) : Prop :=
  ∀ xs' ⊆ xs, (∀ x' ∈ xs', compareData x x' < 0) → Cursors compareData xs' lists ptrs

theorem Cursors.above (hcurs : Cursors compareData xs lists ptrs) :
    Above compareData x xs lists ptrs :=
  fun _ hsub _ => hcurs.imp fun _ _ hcur => hcur.mono hsub

theorem Above.cons {all ys : List α} (hcur : Cursor compareData xs all ys)
    (habove : Above compareData x xs lists ptrs) :
    Above compareData x xs (all :: lists) (ys :: ptrs) :=
  fun xs' hsub hx => .cons (hcur.mono hsub) (habove xs' hsub hx)

theorem Above.cons_same (h : Comparison compareData) {all ys : List α} {y : α}
    (hcur : Cursor compareData xs all (y :: ys)) (hy : compareData x y = 0)
    (habove : Above compareData x xs lists ptrs) :
    Above compareData x xs (all :: lists) (ys :: ptrs) := by
  intro xs' hsub hx
  refine .cons ((hcur.mono hsub).move fun x' hx' => ?_) (habove xs' hsub hx)
  exact h.lt_of_le_of_lt (Int.le_of_eq (h.eq_zero_comm.mp hy)) (hx x' hx')

def IntersectFor.Means (compareData : α → α → Int) (x : α) (xs : List α) (lists : List (List α))
    (c c' : Int) : IntersectFor α → Prop
  | .ended => ∃ all ∈ lists, ∀ x' ∈ xs, ∀ y ∈ all, compareData x' y ≠ 0
  | .broken y => c' ≠ 0 ∧ compareData x y < 0 ∧
      ∃ all ∈ lists, ∀ x' ∈ xs, compareData x' y < 0 → ∀ y ∈ all, compareData x' y ≠ 0
  | .through => c' = (if lists = [] then c else 0) ∧
      ∀ all ∈ lists, ∃ y ∈ all, compareData x y = 0

theorem intersectFor_spec (h : Comparison compareData) (hxs : ∀ x' ∈ xs, compareData x x' ≤ 0)
    (hlists : ∀ all ∈ lists, all.Pairwise (compareData · · ≤ 0))
    (hcurs : Cursors compareData xs lists ptrs) (c : Int) :
    ∃ result c' ptrs', intersectFor compareData x ptrs c = (result, c', ptrs') ∧
      result.Means compareData x xs lists c c' ∧ Above compareData x xs lists ptrs' := by
  induction hcurs generalizing c with
  | nil => exact ⟨.through, c, [], rfl, ⟨(if_pos rfl).symm, by simp⟩, fun _ _ _ => .nil⟩
  | @cons all ys lists ptrs hcur hcurs ih =>
    obtain ⟨c₁, ys', hpass, hcur', hend⟩ := passLower_spec h hxs hcur c
    have hall : all.Pairwise (compareData · · ≤ 0) := hlists all mem_cons_self
    have hothers : Above compareData x xs lists ptrs := Cursors.above hcurs
    unfold intersectFor
    rw [hpass]
    rcases hend with ⟨rfl, -⟩ | ⟨y, rest, rfl, rfl, hle⟩
    · refine ⟨.ended, c₁, [] :: ptrs, rfl, ⟨all, mem_cons_self, ?_⟩, hothers.cons hcur'⟩
      exact fun x' hx' => hcur'.ne_zero h hall hx' (by simp)
    · dsimp only
      by_cases hc : compareData x y = 0
      · obtain ⟨result, c', ptrs', heq, hmeans, habove⟩ :=
          ih (fun all' hall' => hlists all' (mem_cons_of_mem all hall')) (compareData x y)
        rw [if_neg (fun hne => hne hc), heq]
        refine ⟨result, c', rest :: ptrs', rfl, ?_, habove.cons_same h hcur' hc⟩
        cases result with
        | ended =>
          obtain ⟨all', hall', hnone⟩ := hmeans
          exact ⟨all', mem_cons_of_mem all hall', hnone⟩
        | broken z =>
          obtain ⟨hc', hz, all', hall', hnone⟩ := hmeans
          exact ⟨hc', hz, all', mem_cons_of_mem all hall', hnone⟩
        | through =>
          obtain ⟨hc', hfound⟩ := hmeans
          have hzero : c' = 0 := by
            rw [hc', hc]
            exact ite_self 0
          refine ⟨by rw [hzero, if_neg (cons_ne_nil _ _)], fun all' hall' => ?_⟩
          rcases mem_cons.mp hall' with rfl | hall'
          · exact ⟨y, hcur'.head_mem, hc⟩
          · exact hfound all' hall'
      · rw [if_pos hc]
        refine ⟨.broken y, compareData x y, (y :: rest) :: ptrs, rfl,
          ⟨hc, by omega, all, mem_cons_self, ?_⟩, hothers.cons hcur'⟩
        intro x' hx' hlt
        apply hcur'.ne_zero h hall hx'
        intro z hz
        obtain rfl := Option.some.inj hz
        exact hlt

theorem diffFor_spec (h : Comparison compareData) (hx : x ∈ xs)
    (hxs : ∀ x' ∈ xs, compareData x x' ≤ 0)
    (hlists : ∀ all ∈ lists, all.Pairwise (compareData · · ≤ 0))
    (hcurs : Cursors compareData xs lists ptrs) {c : Int} (hc : c ≠ 0) :
    ∃ c' ptrs', diffFor compareData x ptrs c = (c', ptrs') ∧
      (c' = 0 ↔ ∃ all ∈ lists, ∃ y ∈ all, compareData x y = 0) ∧
      Above compareData x xs lists ptrs' := by
  induction hcurs generalizing c with
  | nil => exact ⟨c, [], rfl, by simp [hc], fun _ _ _ => .nil⟩
  | @cons all ys lists ptrs hcur hcurs ih =>
    obtain ⟨c₁, ys', hpass, hcur', hend⟩ := passLower_spec h hxs hcur c
    have hall : all.Pairwise (compareData · · ≤ 0) := hlists all mem_cons_self
    have hothers : Above compareData x xs lists ptrs := Cursors.above hcurs
    unfold diffFor
    rw [hpass]
    dsimp only
    by_cases hc₁ : c₁ = 0
    · rcases hend with ⟨-, hc'⟩ | ⟨y, rest, rfl, hcompared, -⟩
      · omega
      · have hy : compareData x y = 0 := by omega
        rw [if_pos hc₁]
        refine ⟨c₁, rest :: ptrs, rfl, ⟨fun _ => ?_, fun _ => hc₁⟩, hothers.cons_same h hcur' hy⟩
        exact ⟨all, mem_cons_self, y, hcur'.head_mem, hy⟩
    · have hnone : ∀ y ∈ all, compareData x y ≠ 0 := by
        apply hcur'.ne_zero h hall hx
        rcases hend with ⟨rfl, -⟩ | ⟨y, rest, rfl, hcompared, hle⟩
        · simp
        · intro z hz
          obtain rfl := Option.some.inj hz
          omega
      obtain ⟨c', ptrs', heq, hfound, habove⟩ :=
        ih (fun all' hall' => hlists all' (mem_cons_of_mem all hall')) hc₁
      rw [if_neg hc₁, heq]
      refine ⟨c', ys' :: ptrs', rfl, ?_, habove.cons hcur'⟩
      rw [hfound, exists_mem_cons_iff]
      constructor
      · exact Or.inr
      · rintro (⟨y, hy, hzero⟩ | hlater)
        · exact (hnone y hy hzero).elim
        · exact hlater

end Cursors

def isFound (compareData : α → α → Int) (x : α) (all : List α) : Bool :=
  all.any fun y => compareData x y == 0

theorem isFound_iff {x : α} {all : List α} :
    isFound compareData x all = true ↔ ∃ y ∈ all, compareData x y = 0 := by
  simp [isFound]

theorem isFound_eq_false {x : α} {all : List α} :
    isFound compareData x all = false ↔ ∀ y ∈ all, compareData x y ≠ 0 := by
  simp [isFound]

theorem isFound_congr (h : Comparison compareData) {x x' : α} (hx : compareData x x' = 0)
    (all : List α) : isFound compareData x' all = isFound compareData x all := by
  rw [Bool.eq_iff_iff, isFound_iff, isFound_iff]
  constructor
  · rintro ⟨y, hy, hzero⟩
    exact ⟨y, hy, h.eq_zero_trans hx hzero⟩
  · rintro ⟨y, hy, hzero⟩
    exact ⟨y, hy, h.eq_zero_trans (h.eq_zero_comm.mp hx) hzero⟩

/-- The state of `while (*ptrs[0])`. -/
structure Going (compareData : α → α → Int) (args0 : HashTable α) (lists : List (List α))
    (stays : BucketPtr → Bool) (ptr0 : List BucketPtr) (ptrs : List (List α)) (ret : HashTable α) :
    Prop where
  nodup : ptr0.Nodup
  listed : ptr0 ⊆ args0.buckets
  sorted : ptr0.Pairwise fun p q => compareData (args0.pData p) (args0.pData q) ≤ 0
  cursors : Cursors compareData (ptr0.map args0.pData) lists ptrs
  settled : Settled args0 ret stays ptr0

section Going

variable {args0 ret : HashTable α} {lists ptrs ptrs' : List (List α)} {stays : BucketPtr → Bool}
  {p : BucketPtr} {ptr0 run rest : List BucketPtr}

theorem Going.head_le (h : Comparison compareData)
    (hg : Going compareData args0 lists stays (p :: ptr0) ptrs ret) :
    ∀ x ∈ (p :: ptr0).map args0.pData, compareData (args0.pData p) x ≤ 0 := by
  intro x hx
  obtain ⟨q, hq, rfl⟩ := mem_map.mp hx
  rcases mem_cons.mp hq with rfl | hq
  · exact Int.le_of_eq (h.refl _)
  · exact (pairwise_cons.mp hg.sorted).1 q hq

theorem Going.next (h : Comparison compareData)
    (hg : Going compareData args0 lists stays (p :: ptr0) ptrs ret)
    (hsplit : p :: ptr0 = run ++ rest)
    (hhead : ∀ q ∈ rest.head?, compareData (args0.pData p) (args0.pData q) < 0)
    (habove : Above compareData (args0.pData p) ((p :: ptr0).map args0.pData) lists ptrs')
    {ret' : HashTable α} (hsettled : Settled args0 ret' stays rest) :
    Going compareData args0 lists stays rest ptrs' ret' := by
  have hsublist : List.Sublist rest (p :: ptr0) := by
    rw [hsplit]
    exact sublist_append_right run rest
  have hsorted := hg.sorted.sublist hsublist
  refine ⟨hg.nodup.sublist hsublist, fun q hq => hg.listed (hsublist.subset hq), hsorted, ?_,
    hsettled⟩
  apply habove _ (map_subset _ hsublist.subset)
  intro x hx
  obtain ⟨q, hq, rfl⟩ := mem_map.mp hx
  cases rest with
  | nil => cases hq
  | cons q₀ rest =>
    have hlt := hhead q₀ rfl
    rcases mem_cons.mp hq with rfl | hq
    · exact hlt
    · exact h.lt_of_lt_of_le hlt ((pairwise_cons.mp hsorted).1 q hq)

theorem Going.deleteAll (hargs0 : args0.Valid args0.buckets)
    (hg : Going compareData args0 lists stays (p :: ptr0) ptrs ret)
    (hsplit : p :: ptr0 = run ++ rest)
    (hgoes : ∀ q ∈ run, stays q = false) :
    ∃ t, args0.deleteAll run ret = some t ∧ Settled args0 t stays rest := by
  have hsettled := hg.settled
  have hnodup := hg.nodup
  have hlisted := hg.listed
  rw [hsplit] at hsettled hnodup hlisted
  exact hsettled.deleteAll hargs0 hnodup (fun q hq => hlisted (mem_append_left rest hq)) hgoes

theorem Going.sameRun (h : Comparison compareData)
    (hg : Going compareData args0 lists stays (p :: ptr0) ptrs ret) :
    ∃ run rest, p :: ptr0 = run ++ rest ∧ p ∈ run ∧
      (∀ q ∈ run, compareData (args0.pData p) (args0.pData q) = 0) ∧
      (∀ q ∈ rest.head?, compareData (args0.pData p) (args0.pData q) < 0) ∧
      skipUntil (differs compareData args0) p ptr0 = rest ∧
      ∀ ret, deleteUntil (differs compareData args0) args0 p ptr0 ret =
        (args0.deleteAll run ret).map fun ret => (rest, ret) := by
  have hnext : ∀ q r, compareData (args0.pData p) (args0.pData q) = 0 →
      differs compareData args0 q r = false →
      compareData (args0.pData p) (args0.pData r) = 0 := by
    intro q r hq hr
    have hqr : compareData (args0.pData q) (args0.pData r) = 0 := by
      simpa [differs] using hr
    exact h.eq_zero_trans hq hqr
  obtain ⟨run, rest, hsplit, hmem, hrun, ⟨last, hlast, hstop⟩, hskip, hdelete⟩ :=
    until_spec args0 hnext (h.refl (args0.pData p)) ptr0
  refine ⟨run, rest, hsplit, hmem, hrun, fun q hq => ?_, hskip, hdelete⟩
  have hne : compareData (args0.pData last) (args0.pData q) ≠ 0 := by
    simpa [differs] using hstop q hq
  have hsorted := hg.sorted
  rw [hsplit] at hsorted
  have hle := (pairwise_append.mp hsorted).2.2 last hlast q (mem_of_mem_head? hq)
  exact h.lt_of_le_of_lt (Int.le_of_eq (hrun last hlast)) (by omega)

theorem Going.lowerRun (h : Comparison compareData) {y : α}
    (hy : compareData (args0.pData p) y < 0) (ptr0 : List BucketPtr) :
    ∃ run rest, p :: ptr0 = run ++ rest ∧ p ∈ run ∧ (∀ q ∈ run, compareData (args0.pData q) y < 0) ∧
      (∀ q ∈ rest.head?, compareData (args0.pData p) (args0.pData q) < 0) ∧
      ∀ ret, deleteUntil (fun _ q => 0 ≤ compareData (args0.pData q) y) args0 p ptr0 ret =
        (args0.deleteAll run ret).map fun ret => (rest, ret) := by
  have hnext : ∀ q r, compareData (args0.pData q) y < 0 →
      decide (0 ≤ compareData (args0.pData r) y) = false → compareData (args0.pData r) y < 0 := by
    intro q r _ hr
    simpa using hr
  obtain ⟨run, rest, hsplit, hmem, hrun, ⟨last, -, hstop⟩, -, hdelete⟩ :=
    until_spec args0 hnext hy ptr0
  refine ⟨run, rest, hsplit, hmem, hrun, fun q hq => ?_, hdelete⟩
  have hge : 0 ≤ compareData (args0.pData q) y := by
    simpa using hstop q hq
  have hpos := h.pos_iff (a := y) (b := args0.pData q)
  exact h.lt_of_lt_of_le hy (by omega)

theorem length_rest_le {run rest : List BucketPtr} (hsplit : p :: ptr0 = run ++ rest)
    (hmem : p ∈ run) {n : Nat} (hn : (p :: ptr0).length ≤ n + 1) : rest.length ≤ n := by
  have hpos := length_pos_of_mem hmem
  rw [hsplit, length_append] at hn
  omega

section

variable (h : Comparison compareData) (hargs0 : args0.Valid args0.buckets)
  (hlists : ∀ all ∈ lists, all.Pairwise (compareData · · ≤ 0))

include h hargs0 hlists

theorem intersectLoop_eq (hstays : ∀ p, stays p = lists.all (isFound compareData (args0.pData p)))
    (n : Nat) {c : Int} (hg : Going compareData args0 lists stays ptr0 ptrs ret)
    (hn : ptr0.length ≤ n) (hc : lists = [] → c = 0) :
    ∃ t, intersectLoop compareData args0 n ptr0 ptrs c ret = some t ∧ Settled args0 t stays [] := by
  induction n generalizing ptr0 ptrs c ret with
  | zero =>
    obtain rfl := length_eq_zero_iff.mp (Nat.le_zero.mp hn)
    exact ⟨ret, by unfold intersectLoop; rfl, hg.settled⟩
  | succ n ih =>
    cases ptr0 with
    | nil => exact ⟨ret, by unfold intersectLoop; rfl, hg.settled⟩
    | cons p ptr0 =>
      obtain ⟨result, c', ptrs', hfor, hmeans, habove⟩ :=
        intersectFor_spec h (hg.head_le h) hlists hg.cursors c
      unfold intersectLoop
      rw [hfor]
      cases result with
      | ended =>
        obtain ⟨all, hall, hnone⟩ := hmeans
        apply hg.deleteAll hargs0 (List.append_nil _).symm
        intro q hq
        rw [hstays, all_eq_false]
        refine ⟨all, hall, ?_⟩
        rw [isFound_eq_false.mpr (hnone _ (mem_map_of_mem hq))]
        exact Bool.false_ne_true
      | broken y =>
        obtain ⟨hc', hy, all, hall, hnone⟩ := hmeans
        obtain ⟨run, rest, hsplit, hmem, hrun, hhead, hdelete⟩ := Going.lowerRun h hy ptr0
        have hgoes : ∀ q ∈ run, stays q = false := by
          intro q hq
          have hlisted : q ∈ p :: ptr0 := hsplit ▸ mem_append_left rest hq
          rw [hstays, all_eq_false]
          refine ⟨all, hall, ?_⟩
          rw [isFound_eq_false.mpr (hnone _ (mem_map_of_mem hlisted) (hrun q hq))]
          exact Bool.false_ne_true
        obtain ⟨t, hdeleted, hsettled⟩ := hg.deleteAll hargs0 hsplit hgoes
        have hlists' : lists = [] → c' = 0 := by
          rintro rfl
          cases hall
        dsimp only
        rw [hdelete, hdeleted, Option.map_some, Option.bind_some]
        exact ih (hg.next h hsplit hhead habove hsettled) (length_rest_le hsplit hmem hn) hlists'
      | through =>
        obtain ⟨hc', hfound⟩ := hmeans
        have hzero : c' = 0 := by
          rw [hc']
          split
          · exact hc ‹_›
          · rfl
        obtain ⟨run, rest, hsplit, hmem, hrun, hhead, hskip, -⟩ := hg.sameRun h
        have hkeeps : ∀ q ∈ run, stays q = true := by
          intro q hq
          rw [hstays, all_eq_true]
          intro all hall
          rw [isFound_congr h (hrun q hq), isFound_iff]
          exact hfound all hall
        have hsettled : Settled args0 ret stays rest := Settled.keep (hsplit ▸ hg.settled) hkeeps
        dsimp only
        rw [if_neg (fun hne => hne hzero), hskip]
        exact ih (hg.next h hsplit hhead habove hsettled) (length_rest_le hsplit hmem hn)
          fun _ => hzero

theorem diffLoop_eq (hstays : ∀ p, stays p = !(lists.any (isFound compareData (args0.pData p))))
    (n : Nat) (hg : Going compareData args0 lists stays ptr0 ptrs ret) (hn : ptr0.length ≤ n) :
    ∃ t, diffLoop compareData args0 n ptr0 ptrs ret = some t ∧ Settled args0 t stays [] := by
  induction n generalizing ptr0 ptrs ret with
  | zero =>
    obtain rfl := length_eq_zero_iff.mp (Nat.le_zero.mp hn)
    exact ⟨ret, by unfold diffLoop; rfl, hg.settled⟩
  | succ n ih =>
    cases ptr0 with
    | nil => exact ⟨ret, by unfold diffLoop; rfl, hg.settled⟩
    | cons p ptr0 =>
      obtain ⟨c, ptrs', hfor, hfound, habove⟩ := diffFor_spec h
        (mem_map_of_mem mem_cons_self) (hg.head_le h) hlists hg.cursors
        (show (1 : Int) ≠ 0 by decide)
      obtain ⟨run, rest, hsplit, hmem, hrun, hhead, hskip, hdelete⟩ := hg.sameRun h
      have hshorter := length_rest_le hsplit hmem hn
      have hsame : ∀ q ∈ run, stays q = !decide (c = 0) := by
        intro q hq
        have hany : lists.any (isFound compareData (args0.pData q)) = decide (c = 0) := by
          rw [Bool.eq_iff_iff, decide_eq_true_iff, hfound, any_eq_true]
          simp only [isFound_congr h (hrun q hq), isFound_iff]
        rw [hstays, hany]
      unfold diffLoop
      rw [hfor]
      dsimp only
      by_cases hc : c = 0
      · have hgoes : ∀ q ∈ run, stays q = false := by
          intro q hq
          rw [hsame q hq, decide_eq_true hc]
          rfl
        obtain ⟨t, hdeleted, hsettled⟩ := hg.deleteAll hargs0 hsplit hgoes
        rw [if_pos hc, hdelete, hdeleted, Option.map_some, Option.bind_some]
        exact ih (hg.next h hsplit hhead habove hsettled) hshorter
      · have hkeeps : ∀ q ∈ run, stays q = true := by
          intro q hq
          rw [hsame q hq, decide_eq_false hc]
          rfl
        have hsettled : Settled args0 ret stays rest := Settled.keep (hsplit ▸ hg.settled) hkeeps
        rw [if_neg hc, hskip]
        exact ih (hg.next h hsplit hhead habove hsettled) hshorter

end

end Going

theorem isFound_entries (ht : HashTable α) (x : α) :
    (ht.entries.any fun e => compareData x e.2 == 0) =
      isFound compareData x (ht.buckets.map ht.pData) := by
  unfold isFound entries
  rw [any_map, any_map]
  rfl

theorem isFound_perm {l l' : List α} (hperm : l.Perm l') (x : α) :
    isFound compareData x l = isFound compareData x l' := by
  rw [Bool.eq_iff_iff, isFound_iff, isFound_iff]
  simp only [hperm.mem_iff]

theorem Settled.entries_eq {args0 t : HashTable α} {stays : BucketPtr → Bool}
    {P : HashKey × α → Bool} (h : Settled args0 t stays [])
    (hstays : ∀ p, stays p = P (args0.key p, args0.pData p)) :
    t.entries = args0.entries.filter P := by
  have hbuckets : t.buckets = args0.buckets.filter stays := by
    rw [h.valid.buckets_eq]
    apply filter_congr
    intro p _
    simp
  have hsame : (args0.buckets.filter stays).map (fun p => (t.key p, t.pData p)) =
      (args0.buckets.filter stays).map fun p => (args0.key p, args0.pData p) := by
    apply map_congr_left
    intro p hp
    have hpsame := h.same p (mem_of_mem_filter hp)
    rw [hpsame.1, hpsame.2]
  unfold entries
  rw [hbuckets, hsame, filter_map]
  congr 1
  apply filter_congr
  exact fun p _ => hstays p

end HashTable

/-- An array with fewer than 2^32 elements, on a machine with 64-bit addresses. -/
structure ArrayArg (α : Type) where
  table : HashTable α
  valid : table.Valid table.buckets
  count : table.buckets.length < uintModulus
  address : ∀ p ∈ table.buckets, p < 2 ^ 64

namespace ArrayArg

variable {α : Type} {compareData : α → α → Int}

def entries (a : ArrayArg α) : List (HashKey × α) := a.table.entries

def Has (compareData : α → α → Int) (x : α) (a : ArrayArg α) : Bool :=
  a.entries.any fun e => compareData x e.2 == 0

theorem sortedBuckets_eq (h : Comparison compareData) (a : ArrayArg α) :
    ∃ list, a.table.sortedBuckets compareData = some list ∧ list.Perm a.table.buckets ∧
      list.Pairwise fun p q => compareData (a.table.pData p) (a.table.pData q) ≤ 0 :=
  HashTable.sortedBuckets_eq h a.valid a.count a.address

theorem sortedData_eq (h : Comparison compareData) (args : List (ArrayArg α)) :
    ∃ lists, HashTable.sortedData compareData (args.map table) = some lists ∧
      (∀ all ∈ lists, all.Pairwise (compareData · · ≤ 0)) ∧
      ∀ x, lists.map (HashTable.isFound compareData x) = args.map (Has compareData x) := by
  induction args with
  | nil => exact ⟨[], rfl, by simp, fun _ => rfl⟩
  | cons a args ih =>
    obtain ⟨list, hlist, hperm, hsorted⟩ := a.sortedBuckets_eq h
    obtain ⟨lists, hlists, hall, hfound⟩ := ih
    refine ⟨list.map a.table.pData :: lists, ?_, ?_, fun x => ?_⟩
    · rw [map_cons]
      unfold HashTable.sortedData
      rw [hlist, Option.bind_some, hlists, Option.map_some]
    · intro all hmem
      rcases mem_cons.mp hmem with rfl | hmem
      · exact pairwise_map.mpr hsorted
      · exact hall all hmem
    · have hhas : a.Has compareData x =
          HashTable.isFound compareData x (list.map a.table.pData) := by
        rw [HashTable.isFound_perm (hperm.map a.table.pData)]
        exact HashTable.isFound_entries a.table x
      rw [map_cons, map_cons, hfound, hhas]

theorem start_eq [Inhabited α] (h : Comparison compareData) (args0 : ArrayArg α)
    (lists : List (List α)) (stays : BucketPtr → Bool) :
    ∃ ptr0 ret, args0.table.sortedBuckets compareData = some ptr0 ∧
      args0.table.copyOf = some ret ∧
      HashTable.Going compareData args0.table lists stays ptr0 lists ret := by
  obtain ⟨ptr0, hlist, hperm, hsorted⟩ := args0.sortedBuckets_eq h
  obtain ⟨ret, hcopy, hvalid, hsame⟩ := args0.valid.zendHashCopy_eq
    (HashTable.valid_zendHashInit args0.table.nNumOfElements true false)
  have hfilter : (args0.table.buckets.filter fun p => decide (p ∈ ptr0) || stays p) =
      args0.table.buckets := by
    apply filter_eq_self.mpr
    intro p hp
    simp [hperm.mem_iff.mpr hp]
  refine ⟨ptr0, ret, hlist, hcopy, hperm.nodup_iff.mpr args0.valid.list.nodup, hperm.subset,
    hsorted, ?_, hfilter.symm ▸ hvalid, hsame⟩
  exact forall₂_same.mpr fun all _ => Cursor.start compareData _ all

theorem intersect_eq [Inhabited α] (h : Comparison compareData) (args0 : ArrayArg α)
    (args : List (ArrayArg α)) :
    ∃ ret, args0.table.phpArrayIntersect compareData (args.map table) = some ret ∧
      ret.entries = args0.entries.filter fun e => args.all (Has compareData e.2) := by
  obtain ⟨lists, hdata, hlists, hfound⟩ := sortedData_eq h args
  obtain ⟨ptr0, ret, hlist, hcopy, hgoing⟩ := args0.start_eq h lists fun p =>
    lists.all (HashTable.isFound compareData (args0.table.pData p))
  obtain ⟨t, hloop, hsettled⟩ := HashTable.intersectLoop_eq h args0.valid hlists (fun _ => rfl)
    ptr0.length hgoing (Nat.le_refl _) fun _ => rfl
  refine ⟨t, ?_, hsettled.entries_eq fun p => ?_⟩
  · unfold HashTable.phpArrayIntersect
    rw [hlist, Option.bind_some, hdata, Option.bind_some, hcopy, Option.bind_some, hloop]
  · have hall := congrArg (List.all · id) (hfound (args0.table.pData p))
    rwa [all_map, all_map] at hall

theorem diff_eq [Inhabited α] (h : Comparison compareData) (args0 : ArrayArg α)
    (args : List (ArrayArg α)) :
    ∃ ret, args0.table.phpArrayDiff compareData (args.map table) = some ret ∧
      ret.entries = args0.entries.filter fun e => !(args.any (Has compareData e.2)) := by
  obtain ⟨lists, hdata, hlists, hfound⟩ := sortedData_eq h args
  obtain ⟨ptr0, ret, hlist, hcopy, hgoing⟩ := args0.start_eq h lists fun p =>
    !(lists.any (HashTable.isFound compareData (args0.table.pData p)))
  obtain ⟨t, hloop, hsettled⟩ := HashTable.diffLoop_eq h args0.valid hlists (fun _ => rfl)
    ptr0.length hgoing (Nat.le_refl _)
  refine ⟨t, ?_, hsettled.entries_eq fun p => ?_⟩
  · unfold HashTable.phpArrayDiff
    rw [hlist, Option.bind_some, hdata, Option.bind_some, hcopy, Option.bind_some, hloop]
  · have hany := congrArg (any · id) (hfound (args0.table.pData p))
    rw [any_map, any_map] at hany
    exact congrArg (!·) hany

/-- The result is the entries of the first array whose value compares equal to some value in every
    other array, and in none of them. -/
theorem intersect_and_diff [Inhabited α] (h : Comparison compareData) (args0 : ArrayArg α)
    (args : List (ArrayArg α)) :
    (∃ ret, args0.table.phpArrayIntersect compareData (args.map table) = some ret ∧
        ret.entries = args0.entries.filter fun e => args.all (Has compareData e.2)) ∧
      ∃ ret, args0.table.phpArrayDiff compareData (args.map table) = some ret ∧
        ret.entries = args0.entries.filter fun e => !(args.any (Has compareData e.2)) :=
  ⟨intersect_eq h args0 args, diff_eq h args0 args⟩

/-- The array of two values, with the keys 0 and 1. -/
def pair (x y : Int) : ArrayArg Int :=
  let one := (zendHashInit Int 2 true false).insertBucket 0 [] 0 x
  have hone : one.Valid ([] ++ [0]) :=
    (HashTable.valid_zendHashInit 2 true false).insert (by simp) (by simp) (by simp) x
  have hkey : HashKey.ofArKey [] 1 ∉ ([] ++ [0]).map one.key := by
    rw [List.nil_append, List.map_singleton, HashTable.key_insertBucket_self]
    decide
  have htwo : (one.insertBucket 1 [] 1 y).Valid [0, 1] := hone.insert (by simp) (by simp) hkey y
  have hbuckets : (one.insertBucket 1 [] 1 y).buckets = [0, 1] := htwo.buckets_eq
  { table := one.insertBucket 1 [] 1 y
    valid := hbuckets.symm ▸ htwo
    count := by rw [hbuckets]; decide
    address := by rw [hbuckets]; decide }

theorem intersect_and_diff_pairs :
    (∃ ret, (pair 3 1).table.phpArrayIntersect (· - ·) ([pair 3 3, pair 2 3].map table) = some ret ∧
        ret.entries = [(.index 0, 3)]) ∧
      ∃ ret, (pair 3 1).table.phpArrayDiff (· - ·) ([pair 3 3, pair 2 3].map table) = some ret ∧
        ret.entries = [(.index 1, 1)] := by
  have hcomparison : Comparison fun a b : Int => a - b := by
    constructor
    · intro a b
      rw [← Int.sign_neg, Int.neg_sub]
    · intro a b c hab hbc
      omega
  obtain ⟨⟨kept, hkept, hkeptEntries⟩, ⟨left, hleft, hleftEntries⟩⟩ :=
    intersect_and_diff hcomparison (pair 3 1) [pair 3 3, pair 2 3]
  refine ⟨⟨kept, hkept, ?_⟩, ⟨left, hleft, ?_⟩⟩
  · rw [hkeptEntries]
    decide
  · rw [hleftEntries]
    decide

end ArrayArg

end Php53.Zend
