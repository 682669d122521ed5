import Php53.Reasoning.BitTrieWalks
import Php53.Zend.Alloc.Surgery

/-!
# Search — `zend_mm_search_large_block`

The search follows the bits of the requested size through the trie of its own bucket, then walks
through the last right subtree it left aside, and if nothing fits it walks through the trie of the
next bucket that is not empty.  The two walks go from a block to `child[child[0] != NULL]`: to the
right child of a block with a left one, and from a block without a left child to the null pointer
in its place.  A result `none` stands for a step through a null pointer or a shift by 64 or more.
-/

open Reasoning Reasoning.BitTrie

namespace Php53.Zend.MmHeap

open List

variable {B : Type}

/-- `best_size` and `best_fit`. -/
abbrev Best (B : Type) : Type := BitVec 64 × Option B

/-- The first loop: a block of the size looked for, or `rst` and the best block on the way. -/
def searchLoop (h : MmHeap B) (trueSize : BitVec 64) :
    ℕ → BitVec 64 → B → Option B → Best B → Option (B ⊕ Option B × Best B)
  | 0, _, _, _, _ => none
  | fuel + 1, m, p, rst, best =>
      if h.size p = trueSize then some (.inl p)
      else
        let best := if trueSize ≤ h.size p ∧ h.size p < best.1 then (h.size p, some p) else best
        if m &&& (1#64 <<< (zendMmNumBuckets - 1)) = 0 then
          let rst := (h.slots (.child p true)).or rst
          match h.slots (.child p false) with
          | some c => searchLoop h trueSize fuel (m <<< 1) c rst best
          | none => some (.inr (rst, best))
        else
          match h.slots (.child p true) with
          | some c => searchLoop h trueSize fuel (m <<< 1) c rst best
          | none => some (.inr (rst, best))

/-- `p->child[p->child[0] != NULL]` -/
def walkChild (h : MmHeap B) (p : B) : Option B :=
  h.slots (.child p (h.slots (.child p false)).isSome)

/-- The second loop, over the subtree `rst`. -/
def restLoop (h : MmHeap B) (trueSize : BitVec 64) : ℕ → Option B → Best B → Option (B ⊕ Best B)
  | 0, _, _ => none
  | _ + 1, none, best => some (.inr best)
  | fuel + 1, some p, best =>
      if h.size p = trueSize then some (.inl p)
      else
        let best := if trueSize < h.size p ∧ h.size p < best.1 then (h.size p, some p) else best
        restLoop h trueSize fuel (h.walkChild p) best

def smallestLoop (h : MmHeap B) : ℕ → B → B → Option B
  | 0, _, _ => none
  | fuel + 1, p, bestFit =>
      match h.walkChild p with
      | none => some bestFit
      | some p => smallestLoop h fuel p (if h.size p < h.size bestFit then p else bestFit)

/-- Search for the smallest "large" free block of the buckets from `index` up. -/
def searchSmallest (h : MmHeap B) (index : ℕ) (bitmap : BitVec 64) : Option (Option (FreePtr B)) :=
  match h.slots (.root (index + zendMmLowBit bitmap)) with
  | none => none
  | some p => (h.smallestLoop (zendMmNumBuckets + 1) p p).map fun bestFit =>
      some (h.nextFreeBlock (.block bestFit))

def zendMmSearchLargeBlock (h : MmHeap B) (trueSize : BitVec 64) : Option (Option (FreePtr B)) :=
  let index := zendMmLargeBucketIndex trueSize
  if zendMmNumBuckets ≤ index then none
  else
    let bitmap := h.largeFreeBitmap >>> index
    if bitmap = 0 then some none
    else if bitmap &&& 1 ≠ 0 then
      match h.slots (.root index) with
      | none => none
      | some p =>
          let m := trueSize <<< (zendMmNumBuckets - index)
          (h.searchLoop trueSize zendMmNumBuckets m p none (-1, none)).bind fun
            | .inl p => some (some (h.nextFreeBlock (.block p)))
            | .inr (rst, best) =>
                (h.restLoop trueSize (zendMmNumBuckets + 1) rst best).bind fun
                  | .inl p => some (some (h.nextFreeBlock (.block p)))
                  | .inr (_, some bestFit) => some (some (h.nextFreeBlock (.block bestFit)))
                  | .inr (_, none) =>
                      let bitmap := bitmap >>> 1
                      if bitmap = 0 then some none else h.searchSmallest (index + 1) bitmap
    else h.searchSmallest index bitmap

/-- What the two comparisons make of one block, `trueSize` itself having been ruled out. -/
def pick (h : MmHeap B) (trueSize : BitVec 64) (best : Best B) (p : B) : Best B :=
  if trueSize ≤ h.size p ∧ h.size p < best.1 then (h.size p, some p) else best

/-- `best` is the smallest of the blocks that fit. -/
def IsBest (h : MmHeap B) (trueSize : BitVec 64) (seen : List B) : Best B → Prop
  | (size, none) => size = -1 ∧ ∀ y ∈ seen, ¬ trueSize ≤ h.size y
  | (size, some x) => x ∈ seen ∧ size = h.size x ∧ trueSize ≤ h.size x ∧
      ∀ y ∈ seen, trueSize ≤ h.size y → h.size x ≤ h.size y

variable {h : MmHeap B} {trueSize : BitVec 64} {best : Best B}

theorem IsBest.pick {seen : List B} (hb : IsBest h trueSize seen best) {p : B}
    (hp : h.size p ≠ -1) : IsBest h trueSize (seen ++ [p]) (h.pick trueSize best p) := by
  obtain ⟨size, fit⟩ := best
  unfold MmHeap.pick
  cases fit with
  | none =>
    obtain ⟨rfl, hnone⟩ := hb
    by_cases hfit : trueSize ≤ h.size p
    · have hlt : h.size p < -1 := by
        have hne : (h.size p).toNat ≠ 2 ^ 64 - 1 := fun he => hp (BitVec.eq_of_toNat_eq he)
        have hlt := (h.size p).isLt
        rw [BitVec.lt_def]
        show (h.size p).toNat < 2 ^ 64 - 1
        omega
      rw [if_pos ⟨hfit, hlt⟩]
      refine ⟨by simp, rfl, hfit, ?_⟩
      intro y hy hfy
      rcases mem_append.mp hy with hy | hy
      · exact absurd hfy (hnone y hy)
      · rw [mem_singleton.mp hy]
        exact BitVec.le_refl _
    · rw [if_neg fun hc => hfit hc.1]
      refine ⟨rfl, ?_⟩
      intro y hy
      rcases mem_append.mp hy with hy | hy
      · exact hnone y hy
      · rw [mem_singleton.mp hy]
        exact hfit
  | some x =>
    obtain ⟨hx, rfl, hfx, hmin⟩ := hb
    by_cases hc : trueSize ≤ h.size p ∧ h.size p < h.size x
    · rw [if_pos hc]
      refine ⟨by simp, rfl, hc.1, ?_⟩
      intro y hy hfy
      rcases mem_append.mp hy with hy | hy
      · exact BitVec.le_trans (BitVec.le_of_lt hc.2) (hmin y hy hfy)
      · rw [mem_singleton.mp hy]
        exact BitVec.le_refl _
    · rw [if_neg hc]
      refine ⟨by simp [hx], rfl, hfx, ?_⟩
      intro y hy hfy
      rcases mem_append.mp hy with hy | hy
      · exact hmin y hy hfy
      · obtain rfl := mem_singleton.mp hy
        exact BitVec.not_lt.mp fun hlt => hc ⟨hfy, hlt⟩

theorem IsBest.foldl {seen l : List B} (hb : IsBest h trueSize seen best)
    (hl : ∀ p ∈ l, h.size p ≠ -1) :
    IsBest h trueSize (seen ++ l) (l.foldl (h.pick trueSize) best) := by
  induction l generalizing seen best with
  | nil => simpa using hb
  | cons p l ih =>
    have hp := hb.pick (hl p mem_cons_self)
    have := ih hp fun q hq => hl q (mem_cons_of_mem p hq)
    simpa using this

variable {t : BitTrie B} {p : Slot ℕ B} {fuel : ℕ} {x : B}

theorem slot_eq_root? (hrep : Rep h.slots h.parent p t) : h.slots p = t.root? := by
  cases t with
  | empty => exact hrep
  | node x rest left right => exact hrep.1

theorem rep_of_within {u : BitTrie B} (hu : Within u t) (hrep : Rep h.slots h.parent p t) :
    ∃ q, Rep h.slots h.parent q u := by
  induction t generalizing p with
  | empty =>
    rw [show u = .empty from hu]
    exact ⟨p, hrep⟩
  | node x rest left right ihl ihr =>
    rcases hu with rfl | hu | hu
    · exact ⟨p, hrep⟩
    · exact ihl hu hrep.2.2.2.1
    · exact ihr hu hrep.2.2.2.2

theorem searchLoop_here {m : BitVec 64} {rst : Option B} (hx : h.size x = trueSize) :
    h.searchLoop trueSize (fuel + 1) m x rst best = some (.inl x) := by
  unfold searchLoop
  rw [if_pos hx]

theorem searchLoop_step {m : BitVec 64} {rst : Option B} {side : Bool} (hx : h.size x ≠ trueSize)
    (hm : m &&& (1#64 <<< (zendMmNumBuckets - 1)) = 0 ↔ side = false) :
    h.searchLoop trueSize (fuel + 1) m x rst best =
      let rst := if side then rst else (h.slots (.child x true)).or rst
      match h.slots (.child x side) with
      | some c => h.searchLoop trueSize fuel (m <<< 1) c rst (h.pick trueSize best x)
      | none => some (.inr (rst, h.pick trueSize best x)) := by
  rw [searchLoop, if_neg hx]
  cases side with
  | false =>
    simp only [hm.mpr rfl, if_true]
    rfl
  | true =>
    have hm' : ¬ m &&& (1#64 <<< (zendMmNumBuckets - 1)) = 0 := fun he => nomatch hm.mp he
    simp only [hm', if_false]
    rfl

theorem searchLoop_eq {k pfx : ℕ} (hrep : Rep h.slots h.parent p t) (hx : t.root? = some x)
    (hord : Ordered h.key k pfx t) (hn : trueSize.toNat / 2 ^ k = pfx) (hk : k < 64)
    (hfuel : k < fuel) (u : BitTrie B) (best : Best B) :
    (∃ y ∈ way h.key trueSize.toNat k t, h.size y = trueSize ∧
      h.searchLoop trueSize fuel (trueSize <<< (64 - k)) x u.root? best = some (.inl y)) ∨
    (∀ y ∈ way h.key trueSize.toNat k t, h.key y ≠ trueSize.toNat) ∧
      h.searchLoop trueSize fuel (trueSize <<< (64 - k)) x u.root? best =
        some (.inr ((aside h.key trueSize.toNat k t u).root?,
          (way h.key trueSize.toNat k t).foldl (h.pick trueSize) best)) := by
  induction t generalizing k pfx p x fuel u best with
  | empty => exact nomatch hx
  | node z rest left right ihl ihr =>
    obtain rfl := Option.some.inj hx
    obtain ⟨hz, -, -, hzero, hl, hr⟩ := hord
    obtain ⟨hsz, -, -, hrl, hrr⟩ := hrep
    obtain ⟨fuel, rfl⟩ : ∃ n, fuel = n + 1 := ⟨fuel - 1, by omega⟩
    by_cases hkey : h.key z = trueSize.toNat
    · have hsize : h.size z = trueSize := BitVec.eq_of_toNat_eq hkey
      exact Or.inl ⟨z, mem_cons_self, hsize, searchLoop_here hsize⟩
    · have hsize : h.size z ≠ trueSize := fun he => hkey (congrArg BitVec.toNat he)
      have hk0 : k ≠ 0 := by
        intro hk0
        subst hk0
        simp only [Nat.pow_zero, Nat.div_one] at hz hn
        exact hkey (hz.trans hn.symm)
      have hbits := div_two_pow_pred (n := trueSize.toNat) hk0
      rw [hn] at hbits
      rw [searchLoop_step hsize (shiftLeft_mask trueSize hk0 (by omega)),
        shiftLeft_next _ hk0 (by omega)]
      unfold way aside
      rw [if_neg hkey, if_neg hkey]
      cases hside : trueSize.toNat.testBit (k - 1) with
      | true =>
        rw [hside] at hbits
        simp only [if_true, slot_eq_root? hrr]
        cases hroot : right.root? with
        | none =>
          obtain rfl := root?_eq_none.mp hroot
          right
          exact ⟨by simpa [way] using hkey, by simp [way, aside]⟩
        | some c =>
          rcases ihr hrr hroot hr hbits (by omega) (show k - 1 < fuel by omega) u
            (h.pick trueSize best z) with ⟨y, hy, hys, hloop⟩ | ⟨hmiss, hloop⟩
          · exact Or.inl ⟨y, mem_cons_of_mem z hy, hys, hloop⟩
          · right
            refine ⟨?_, hloop⟩
            intro y hy
            rcases mem_cons.mp hy with rfl | hy
            · exact hkey
            · exact hmiss y hy
      | false =>
        rw [hside] at hbits
        simp only [Bool.false_eq_true, if_false, slot_eq_root? hrr, slot_eq_root? hrl]
        -- the right subtree becomes the one left aside, if there is one
        have hrst : right.root?.or u.root? = (if right.isEmpty then u else right).root? := by
          cases right with
          | empty => rfl
          | node y s l r => rfl
        rw [hrst]
        cases hroot : left.root? with
        | none =>
          obtain rfl := root?_eq_none.mp hroot
          right
          exact ⟨by simpa [way] using hkey, by simp [way, aside]⟩
        | some c =>
          rcases ihl hrl hroot hl hbits (by omega) (show k - 1 < fuel by omega)
            (if right.isEmpty then u else right) (h.pick trueSize best z) with
            ⟨y, hy, hys, hloop⟩ | ⟨hmiss, hloop⟩
          · exact Or.inl ⟨y, mem_cons_of_mem z hy, hys, hloop⟩
          · right
            refine ⟨?_, hloop⟩
            intro y hy
            rcases mem_cons.mp hy with rfl | hy
            · exact hkey
            · exact hmiss y hy

theorem walkChild_eq {rest : List B} {left right : BitTrie B}
    (hrep : Rep h.slots h.parent p (.node x rest left right)) :
    h.walkChild x = if left.isEmpty then none else right.root? := by
  obtain ⟨-, -, -, hrl, hrr⟩ := hrep
  unfold walkChild
  rw [hrl.slot_isSome]
  cases left with
  | empty => exact hrl
  | node y s l r => exact slot_eq_root? hrr

theorem restLoop_eq {k pfx : ℕ} (hrep : Rep h.slots h.parent p t) (hord : Ordered h.key k pfx t)
    (hlt : ∀ z ∈ t.blocks, trueSize.toNat < h.key z) (hfuel : k + 1 < fuel) (best : Best B) :
    h.restLoop trueSize fuel t.root? best =
      some (.inr (t.spine.foldl (h.pick trueSize) best)) := by
  induction t generalizing k pfx p fuel best with
  | empty =>
    obtain ⟨fuel, rfl⟩ : ∃ n, fuel = n + 1 := ⟨fuel - 1, by omega⟩
    rfl
  | node x rest left right _ ihr =>
    obtain ⟨fuel, rfl⟩ : ∃ n, fuel = n + 1 := ⟨fuel - 1, by omega⟩
    have hx := hlt x (by simp)
    have hne : h.size x ≠ trueSize := by
      intro he
      rw [← he] at hx
      exact Nat.lt_irrefl _ hx
    have hlt' : trueSize < h.size x := BitVec.lt_def.mpr hx
    have hpick : (if trueSize < h.size x ∧ h.size x < best.1 then (h.size x, some x) else best) =
        h.pick trueSize best x := by
      unfold pick
      simp only [hlt', BitVec.le_of_lt hlt', true_and]
    show h.restLoop trueSize (fuel + 1) (some x) best = _
    rw [restLoop, if_neg hne, hpick]
    simp only
    rw [walkChild_eq hrep]
    unfold spine
    obtain ⟨-, -, -, hzero, -, hr⟩ := hord
    obtain ⟨-, -, -, -, hrr⟩ := hrep
    cases hl : left.isEmpty with
    | true =>
      obtain ⟨fuel, rfl⟩ : ∃ n, fuel = n + 1 := ⟨fuel - 1, by omega⟩
      rfl
    | false =>
      have hk : k ≠ 0 := by
        intro hk
        rw [(hzero hk).1] at hl
        cases hl
      simp only [Bool.false_eq_true, if_false, foldl_cons]
      exact ihr hrr hr (fun z hz => hlt z (right_subset x rest left right hz)) (by omega) _

theorem smallestLoop_eq {k pfx : ℕ} (hrep : Rep h.slots h.parent p t) (hx : t.root? = some x)
    (hord : Ordered h.key k pfx t) (hfuel : k < fuel) (bestFit : B)
    (hbest : h.size bestFit ≤ h.size x) :
    ∃ y, h.smallestLoop fuel x bestFit = some y ∧ (y = bestFit ∨ y ∈ t.spine) ∧
      h.size y ≤ h.size bestFit ∧ ∀ z ∈ t.spine, h.size y ≤ h.size z := by
  induction t generalizing k pfx p x fuel bestFit with
  | empty => cases hx
  | node z rest left right _ ihr =>
    obtain rfl := Option.some.inj hx
    obtain ⟨fuel, rfl⟩ : ∃ n, fuel = n + 1 := ⟨fuel - 1, by omega⟩
    unfold smallestLoop
    rw [walkChild_eq hrep]
    unfold spine
    obtain ⟨-, -, -, hzero, -, hr⟩ := hord
    obtain ⟨-, -, -, -, hrr⟩ := hrep
    cases hl : left.isEmpty with
    | true =>
      refine ⟨bestFit, rfl, Or.inl rfl, BitVec.le_refl _, ?_⟩
      intro y hy
      rw [if_pos rfl, mem_singleton] at hy
      rw [hy]
      exact hbest
    | false =>
      have hk : k ≠ 0 := by
        intro hk
        rw [(hzero hk).1] at hl
        cases hl
      simp only [Bool.false_eq_true, if_false]
      cases hroot : right.root? with
      | none =>
        obtain rfl := root?_eq_none.mp hroot
        refine ⟨bestFit, rfl, Or.inl rfl, BitVec.le_refl _, ?_⟩
        intro y hy
        simp only [spine, mem_singleton] at hy
        rw [hy]
        exact hbest
      | some c =>
        have hstep : ∃ next, (if h.size c < h.size bestFit then c else bestFit) = next ∧
            h.size next ≤ h.size c ∧ h.size next ≤ h.size bestFit ∧
            (next = bestFit ∨ next = c) := by
          by_cases hc : h.size c < h.size bestFit
          · exact ⟨c, if_pos hc, BitVec.le_refl _, BitVec.le_of_lt hc, Or.inr rfl⟩
          · exact ⟨bestFit, if_neg hc, BitVec.not_lt.mp hc, BitVec.le_refl _, Or.inl rfl⟩
        obtain ⟨next, hnext, hnc, hnb, hor⟩ := hstep
        obtain ⟨y, hloop, hy, hyn, hmin⟩ := ihr hrr hroot hr
          (show k - 1 < fuel by omega) next hnc
        simp only
        rw [hnext]
        refine ⟨y, hloop, ?_, BitVec.le_trans hyn hnb, ?_⟩
        · rcases hy with rfl | hy
          · rcases hor with rfl | rfl
            · exact Or.inl rfl
            · exact Or.inr (mem_cons_of_mem z (root?_mem_spine hroot))
          · exact Or.inr (mem_cons_of_mem z hy)
        · intro w hw
          rcases mem_cons.mp hw with rfl | hw
          · exact BitVec.le_trans hyn (BitVec.le_trans hnb hbest)
          · exact hmin w hw

end Php53.Zend.MmHeap
