import Php53.Reasoning.BinaryHeap

/-!
# Segments — sorting by cutting at pivots

While an array is sorted, some segments of it are still to be sorted, and two elements that are not
in one of them are in order already.  Cutting a segment at a pivot keeps that, and when no segment
is left the array is sorted.  A segment `(lo, hi)` is the places from `lo` up to `hi`.
-/

namespace Reasoning

open List

variable {α : Type} {l : List α} {l' : List α}

def AllIn (P : α → Prop) (l : List α) (lo hi : Nat) : Prop :=
  ∀ k x, lo ≤ k → k < hi → l[k]? = some x → P x

theorem allIn_empty (P : α → Prop) (l : List α) (lo : Nat) : AllIn P l lo lo := by
  intro k x hlo hhi
  omega

theorem AllIn.append {P : α → Prop} {lo mid hi : Nat} (h : AllIn P l lo mid)
    (h' : AllIn P l mid hi) : AllIn P l lo hi := by
  intro k x hlo hhi hx
  by_cases hk : k < mid
  · exact h k x hlo hk hx
  · exact h' k x (by omega) hhi hx

theorem AllIn.single {P : α → Prop} {k : Nat} {x : α} (hx : l[k]? = some x) (h : P x) :
    AllIn P l k (k + 1) := by
  intro i y hlo hhi hy
  obtain rfl : i = k := by omega
  rw [hx] at hy
  exact Option.some.inj hy ▸ h

/-- The elements of a range in another order. -/
structure PermIn (lo hi : Nat) (l l' : List α) : Prop where
  perm : l'.Perm l
  outside : ∀ k, k < lo ∨ hi ≤ k → l'[k]? = l[k]?
  inside : ∀ k, lo ≤ k → k < hi → ∃ k', lo ≤ k' ∧ k' < hi ∧ l'[k]? = l[k']?

theorem PermIn.refl (lo hi : Nat) (l : List α) : PermIn lo hi l l :=
  ⟨.refl _, fun _ _ => rfl, fun k hlo hhi => ⟨k, hlo, hhi, rfl⟩⟩

theorem PermIn.trans {lo hi : Nat} {l'' : List α} (h : PermIn lo hi l l')
    (h' : PermIn lo hi l' l'') : PermIn lo hi l l'' where
  perm := h'.perm.trans h.perm
  outside k hk := (h'.outside k hk).trans (h.outside k hk)
  inside := by
    intro k hlo hhi
    obtain ⟨k', hlo', hhi', heq'⟩ := h'.inside k hlo hhi
    obtain ⟨k'', hlo'', hhi'', heq''⟩ := h.inside k' hlo' hhi'
    exact ⟨k'', hlo'', hhi'', heq'.trans heq''⟩

theorem PermIn.mono {lo lo' hi hi' : Nat} (h : PermIn lo' hi' l l') (hlo : lo ≤ lo')
    (hhi : hi' ≤ hi) : PermIn lo hi l l' where
  perm := h.perm
  outside k hk := h.outside k (by omega)
  inside := by
    intro k hk hk'
    by_cases hin : lo' ≤ k ∧ k < hi'
    · obtain ⟨k', h₁, h₂, heq⟩ := h.inside k hin.1 hin.2
      exact ⟨k', by omega, by omega, heq⟩
    · exact ⟨k, hk, hk', h.outside k (by omega)⟩

theorem PermIn.length_eq {lo hi : Nat} (h : PermIn lo hi l l') :
    l'.length = l.length :=
  h.perm.length_eq

theorem PermIn.swapped {lo hi i j : Nat} {x y : α} (hi' : l[i]? = some x) (hj : l[j]? = some y)
    (hlo : lo ≤ i ∧ lo ≤ j) (hhi : i < hi ∧ j < hi) :
    PermIn lo hi l (swapped l i j x y) where
  perm := swapped_perm hi' hj
  outside := by
    intro k hk
    rw [getElem?_swapped hi' hj, if_neg (by omega), if_neg (by omega)]
  inside := by
    intro k hk hk'
    rw [getElem?_swapped hi' hj]
    by_cases hkj : k = j
    · exact ⟨i, hlo.1, hhi.1, by rw [if_pos hkj, hi']⟩
    · by_cases hki : k = i
      · exact ⟨j, hlo.2, hhi.2, by rw [if_neg hkj, if_pos hki, hj]⟩
      · exact ⟨k, hk, hk', by rw [if_neg hkj, if_neg hki]⟩

def Apart (le : α → α → Prop) (segs : List (Nat × Nat)) (l : List α) : Prop :=
  ∀ i j x y, i < j → l[i]? = some x → l[j]? = some y →
    (∃ seg ∈ segs, seg.1 ≤ i ∧ j < seg.2) ∨ le x y

variable {le : α → α → Prop}

theorem apart_whole (le : α → α → Prop) (l : List α) : Apart le [(0, l.length)] l := by
  intro i j x y hij hx hy
  have hj := (List.getElem?_eq_some_iff.mp hy).1
  exact .inl ⟨_, mem_singleton_self _, Nat.zero_le _, hj⟩

theorem Apart.sorted (h : Apart le [] l) : l.Pairwise le := by
  rw [pairwise_iff_getElem]
  intro i j hi hj hij
  rcases h i j _ _ hij (List.getElem?_eq_getElem hi) (List.getElem?_eq_getElem hj) with ⟨seg, hseg, -⟩ | hle
  · exact nomatch hseg
  · exact hle

theorem Apart.mono {segs segs' : List (Nat × Nat)} (h : Apart le segs l)
    (hsub : ∀ seg ∈ segs, seg ∈ segs' ∨ seg.2 ≤ seg.1 + 1) : Apart le segs' l := by
  intro i j x y hij hx hy
  rcases h i j x y hij hx hy with ⟨seg, hseg, hlo, hhi⟩ | hle
  · rcases hsub seg hseg with hmem | hsmall
    · exact .inl ⟨seg, hmem, hlo, hhi⟩
    · omega
  · exact .inr hle

def NoOverlap (seg seg' : Nat × Nat) : Prop := seg.2 ≤ seg'.1 ∨ seg'.2 ≤ seg.1

theorem Apart.cut {segs : List (Nat × Nat)} {lo hi p : Nat} {pivot : α} [IsTrans α le]
    (h : Apart le ((lo, hi) :: segs) l) (hdisjoint : ∀ seg ∈ segs, NoOverlap (lo, hi) seg)
    (hperm : PermIn lo hi l l') (hlo : lo ≤ p) (hhi : p < hi) (hpivot : l'[p]? = some pivot)
    (hbelow : AllIn (le · pivot) l' lo p)
    (habove : AllIn (le pivot) l' (p + 1) hi) : Apart le ((lo, p) :: (p + 1, hi) :: segs) l' := by
  -- an element inside and one outside were in order, whichever element of the segment it was
  have hcross : ∀ i j x y, i < j → l[i]? = some x → l[j]? = some y →
      ¬ (lo ≤ i ∧ j < hi) → (lo ≤ i ∧ i < hi ∨ lo ≤ j ∧ j < hi) → le x y := by
    intro i j x y hij hx hy hout hin
    rcases h i j x y hij hx hy with ⟨seg, hseg, hsegLo, hsegHi⟩ | hle
    · exfalso
      rcases mem_cons.mp hseg with rfl | hseg
      · exact hout ⟨hsegLo, hsegHi⟩
      · have hdis := hdisjoint seg hseg
        simp only [NoOverlap] at hdis
        omega
    · exact hle
  intro i j x y hij hx hy
  by_cases hiIn : lo ≤ i ∧ i < hi
  · by_cases hjIn : j < hi
    · by_cases hjp : j < p
      · exact .inl ⟨(lo, p), by simp, hiIn.1, hjp⟩
      · by_cases hip : p < i
        · exact .inl ⟨(p + 1, hi), by simp, hip, hjIn⟩
        · -- the pivot is between them
          right
          rcases Nat.lt_or_eq_of_le (Nat.le_of_not_lt hip) with hlt | rfl
          · have hxp := hbelow i x hiIn.1 hlt hx
            rcases Nat.lt_or_eq_of_le (Nat.le_of_not_lt hjp) with hlt' | rfl
            · exact IsTrans.trans x pivot y hxp (habove j y hlt' hjIn hy)
            · obtain rfl := Option.some.inj (hpivot.symm.trans hy)
              exact hxp
          · obtain rfl := Option.some.inj (hpivot.symm.trans hx)
            exact habove j y hij hjIn hy
    · obtain ⟨i', hi', hi'', heq⟩ := hperm.inside i hiIn.1 hiIn.2
      rw [hperm.outside j (by omega)] at hy
      exact .inr (hcross i' j x y (by omega) (heq.symm.trans hx) hy (by omega) (by omega))
  · rw [hperm.outside i (by omega)] at hx
    by_cases hjIn : lo ≤ j ∧ j < hi
    · obtain ⟨j', hj', hj'', heq⟩ := hperm.inside j hjIn.1 hjIn.2
      exact .inr (hcross i j' x y (by omega) hx (heq.symm.trans hy) (by omega) (by omega))
    · rw [hperm.outside j (by omega)] at hy
      rcases h i j x y hij hx hy with ⟨seg, hseg, hsegLo, hsegHi⟩ | hle
      · rcases mem_cons.mp hseg with rfl | hseg
        · dsimp only at hsegLo hsegHi
          omega
        · exact .inl ⟨seg, by simp [hseg], hsegLo, hsegHi⟩
      · exact .inr hle

theorem length_lt_of_halving {n bits size waiting : Nat} (hn : n < 2 ^ bits) (hsize : 0 < size)
    (h : size * 2 ^ waiting ≤ n) : waiting < bits := by
  by_contra hge
  have hpow : 2 ^ bits ≤ 2 ^ waiting := Nat.pow_le_pow_right (by decide) (Nat.le_of_not_lt hge)
  have hmul : 1 * 2 ^ waiting ≤ size * 2 ^ waiting := Nat.mul_le_mul_right _ hsize
  omega

theorem halving_step {n size part waiting : Nat} (h : size * 2 ^ waiting ≤ n)
    (hpart : 2 * part ≤ size) : part * 2 ^ (waiting + 1) ≤ n := by
  have hmul : part * 2 ^ (waiting + 1) = 2 * part * 2 ^ waiting := by
    rw [Nat.pow_succ, Nat.mul_comm (2 ^ waiting) 2, ← Nat.mul_assoc, Nat.mul_comm part 2]
  rw [hmul]
  exact Nat.le_trans (Nat.mul_le_mul_right _ hpart) h

def Halving (n : Nat) : List (Nat × Nat) → Prop
  | [] => True
  | seg :: segs => (seg.2 - seg.1) * 2 ^ segs.length ≤ n ∧ Halving n segs

/-- Segments of an array of `n` elements: the first one is being sorted, and the others wait. -/
structure Pending (n : Nat) (seg : Nat × Nat) (segs : List (Nat × Nat)) : Prop where
  range : ∀ g ∈ seg :: segs, g.1 ≤ g.2 ∧ g.2 ≤ n
  apart : (seg :: segs).Pairwise NoOverlap
  halving : Halving n (seg :: segs)

theorem pending_whole (n : Nat) : Pending n (0, n) [] where
  range := by simp
  apart := pairwise_singleton _ _
  halving := ⟨by simp, trivial⟩

/-- The parts into which a segment is cut at `p`. -/
def Parts (lo p hi : Nat) (next other : Nat × Nat) : Prop :=
  next = (lo, p) ∧ other = (p + 1, hi) ∨ next = (p + 1, hi) ∧ other = (lo, p)

variable {n lo p hi : Nat} {next other : Nat × Nat} {segs : List (Nat × Nat)}

theorem Parts.size (h : Parts lo p hi next other) (hlo : lo ≤ p) (hhi : p < hi) :
    (next.2 - next.1) + (other.2 - other.1) + 1 = hi - lo := by
  rcases h with ⟨rfl, rfl⟩ | ⟨rfl, rfl⟩ <;> dsimp only <;> omega

theorem Pending.pop {seg seg' : Nat × Nat} (h : Pending n seg (seg' :: segs)) : Pending n seg' segs where
  range g hg := h.range g (mem_cons_of_mem _ hg)
  apart := (pairwise_cons.mp h.apart).2
  halving := h.halving.2

theorem Pending.push (h : Pending n (lo, hi) segs) (hparts : Parts lo p hi next other) (hlo : lo ≤ p)
    (hhi : p < hi) (hsmall : next.2 - next.1 ≤ other.2 - other.1) : Pending n next (other :: segs) := by
  have hsize := hparts.size hlo hhi
  have hrange := (h.range _ mem_cons_self).2
  obtain ⟨hout, hsegs⟩ := pairwise_cons.mp h.apart
  have hwhole : (hi - lo) * 2 ^ segs.length ≤ n := h.halving.1
  have hin : lo ≤ next.1 ∧ next.1 ≤ next.2 ∧ next.2 ≤ hi ∧ lo ≤ other.1 ∧ other.1 ≤ other.2 ∧
      other.2 ≤ hi ∧ NoOverlap next other := by
    unfold NoOverlap
    rcases hparts with ⟨rfl, rfl⟩ | ⟨rfl, rfl⟩ <;> dsimp only <;> omega
  obtain ⟨h₁, h₂, h₃, h₄, h₅, h₆, h₇⟩ := hin
  constructor
  · intro g hg
    rcases mem_cons.mp hg with rfl | hg
    · exact ⟨h₂, Nat.le_trans h₃ hrange⟩
    · rcases mem_cons.mp hg with rfl | hg
      · exact ⟨h₅, Nat.le_trans h₆ hrange⟩
      · exact h.range g (mem_cons_of_mem _ hg)
  · have hkeep : ∀ seg : Nat × Nat, lo ≤ seg.1 → seg.2 ≤ hi → ∀ g ∈ segs, NoOverlap seg g := by
      intro seg hl hr g hg
      have hdis := hout g hg
      unfold NoOverlap at hdis ⊢
      dsimp only at hdis
      omega
    refine pairwise_cons.mpr ⟨fun g hg => ?_, pairwise_cons.mpr ⟨hkeep other h₄ h₆, hsegs⟩⟩
    rcases mem_cons.mp hg with rfl | hg
    · exact h₇
    · exact hkeep next h₁ h₃ g hg
  · refine ⟨halving_step hwhole (by omega), ?_, h.halving.2⟩
    exact Nat.le_trans (Nat.mul_le_mul_right _ (by omega)) hwhole

theorem Pending.skip (h : Pending n next (other :: segs)) : Pending n next segs where
  range := by
    intro g hg
    apply h.range g
    rcases mem_cons.mp hg with rfl | hg
    · exact mem_cons_self
    · exact mem_cons_of_mem _ (mem_cons_of_mem _ hg)
  apart := by
    obtain ⟨hnext, hrest⟩ := pairwise_cons.mp h.apart
    exact pairwise_cons.mpr ⟨fun g hg => hnext g (mem_cons_of_mem _ hg),
      (pairwise_cons.mp hrest).2⟩
  halving := by
    refine ⟨?_, h.halving.2.2⟩
    have hle : 2 ^ segs.length ≤ 2 ^ (other :: segs).length :=
      Nat.pow_le_pow_right (by decide) (Nat.le_succ _)
    exact Nat.le_trans (Nat.mul_le_mul_left _ hle) h.halving.1

end Reasoning
