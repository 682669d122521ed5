import Php53.Zend.Sort.Partition

/-!
# Sorted — `zend_qsort` sorts

The segments on the stack and the one between `begin` and `end` are all that is left to sort.  The
smaller part of a segment is sorted first, so the stack is not deeper than a pointer has bits.
-/

open Reasoning

namespace Php53.Zend

variable {siz : Nat} {σ : Type} {cmp : List UInt8 → List UInt8 → σ → Int × σ}

/-- The slots of `begin_stack` and `end_stack` for a segment. -/
def slot (siz : Nat) (seg : Nat × Nat) : Int × Int := (ptr siz seg.1, ptr siz seg.2 - siz)

theorem slot_lt (hsiz : 0 < siz) {seg : Nat × Nat} :
    (slot siz seg).1 < (slot siz seg).2 ↔ seg.1 + 1 < seg.2 := by
  rw [← ptr_lt hsiz, ← ptr_succ]
  unfold slot
  omega

theorem part_le (hsiz : 0 < siz) {lo p hi : Nat} (hlo : lo ≤ p) (hhi : p < hi) :
    ptr siz p - ptr siz lo ≤ ptr siz hi - siz - ptr siz p ↔ p - lo ≤ hi - (p + 1) := by
  obtain ⟨a, rfl⟩ := Nat.exists_eq_add_of_le hlo
  obtain ⟨c, rfl⟩ := Nat.exists_eq_add_of_lt hhi
  have hleft : lo + a - lo = a := Nat.add_sub_cancel_left _ _
  have hright : lo + a + c + 1 - (lo + a + 1) = c := by omega
  rw [hleft, hright, ← Nat.mul_le_mul_left_iff hsiz, ← ptr_succ]
  simp only [ptr, Nat.mul_add]
  omega

def rounds (seg : Nat × Nat) (segs : List (Nat × Nat)) : Nat :=
  2 * (seg.2 - seg.1) + (segs.map fun g => 2 * (g.2 - g.1) + 1).sum

def Sorts (cmp : List UInt8 → List UInt8 → σ → Int × σ) (siz : Nat) (segs : List (Nat × Nat))
    (l : List (List UInt8)) (result : Except QsortError Unit × QsortState σ) : Prop :=
  ∃ l' mem user, result = (.ok (), ⟨mem, user⟩) ∧ Elements siz l' mem ∧ l'.Perm l ∧
    ∀ le, IsTrans _ le → Std.Total le → Orders cmp le → Apart le segs l → l'.Pairwise le

theorem Sorts.mono {segs segs' : List (Nat × Nat)} {l : List (List UInt8)}
    {result : Except QsortError Unit × QsortState σ} (h : Sorts cmp siz segs' l result)
    (hsub : ∀ seg ∈ segs, seg ∈ segs' ∨ seg.2 ≤ seg.1 + 1) : Sorts cmp siz segs l result := by
  obtain ⟨l', mem, user, hresult, hmem, hperm, hsorted⟩ := h
  exact ⟨l', mem, user, hresult, hmem, hperm, fun le htrans htotal horders hapart =>
    hsorted le htrans htotal horders (hapart.mono hsub)⟩

theorem segmentLoop_sorts (cmp : List UInt8 → List UInt8 → σ → Int × σ) (hsiz : 0 < siz) {n : Nat} (hn : n < 2 ^ 64) (fuel : Nat)
    {seg : Nat × Nat} {segs : List (Nat × Nat)} {l : List (List UInt8)} {mem : List UInt8} (user : σ)
    (h : Elements siz l mem) (hlen : l.length = n) (hpending : Pending n seg segs)
    (hfuel : rounds seg segs < fuel) :
    Sorts cmp siz (seg :: segs) l
      (segmentLoop siz cmp n fuel (slot siz seg).1 (slot siz seg).2 (segs.map (slot siz)) ⟨mem, user⟩) := by
  induction fuel generalizing seg segs l mem user with
  | zero => omega
  | succ fuel ih =>
    obtain ⟨lo, hi⟩ := seg
    have hrange := (hpending.range _ List.mem_cons_self).2
    unfold segmentLoop
    have hcond : (slot siz (lo, hi)).1 < (slot siz (lo, hi)).2 ↔ lo + 1 < hi := slot_lt hsiz
    by_cases hlt : lo + 1 < hi
    · rw [if_pos (hcond.mpr hlt)]
      obtain ⟨p, l₁, mem₁, user₁, hround, h₁, hperm₁, hlop, hphi, hcut⟩ := partitionSegment_spec
        cmp hsiz user h (Nat.le_of_eq hlen) hlt (hlen ▸ hrange)
      rw [← ptr_pred (by omega)] at hround
      have hlen₁ : l₁.length = n := hperm₁.length_eq.trans hlen
      -- the smaller part is sorted first, the larger one waits if it has two elements
      have hparts : ∀ next other, Parts lo p hi next other → next.2 - next.1 ≤ other.2 - other.1 →
          Sorts cmp siz ((lo, hi) :: segs) l
            ((if (slot siz other).1 < (slot siz other).2 then
              if (segs.map (slot siz)).length < qsortStackSize then
                segmentLoop siz cmp n fuel (slot siz next).1 (slot siz next).2
                  (slot siz other :: segs.map (slot siz))
              else .stop .stack
            else segmentLoop siz cmp n fuel (slot siz next).1 (slot siz next).2 (segs.map (slot siz)))
              ⟨mem₁, user₁⟩) := by
        intro next other hparts hsmall
        have hpush := hpending.push hparts hlop hphi hsmall
        have hsize := hparts.size hlop hphi
        have hdone : ∀ result, Sorts cmp siz (next :: other :: segs) l₁ result →
            Sorts cmp siz ((lo, hi) :: segs) l result := by
          intro result hresult
          obtain ⟨l', mem', user', heq, hmem, hperm, hsorted⟩ := hresult
          refine ⟨l', mem', user', heq, hmem, hperm.trans hperm₁.perm, fun le htrans htotal horders hapart => ?_⟩
          apply hsorted le htrans htotal horders
          obtain ⟨pivot, hpivot, hbelow, habove⟩ := hcut le htotal horders
          have hdisjoint := (List.pairwise_cons.mp hpending.apart).1
          have hcut' := hapart.cut hdisjoint hperm₁ hlop hphi hpivot hbelow habove
          apply hcut'.mono
          intro seg hseg
          rcases hparts with ⟨rfl, rfl⟩ | ⟨rfl, rfl⟩ <;> simp only [List.mem_cons] at hseg ⊢ <;> tauto
        by_cases hwaits : other.1 + 1 < other.2
        · have hdepth : segs.length < qsortStackSize :=
            length_lt_of_halving hn (by omega : 0 < hi - lo) hpending.halving.1
          rw [if_pos ((slot_lt hsiz).mpr hwaits), List.length_map, if_pos hdepth]
          apply hdone
          apply ih user₁ h₁ hlen₁ hpush
          simp only [rounds, List.map_cons, List.sum_cons] at hfuel ⊢
          omega
        · rw [if_neg (mt (slot_lt hsiz).mp hwaits)]
          apply hdone
          apply Sorts.mono (ih user₁ h₁ hlen₁ hpush.skip (by simp only [rounds] at hfuel ⊢; omega))
          intro seg hseg
          simp only [List.mem_cons] at hseg ⊢
          rcases hseg with rfl | rfl | hseg
          · exact .inl (.inl rfl)
          · exact .inr (Nat.le_of_not_lt hwaits)
          · exact .inl (.inr hseg)
      have hslot : slot siz (lo, hi) = (ptr siz lo, ptr siz hi - siz) := rfl
      rw [hslot]
      dsimp only
      rw [Fallible.bind_ok hround]
      by_cases hle : p - lo ≤ hi - (p + 1)
      · rw [if_pos ((part_le hsiz hlop hphi).mpr hle), ptr_succ]
        exact hparts (lo, p) (p + 1, hi) (.inl ⟨rfl, rfl⟩) hle
      · rw [if_neg (mt (part_le hsiz hlop hphi).mp hle), ptr_succ]
        exact hparts (p + 1, hi) (lo, p) (.inr ⟨rfl, rfl⟩) (by dsimp only; omega)
    · rw [if_neg (mt hcond.mp hlt)]
      have hsmall : ∀ seg ∈ (lo, hi) :: segs, seg ∈ segs ∨ seg.2 ≤ seg.1 + 1 := by
        intro seg hseg
        rcases List.mem_cons.mp hseg with rfl | hseg
        · exact .inr (Nat.le_of_not_lt hlt)
        · exact .inl hseg
      cases segs with
      | nil =>
        refine ⟨l, mem, user, rfl, h, .refl _, fun le _ _ _ hapart => (hapart.mono hsmall).sorted⟩
      | cons seg segs =>
        apply Sorts.mono _ hsmall
        apply ih user h hlen hpending.pop
        simp only [rounds, List.map_cons, List.sum_cons] at hfuel ⊢
        omega

theorem zendQsort_of_pos (hsiz : 0 < siz) (cmp : List UInt8 → List UInt8 → σ → Int × σ)
    {l : List (List UInt8)} (hl : ∀ x ∈ l, x.length = siz) (hn : l.length < 2 ^ 64) (user : σ) :
    ∃ l' mem user', zendQsort siz cmp l.length ⟨l.flatten, user⟩ = (.ok (), ⟨mem, user'⟩) ∧
      Elements siz l' mem ∧ l'.Perm l ∧
      ∀ le, IsTrans _ le → Std.Total le → Orders cmp le → l'.Pairwise le := by
  have hslot : slot siz (0, l.length) = (0, ((l.length : Int) - 1) * siz) := by
    rw [slot, ptr, ptr, Nat.mul_zero, Int.sub_mul, Int.one_mul, Int.natCast_mul, Int.mul_comm]
    rfl
  have hsorts := segmentLoop_sorts cmp hsiz hn (2 * l.length + 2) user ⟨rfl, hl⟩ rfl
    (pending_whole l.length) (by simp [rounds])
  rw [hslot] at hsorts
  obtain ⟨l', mem, user', heq, hmem, hperm, hsorted⟩ := hsorts
  exact ⟨l', mem, user', heq, hmem, hperm, fun le htrans htotal horders =>
    hsorted le htrans htotal horders (apart_whole le l)⟩

/-- Whatever the comparator says and does to its state, the sort ends with the same elements, without
looking outside the array or behind its stack; if it follows an order, they are sorted. -/
theorem zendQsort_sorts (siz : Nat) (cmp : List UInt8 → List UInt8 → σ → Int × σ)
    (l : List (List UInt8)) (hl : ∀ x ∈ l, x.length = siz) (hn : l.length < 2 ^ 64) (user : σ) :
    ∃ l' mem user', zendQsort siz cmp l.length ⟨l.flatten, user⟩ = (.ok (), ⟨mem, user'⟩) ∧
      Elements siz l' mem ∧ l'.Perm l ∧
      ∀ le, IsTrans _ le → Std.Total le → Orders cmp le → l'.Pairwise le := by
  rcases Nat.eq_zero_or_pos siz with rfl | hsiz
  · -- elements of no bytes are all the same
    refine ⟨l, l.flatten, user, ?_, ⟨rfl, hl⟩, .refl _, fun le _ htotal _ => ?_⟩
    · unfold zendQsort segmentLoop
      rw [if_neg (by simp)]
      rfl
    · apply List.pairwise_of_forall_mem_list
      intro x hx y hy
      rw [List.eq_nil_of_length_eq_zero (hl x hx), List.eq_nil_of_length_eq_zero (hl y hy)]
      exact (htotal.total [] []).elim id id
  · exact zendQsort_of_pos hsiz cmp hl hn user

def compareBytes (a b : List UInt8) (calls : Nat) : Int × Nat :=
  ((a.headD 0).toNat - (b.headD 0).toNat, calls + 1)

theorem zendQsort_sorts_bytes :
    ∃ (l' : List (List UInt8)) (mem : List UInt8) (calls : Nat),
      zendQsort 1 compareBytes 3 ⟨[3, 1, 2], 0⟩ = (.ok (), ⟨mem, calls⟩) ∧ mem = l'.flatten ∧ l'.Perm [[3], [1], [2]] ∧ l'.Pairwise fun a b => a.headD 0 ≤ b.headD 0 := by
  obtain ⟨l', mem, calls, heq, hmem, hperm, hsorted⟩ :=
    zendQsort_sorts 1 compareBytes [[3], [1], [2]] (by simp) (by decide) 0
  refine ⟨l', mem, calls, heq, hmem.flatten, hperm, hsorted _ ?_ ?_ ?_⟩
  · exact ⟨fun a b c => UInt8.le_trans⟩
  · exact ⟨fun a b => UInt8.le_total _ _⟩
  · intro a b calls
    show (0 : Int) < (a.headD 0).toNat - (b.headD 0).toNat ↔ ¬ a.headD 0 ≤ b.headD 0
    rw [UInt8.le_iff_toNat_le]
    omega

end Php53.Zend
