import Php53.Reasoning.Segments
import Php53.Zend.Sort.Swap

/-!
# Partition — one round of `zend_qsort`

Whatever the comparator says, both pointers stay between `begin` and `end`.  If it follows an order,
what `seg1` has gone by is not above the pivot, and what `seg2` has gone by is not below it.
-/

open Reasoning

namespace Php53.Zend

abbrev ptr (siz i : Nat) : Int := ((siz * i : Nat) : Int)

section

variable {siz : Nat}

theorem ptr_succ (siz i : Nat) : ptr siz i + siz = ptr siz (i + 1) := by
  unfold ptr
  rw [Nat.mul_succ, Int.natCast_add]

theorem ptr_pred {i : Nat} (hi : 0 < i) : ptr siz i - siz = ptr siz (i - 1) := by
  obtain ⟨k, rfl⟩ := Nat.exists_eq_add_of_lt hi
  rw [Nat.zero_add, Nat.add_sub_cancel, ← ptr_succ]
  omega

theorem ptr_lt (hsiz : 0 < siz) {i j : Nat} : ptr siz i < ptr siz j ↔ i < j := by
  unfold ptr
  rw [Int.ofNat_lt]
  exact Nat.mul_lt_mul_left hsiz

theorem ptr_le (hsiz : 0 < siz) {i j : Nat} : ptr siz i ≤ ptr siz j ↔ i ≤ j := by
  unfold ptr
  rw [Int.ofNat_le]
  exact Nat.mul_le_mul_left_iff hsiz

variable {σ : Type} {cmp : List UInt8 → List UInt8 → σ → Int × σ} {l : List (List UInt8)}
  {mem : List UInt8}

def Orders (cmp : List UInt8 → List UInt8 → σ → Int × σ) (le : List UInt8 → List UInt8 → Prop) : Prop :=
  ∀ a b u, 0 < (cmp a b u).1 ↔ ¬ le a b

theorem compareAt_eq (h : Elements siz l mem) {i j : Nat} {x y : List UInt8} (hi : l[i]? = some x)
    (hj : l[j]? = some y) (user : σ) :
    compareAt siz cmp (ptr siz i) (ptr siz j) ⟨mem, user⟩ =
      (.ok (cmp x y user).1, ⟨mem, (cmp x y user).2⟩) := by
  have hilt := (List.getElem?_eq_some_iff.mp hi).1
  have hjlt := (List.getElem?_eq_some_iff.mp hj).1
  unfold compareAt
  dsimp only
  rw [if_pos ⟨h.isElement hilt, h.isElement hjlt⟩, h.element hi, h.element hj]

theorem swapAt_eq (h : Elements siz l mem) {i j : Nat} {x y : List UInt8} (hi : l[i]? = some x)
    (hj : l[j]? = some y) (user : σ) :
    ∃ mem', swapAt siz (ptr siz i) (ptr siz j) ⟨mem, user⟩ = (.ok (), ⟨mem', user⟩) ∧
      Elements siz (swapped l i j x y) mem' := by
  have hilt := (List.getElem?_eq_some_iff.mp hi).1
  have hjlt := (List.getElem?_eq_some_iff.mp hj).1
  refine ⟨_, ?_, h.swap hi hj⟩
  unfold swapAt
  dsimp only
  rw [if_pos ⟨h.isElement hilt, h.isElement hjlt⟩, Int.toNat_natCast, Int.toNat_natCast]

variable {b : Nat} {pivot : List UInt8}

theorem seg1Loop_spec (cmp : List UInt8 → List UInt8 → σ → Int × σ) (hsiz : 0 < siz)
    (h : Elements siz l mem) (hb : l[b]? = some pivot) {s₂ : Nat} (hs₂ : s₂ < l.length) (fuel s₁ : Nat) (user : σ) (hfuel : s₂ < s₁ + fuel) (hpos : 0 < fuel) :
    ∃ s₁' user', seg1Loop siz cmp (ptr siz b) (ptr siz s₂) fuel (ptr siz s₁) ⟨mem, user⟩ =
        (.ok (ptr siz s₁'), ⟨mem, user'⟩) ∧ s₁ ≤ s₁' ∧ (s₁' ≤ s₁ ∨ s₁' ≤ s₂) ∧
      ∀ le, Std.Total le → Orders cmp le → AllIn (le · pivot) l s₁ s₁' ∧
        (s₁' < s₂ → AllIn (le pivot) l s₁' (s₁' + 1)) := by
  induction fuel generalizing s₁ user with
  | zero => omega
  | succ fuel ih =>
    rw [seg1Loop]
    by_cases hlt : s₁ < s₂
    · rw [if_pos ((ptr_lt hsiz).mpr hlt)]
      have hx := List.getElem?_eq_getElem (Nat.lt_trans hlt hs₂)
      rw [Fallible.bind_ok (compareAt_eq h hb hx user)]
      by_cases hgt : (cmp pivot l[s₁] user).1 > 0
      · rw [if_pos hgt, ptr_succ]
        obtain ⟨s₁', user', hloop, hle, hor, hord⟩ := ih (s₁ + 1) (cmp pivot l[s₁] user).2 (by omega)
          (by omega)
        refine ⟨s₁', user', hloop, by omega, by omega, fun le htotal horders => ?_⟩
        obtain ⟨hall, hstop⟩ := hord le htotal horders
        have hle' := (htotal.total l[s₁] pivot).resolve_right ((horders _ _ _).mp hgt)
        exact ⟨(AllIn.single hx hle').append hall, hstop⟩
      · rw [if_neg hgt]
        refine ⟨s₁, _, rfl, Nat.le_refl _, .inl (Nat.le_refl _), fun le htotal horders => ?_⟩
        have hle' := not_not.mp (mt (horders pivot l[s₁] user).mpr hgt)
        exact ⟨allIn_empty _ _ _, fun _ => AllIn.single hx hle'⟩
    · rw [if_neg (mt (ptr_lt hsiz).mp hlt)]
      exact ⟨s₁, user, rfl, Nat.le_refl _, .inl (Nat.le_refl _), fun le _ _ =>
        ⟨allIn_empty _ _ _, fun hlt' => absurd hlt' hlt⟩⟩

theorem seg2Loop_spec (cmp : List UInt8 → List UInt8 → σ → Int × σ) (hsiz : 0 < siz)
    (h : Elements siz l mem) (hb : l[b]? = some pivot) {s₁ : Nat} (hs₁ : 0 < s₁) (fuel s₂ : Nat) (user : σ) (hs₂ : s₂ < l.length) (hle : s₁ ≤ s₂ + 1)
    (hfuel : s₂ + 1 < s₁ + fuel) :
    ∃ s₂' user', seg2Loop siz cmp (ptr siz b) (ptr siz s₁) fuel (ptr siz s₂) ⟨mem, user⟩ =
        (.ok (ptr siz s₂'), ⟨mem, user'⟩) ∧ s₂' ≤ s₂ ∧ s₁ ≤ s₂' + 1 ∧
      ∀ le, Std.Total le → Orders cmp le → AllIn (le pivot) l (s₂' + 1) (s₂ + 1) ∧
        (s₁ ≤ s₂' → AllIn (le · pivot) l s₂' (s₂' + 1)) := by
  induction fuel generalizing s₂ user with
  | zero => omega
  | succ fuel ih =>
    rw [seg2Loop]
    by_cases hge : s₁ ≤ s₂
    · rw [if_pos ((ptr_le hsiz).mpr hge)]
      have hx := List.getElem?_eq_getElem hs₂
      rw [Fallible.bind_ok (compareAt_eq h hx hb user)]
      by_cases hgt : (cmp l[s₂] pivot user).1 > 0
      · rw [if_pos hgt, ptr_pred (by omega)]
        obtain ⟨s₂', user', hloop, hle', hor, hord⟩ := ih (s₂ - 1) (cmp l[s₂] pivot user).2 (by omega)
          (by omega) (by omega)
        refine ⟨s₂', user', hloop, by omega, hor, fun le htotal horders => ?_⟩
        obtain ⟨hall, hstop⟩ := hord le htotal horders
        rw [Nat.sub_add_cancel (by omega)] at hall
        have hbelow := (htotal.total l[s₂] pivot).resolve_left ((horders _ _ _).mp hgt)
        exact ⟨hall.append (AllIn.single hx hbelow), hstop⟩
      · rw [if_neg hgt]
        refine ⟨s₂, _, rfl, Nat.le_refl _, hle, fun le htotal horders => ?_⟩
        have habove := not_not.mp (mt (horders l[s₂] pivot user).mpr hgt)
        exact ⟨allIn_empty _ _ _, fun _ => AllIn.single hx habove⟩
    · rw [if_neg (mt (ptr_le hsiz).mp hge)]
      exact ⟨s₂, user, rfl, Nat.le_refl _, hle, fun le _ _ =>
        ⟨allIn_empty _ _ _, fun hge' => absurd hge' hge⟩⟩

theorem partitionLoop_spec (cmp : List UInt8 → List UInt8 → σ → Int × σ) (hsiz : 0 < siz)
    (nmemb : Nat) {hi : Nat} (fuel : Nat) {s₁ s₂ : Nat} (user : σ)
    (h : Elements siz l mem) (hb : l[b]? = some pivot) (hlen : l.length ≤ nmemb) (hhi : hi ≤ l.length)
    (hs₁ : b < s₁) (hs₂ : s₂ < hi) (hle : s₁ ≤ s₂ + 1) (hfuel : s₂ + 1 < s₁ + fuel) :
    ∃ p l' mem' user', partitionLoop siz cmp nmemb (ptr siz b) fuel (ptr siz s₁) (ptr siz s₂) ⟨mem, user⟩ =
        (.ok (ptr siz p), ⟨mem', user'⟩) ∧ Elements siz l' mem' ∧ PermIn (b + 1) hi l l' ∧
      b ≤ p ∧ p < hi ∧
      ∀ le, Std.Total le → Orders cmp le → AllIn (le · pivot) l (b + 1) s₁ →
        AllIn (le pivot) l (s₂ + 1) hi →
        AllIn (le · pivot) l' (b + 1) (p + 1) ∧ AllIn (le pivot) l' (p + 1) hi := by
  induction fuel generalizing l mem s₁ s₂ user with
  | zero => omega
  | succ fuel ih =>
    rw [partitionLoop]
    obtain ⟨s₁', user₁, hloop₁, hle₁, hor₁, hord₁⟩ := seg1Loop_spec cmp hsiz h hb
      (by omega : s₂ < l.length) (nmemb + 1) s₁ user (by omega) (Nat.succ_pos _)
    rw [Fallible.bind_ok hloop₁]
    obtain ⟨s₂', user₂, hloop₂, hle₂, hor₂, hord₂⟩ := seg2Loop_spec cmp hsiz h hb
      (by omega : 0 < s₁') (nmemb + 1) s₂ user₁ (by omega) (by omega) (by omega)
    rw [Fallible.bind_ok hloop₂]
    by_cases hmeet : s₁' ≥ s₂'
    · rw [if_pos ((ptr_le hsiz).mpr hmeet)]
      refine ⟨s₂', l, mem, user₂, rfl, h, .refl _ _ _, by omega, by omega, fun le htotal horders hbelow habove => ?_⟩
      obtain ⟨hall₁, -⟩ := hord₁ le htotal horders
      obtain ⟨hall₂, hstop₂⟩ := hord₂ le htotal horders
      have hleft := hbelow.append hall₁
      refine ⟨?_, hall₂.append habove⟩
      rcases Nat.lt_or_eq_of_le hmeet with hlt | heq
      · exact fun k x hk hk' => hleft k x hk (by omega)
      · subst heq
        exact hleft.append (hstop₂ (Nat.le_refl _))
    · rw [if_neg (mt (ptr_le hsiz).mp hmeet)]
      have hx := List.getElem?_eq_getElem (show s₁' < l.length by omega)
      have hy := List.getElem?_eq_getElem (show s₂' < l.length by omega)
      obtain ⟨mem', hswap, h'⟩ := swapAt_eq h hx hy user₂
      rw [Fallible.bind_ok hswap, ptr_succ, ptr_pred (by omega)]
      have hperm : PermIn (b + 1) hi l (swapped l s₁' s₂' l[s₁'] l[s₂']) :=
        .swapped hx hy (by omega) (by omega)
      have hb' : (swapped l s₁' s₂' l[s₁'] l[s₂'])[b]? = some pivot := by
        rw [hperm.outside b (by omega), hb]
      obtain ⟨p, l', mem'', user', hloop, h'', hperm', hbp, hphi, hord⟩ := ih user₂ h' hb'
        (by rw [hperm.length_eq]; exact hlen) (by rw [hperm.length_eq]; exact hhi)
        (by omega : b < s₁' + 1) (by omega : s₂' - 1 < hi) (by omega) (by omega)
      refine ⟨p, l', mem'', user', hloop, h'', hperm.trans hperm', hbp, hphi, fun le htotal horders hbelow habove => ?_⟩
      obtain ⟨hall₁, hstop₁⟩ := hord₁ le htotal horders
      obtain ⟨hall₂, hstop₂⟩ := hord₂ le htotal horders
      have hget := getElem?_swapped hx hy
      have hleft := hbelow.append hall₁
      have hright := hall₂.append habove
      apply hord le htotal horders
      · intro k x hk hk' hget'
        rw [hget, if_neg (by omega)] at hget'
        by_cases hks : k = s₁'
        · rw [if_pos hks] at hget'
          exact Option.some.inj hget' ▸ hstop₂ (by omega) s₂' l[s₂'] (Nat.le_refl _) (Nat.lt_succ_self _) hy
        · rw [if_neg hks] at hget'
          exact hleft k x hk (by omega) hget'
      · intro k x hk hk' hget'
        rw [hget] at hget'
        by_cases hks : k = s₂'
        · rw [if_pos hks] at hget'
          exact Option.some.inj hget' ▸ hstop₁ (by omega) s₁' l[s₁'] (Nat.le_refl _) (Nat.lt_succ_self _) hx
        · rw [if_neg hks, if_neg (by omega)] at hget'
          exact hright k x (by omega) hk' hget'

theorem pivot_index (siz : Nat) {lo hi : Nat} (hlo : lo + 1 < hi) :
    ∃ m, ptr siz lo + ((ptr siz (hi - 1) - ptr siz lo) / 2 % 2 ^ 32 -
        (ptr siz (hi - 1) - ptr siz lo) / 2 % 2 ^ 32 % siz) = ptr siz m ∧ lo ≤ m ∧ m < hi := by
  obtain ⟨d, hd⟩ : ∃ d, hi - 1 = lo + d := ⟨hi - 1 - lo, by omega⟩
  have hdiff : ptr siz (hi - 1) - ptr siz lo = ((siz * d : Nat) : Int) := by
    unfold ptr
    rw [hd, Nat.mul_add]
    omega
  have hoffset : ((siz * d : Nat) : Int) / 2 % 2 ^ 32 = ((siz * d / 2 % 2 ^ 32 : Nat) : Int) := by
    omega
  rw [hdiff, hoffset]
  generalize hk : siz * d / 2 % 2 ^ 32 = offset
  have hle : offset ≤ siz * d := by omega
  have hquot : siz * (offset / siz) + offset % siz = offset := Nat.div_add_mod _ _
  have hm : offset / siz ≤ d := by
    rw [Nat.mul_comm] at hle
    exact Nat.div_le_of_le_mul (by rwa [Nat.mul_comm] at hle)
  have hmod : (offset : Int) % siz = ((offset % siz : Nat) : Int) := (Int.natCast_emod _ _).symm
  rw [hmod]
  generalize offset / siz = q at hquot hm
  refine ⟨lo + q, ?_, by omega, by omega⟩
  unfold ptr
  rw [Nat.mul_add]
  omega

theorem partitionSegment_spec (cmp : List UInt8 → List UInt8 → σ → Int × σ) (hsiz : 0 < siz) {nmemb lo hi : Nat} (user : σ)
    (h : Elements siz l mem) (hlen : l.length ≤ nmemb) (hlo : lo + 1 < hi) (hhi : hi ≤ l.length) :
    ∃ p l' mem' user', partitionSegment siz cmp nmemb (ptr siz lo) (ptr siz (hi - 1)) ⟨mem, user⟩ =
        (.ok (ptr siz p), ⟨mem', user'⟩) ∧ Elements siz l' mem' ∧ PermIn lo hi l l' ∧ lo ≤ p ∧ p < hi ∧
      ∀ le, Std.Total le → Orders cmp le → ∃ pivot, l'[p]? = some pivot ∧ AllIn (le · pivot) l' lo p ∧
        AllIn (le pivot) l' (p + 1) hi := by
  obtain ⟨m, hm, hlom, hmhi⟩ := pivot_index siz hlo
  have hx := List.getElem?_eq_getElem (show lo < l.length by omega)
  have hy := List.getElem?_eq_getElem (show m < l.length by omega)
  obtain ⟨mem₁, hswap, h₁⟩ := swapAt_eq h hx hy user
  have hperm₁ : PermIn lo hi l (swapped l lo m l[lo] l[m]) := .swapped hx hy (by omega) (by omega)
  have hpivot : (swapped l lo m l[lo] l[m])[lo]? = some l[m] := by
    rw [getElem?_swapped hx hy]
    by_cases heq : lo = m
    · subst heq
      rw [if_pos rfl]
    · rw [if_neg heq, if_pos rfl]
  generalize swapped l lo m l[lo] l[m] = l₁ at h₁ hperm₁ hpivot
  have hlen₁ := hperm₁.length_eq
  obtain ⟨p, l₂, mem₂, user₂, hloop, h₂, hperm₂, hlop, hphi, hord⟩ := partitionLoop_spec cmp hsiz
    nmemb (nmemb + 1) user h₁ hpivot (by omega) (by omega : hi ≤ l₁.length)
    (Nat.lt_succ_self lo) (by omega : hi - 1 < hi) (by omega) (by omega)
  have hlen₂ := hperm₂.length_eq
  -- the pivot goes to where the pointers have met
  have hpivot₂ : l₂[lo]? = some l[m] := by
    rw [hperm₂.outside lo (by omega), hpivot]
  have hz := List.getElem?_eq_getElem (show p < l₂.length by omega)
  obtain ⟨mem₃, hswap₃, h₃⟩ := swapAt_eq h₂ hpivot₂ hz user₂
  have hperm₃ : PermIn lo hi l₂ (swapped l₂ lo p l[m] l₂[p]) := .swapped hpivot₂ hz (by omega) (by omega)
  have hget := getElem?_swapped hpivot₂ hz
  refine ⟨p, _, mem₃, user₂, ?_, h₃, (hperm₁.trans (hperm₂.mono (by omega) (by omega))).trans hperm₃,
    hlop, hphi, fun le htotal horders => ⟨l[m], by rw [hget, if_pos rfl], ?_⟩⟩
  · unfold partitionSegment
    rw [hm, Fallible.bind_ok hswap, ptr_succ, Fallible.bind_ok hloop, Fallible.bind_ok hswap₃]
    rfl
  · rw [Nat.sub_add_cancel (by omega)] at hord
    obtain ⟨hbelow, habove⟩ := hord le htotal horders (allIn_empty _ _ _) (allIn_empty _ _ _)
    constructor
    · intro k x hk hk' hx'
      rw [hget, if_neg (by omega)] at hx'
      by_cases hkl : k = lo
      · rw [if_pos hkl] at hx'
        exact Option.some.inj hx' ▸ hbelow p l₂[p] (by omega) (Nat.lt_succ_self _) hz
      · rw [if_neg hkl] at hx'
        exact hbelow k x (by omega) (by omega) hx'
    · intro k x hk hk' hx'
      rw [hget, if_neg (by omega), if_neg (by omega)] at hx'
      exact habove k x hk hk' hx'

end

end Php53.Zend
