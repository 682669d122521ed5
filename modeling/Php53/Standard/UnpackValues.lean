import Php53.Standard.UnpackOnce

/-!
# UnpackValues — codes of many rounds

`X` never comes to the end of the input, so only the counter ends it.  The values of a fixed size end
behind the last one, except where the end of the next one is `INT_MAX + 1`.
-/

open Reasoning

namespace Php53.Standard.Unpack

open Zend

section

variable {input : List UInt8} {c : Code} {inputpos : Int}

theorem loop_next (fuel : Nat) {s : LoopState} {inputpos i : Int} {value : Option Element}
    (harg : s.i ≠ c.arg) (hround : round input c s.inputpos s.i = some (.next inputpos i value)) :
    ∃ s', loop input c (fuel + 1) s = loop input c fuel s' ∧ s'.inputpos = inputpos ∧
      s'.i = wrapInt (i + 1) ∧ s'.rounds = s.rounds + 1 := by
  rw [loop, if_neg harg, hround]
  exact ⟨_, rfl, rfl, rfl, rfl⟩

theorem loop_endless (harg : IsInt c.arg)
    (hround : ∀ p i, Inside input p →
      ∃ p' v, round input c p i = some (.next p' i v) ∧ Inside input p')
    (m fuel : Nat) {s : LoopState} (hi : IsInt s.i) (hm : (c.arg - s.i) % 2 ^ 32 = m)
    (hfuel : m < fuel) (h : Inside input s.inputpos) :
    ∃ s', loop input c fuel s = some (s', .done) ∧ s'.rounds = s.rounds + m := by
  induction m generalizing fuel s with
  | zero =>
    have heq : s.i = c.arg := by
      unfold IsInt intMax at *
      omega
    cases fuel with
    | zero => exact absurd hfuel (Nat.lt_irrefl 0)
    | succ fuel =>
      rw [loop, if_pos heq]
      exact ⟨s, rfl, rfl⟩
  | succ m ih =>
    have hne : s.i ≠ c.arg := by
      intro heq
      rw [heq, sub_self] at hm
      omega
    cases fuel with
    | zero => exact absurd hfuel (Nat.not_lt_zero _)
    | succ fuel =>
      obtain ⟨p', v, hr, hinside⟩ := hround s.inputpos s.i h
      obtain ⟨s', hloop, hpos, hi', hrounds⟩ := loop_next fuel hne hr
      obtain ⟨hint, k, hk⟩ := wrapInt_spec (s.i + 1)
      obtain ⟨t, ht, htr⟩ := @ih fuel s' (hi' ▸ hint) (by omega) (by omega) (hpos ▸ hinside)
      exact ⟨t, hloop.trans ht, by omega⟩

theorem stops_endless (harg : IsInt c.arg) (hargb : c.argb = c.arg)
    (hround : ∀ p i, Inside input p →
      ∃ p' v, round input c p i = some (.next p' i v) ∧ Inside input p')
    (h : Inside input inputpos) :
    Stops input c inputpos ↔ 0 ≤ c.arg ∨ c.arg + 2 ^ 32 ≤ input.length + 1 := by
  have hzero : IsInt 0 := ⟨by decide, by decide⟩
  have hmod : 0 ≤ (c.arg - 0) % 2 ^ 32 := Int.emod_nonneg _ (by decide)
  have ⟨s, hloop, hrounds⟩ := loop_endless harg hround ((c.arg - 0) % 2 ^ 32).toNat (2 ^ 32)
    (s := { inputpos, i := 0, rounds := 0, values := [] }) hzero
    (Int.toNat_of_nonneg hmod).symm (by omega) h
  have hcode : unpackCode input c inputpos = some (s, .done) := hloop
  have hcount : (s.rounds : Int) = (c.arg - 0) % 2 ^ 32 := by
    rw [hrounds]
    dsimp only
    omega
  unfold IsInt intMax at harg
  constructor
  · intro ⟨s', ending, hs', hbound⟩
    rw [hcode] at hs'
    cases hs'
    rw [hargb, hcount] at hbound
    omega
  · intro hok
    refine ⟨s, .done, hcode, ?_⟩
    rw [hargb, hcount]
    omega

theorem stops_back (hc : c.WellFormed) (hfits : (input.length : Int) ≤ intMax)
    (h : Inside input inputpos) (hkind : c.kind = .back) :
    Stops input c inputpos ↔ 0 ≤ c.arg ∨ (c.arg = -2 ^ 31 ∧ (input.length : Int) = intMax) := by
  have ⟨hargb, hrest⟩ := hc
  rw [hkind] at hrest
  have ⟨hsize, harg⟩ := hrest
  have hround : ∀ p i, Inside input p →
      ∃ p' v, round input c p i = some (.next p' i v) ∧ Inside input p' := by
    intro p i hp
    have hcheck : overflowCheck c.size p = p := by
      unfold overflowCheck
      rw [hsize, if_neg (by omega)]
    have hwrap : wrapInt (p + -1) = p - 1 := by
      apply wrapInt_eq
      unfold Inside at hp
      unfold IsInt intMax at *
      omega
    unfold Inside at hp
    unfold round switchKind advance
    dsimp only
    rw [hcheck, hkind, hsize, hwrap, if_pos (by omega)]
    dsimp only
    rw [if_neg (by omega)]
    refine ⟨_, _, rfl, ?_⟩
    unfold Inside
    split <;> omega
  rw [stops_endless (harg ▸ hargb) harg.symm hround h]
  rw [← harg] at hargb
  unfold IsInt intMax at *
  omega

theorem Code.WellFormed.fixed {value : Option (List UInt8 → Element)} (hc : c.WellFormed)
    (hkind : c.kind = .fixed value) :
    (c.size = 1 ∨ c.size = 2 ∨ c.size = 4 ∨ c.size = 8) ∧ c.arg = c.argb ∧ IsInt c.arg := by
  have ⟨hargb, hrest⟩ := hc
  rw [hkind] at hrest
  cases value with
  | none => exact ⟨.inl hrest.1, hrest.2, hrest.2 ▸ hargb⟩
  | some value =>
    have ⟨hsize, harg⟩ := hrest
    simp only [List.mem_cons, List.not_mem_nil, or_false] at hsize
    exact ⟨hsize, harg, harg ▸ hargb⟩

theorem overflowCheck_fixed (hsize : 1 ≤ c.size ∧ c.size ≤ 8) :
    overflowCheck c.size inputpos = if intMax + 1 < inputpos + c.size then 0 else inputpos :=
  overflowCheck_small _ _ ⟨hsize.1, hsize.2.trans (by decide)⟩

theorem overflowCheck_keeps (hsize : 1 ≤ c.size ∧ c.size ≤ 8) (h : inputpos + c.size ≤ intMax + 1) :
    overflowCheck c.size inputpos = inputpos := by
  rw [overflowCheck_fixed hsize, if_neg (by omega)]

variable {value : Option (List UInt8 → Element)} {i : Int}

section

variable (hsize : 1 ≤ c.size ∧ c.size ≤ 8)

include hsize

theorem round_value (hkind : c.kind = .fixed value) (hfits : (input.length : Int) ≤ intMax)
    (h : Inside input inputpos) (hend : inputpos + c.size ≤ input.length) :
    ∃ v, round input c inputpos i = some (.next (inputpos + c.size) i v) := by
  have hwrap : wrapInt (inputpos + c.size) = inputpos + c.size := by
    apply wrapInt_eq
    unfold Inside at h
    unfold IsInt intMax at *
    omega
  have hadvance : ∀ v, advance inputpos c.size i v = some (.next (inputpos + c.size) i v) := by
    intro v
    unfold advance
    dsimp only
    rw [hwrap, if_neg (by unfold Inside at h; omega)]
  unfold round switchKind
  dsimp only
  rw [overflowCheck_keeps hsize (by omega), hwrap, if_pos hend, hkind]
  cases value with
  | none => exact ⟨none, hadvance none⟩
  | some value =>
    have ⟨bs, hbs⟩ := exists_loadAt h (by omega) hend
    dsimp only
    rw [hbs]
    exact ⟨_, hadvance _⟩

theorem round_end (hend : (input.length : Int) < inputpos + c.size)
    (hmax : inputpos + c.size ≤ intMax) :
    round input c inputpos i =
      if c.arg < 0 then some (.endOfInput inputpos) else some .failed := by
  have hwrap : wrapInt (inputpos + c.size) = inputpos + c.size := by
    apply wrapInt_eq
    unfold IsInt intMax at *
    omega
  unfold round
  dsimp only
  rw [overflowCheck_keeps hsize (by omega), hwrap, if_neg (by omega)]

theorem round_fault {value : List UInt8 → Element} (hkind : c.kind = .fixed (some value))
    (hfits : (input.length : Int) ≤ intMax)
    (hmax : inputpos + c.size = intMax + 1) : round input c inputpos i = none := by
  have hwrap : wrapInt (inputpos + c.size) = -2 ^ 31 := by
    rw [hmax]
    decide
  unfold round switchKind
  dsimp only
  rw [overflowCheck_keeps hsize (by omega), hwrap, if_pos (by omega), hkind]
  dsimp only
  rw [loadAt_eq_none (by omega)]
  rfl

theorem round_reset (hmax : intMax + 1 < inputpos + c.size) :
    round input c inputpos i = round input c 0 i := by
  have hzero : overflowCheck c.size 0 = 0 := by
    rw [overflowCheck_fixed hsize, ite_self]
  unfold round
  rw [overflowCheck_fixed hsize, if_pos hmax, hzero]

theorem loop_values (hkind : c.kind = .fixed value) (hfits : (input.length : Int) ≤ intMax)
    (m fuel : Nat) {s : LoopState} (h : Inside input s.inputpos)
    (hend : s.inputpos + m * c.size ≤ input.length) (hi : 0 ≤ s.i) (hmax : s.i + m ≤ intMax)
    (harg : c.arg < s.i ∨ s.i + m ≤ c.arg) :
    ∃ s', loop input c (m + fuel) s = loop input c fuel s' ∧
      s'.inputpos = s.inputpos + m * c.size ∧ s'.i = s.i + m ∧ s'.rounds = s.rounds + m := by
  induction m generalizing s with
  | zero =>
    refine ⟨s, by rw [Nat.zero_add], ?_, ?_, rfl⟩
    · rw [Nat.cast_zero, zero_mul, add_zero]
    · rw [Nat.cast_zero, add_zero]
  | succ m ih =>
    rw [Nat.cast_succ] at *
    have hmul : ((m : Int) + 1) * c.size = m * c.size + c.size := by
      rw [add_mul, one_mul]
    have hnonneg : 0 ≤ (m : Int) * c.size := mul_nonneg (Nat.cast_nonneg m) (by omega)
    rw [hmul] at hend ⊢
    have ⟨v, hr⟩ := round_value (i := s.i) hsize hkind hfits h (by omega)
    have ⟨s', hloop, hpos, hi', hrounds⟩ := loop_next (m + fuel) (by omega) hr
    rw [wrapInt_eq (by unfold IsInt intMax at *; omega)] at hi'
    have hinside : Inside input s'.inputpos := by
      unfold Inside at *
      omega
    have ⟨t, ht, htpos, hti, htrounds⟩ := @ih s' hinside (by omega) (by omega) (by omega) (by omega)
    refine ⟨t, ?_, by omega, by omega, by omega⟩
    rw [← ht, ← hloop]
    congr 1
    omega

end

theorem values_spec {inputlen size n : Int} (hsize : size = 1 ∨ size = 2 ∨ size = 4 ∨ size = 8)
    (hn : (inputlen - inputpos) / size = n) (hpos : 0 ≤ inputpos) (hend : inputpos ≤ inputlen)
    (hfits : inputlen ≤ intMax) :
    0 ≤ n ∧ n ≤ inputlen ∧ inputpos + n * size ≤ inputlen ∧ inputlen < inputpos + n * size + size ∧
      (intMax + 1 < inputpos + n * size + size →
        1 ≤ inputlen / size ∧ inputlen / size * size + size = intMax + 1 ∧
          n + inputlen / size ≤ intMax) := by
  unfold intMax at *
  rcases hsize with rfl | rfl | rfl | rfl <;> omega

theorem stops_before (hc : c.WellFormed) (hkind : c.kind = .fixed value)
    (hfits : (input.length : Int) ≤ intMax) (h : Inside input inputpos) {n : Nat}
    (hn : (input.length - inputpos) / c.size = n)
    (hok : inputpos + n * c.size + c.size ≤ intMax ∨ (0 ≤ c.arg ∧ c.arg ≤ n)) :
    Stops input c inputpos := by
  obtain ⟨hcases, hargb, _⟩ := hc.fixed hkind
  have hsize : 1 ≤ c.size ∧ c.size ≤ 8 := by omega
  obtain ⟨_, hnlen, hnend, hnlast, _⟩ := values_spec hcases hn h.1 h.2 hfits
  unfold intMax at hfits
  by_cases harg : 0 ≤ c.arg ∧ c.arg ≤ n
  · have hcast : ((c.arg.toNat : Nat) : Int) = c.arg := Int.toNat_of_nonneg harg.1
    have hmul : (c.arg.toNat : Int) * c.size ≤ n * c.size :=
      mul_le_mul_of_nonneg_right (by omega) (by omega)
    obtain ⟨s, hloop, _, hi, hrounds⟩ := loop_values hsize hkind hfits c.arg.toNat
      (2 ^ 32 - c.arg.toNat - 1 + 1) (s := { inputpos, i := 0, rounds := 0, values := [] }) h (by dsimp only; omega) (le_refl 0) (by dsimp only; unfold intMax; omega)
      (by dsimp only; omega)
    rw [loop, if_pos (by dsimp only at hi; omega)] at hloop
    refine ⟨s, .done, ?_, fun hneg => by omega⟩
    unfold unpackCode
    rw [← hloop]
    congr 1
    omega
  · obtain ⟨s, hloop, hpos, hi, hrounds⟩ := loop_values hsize hkind hfits n
      (2 ^ 32 - n - 1 + 1) (s := { inputpos, i := 0, rounds := 0, values := [] }) h hnend (le_refl 0) (by dsimp only; unfold intMax; omega)
      (by dsimp only; omega)
    dsimp only at hpos hi hrounds
    rw [loop, if_neg (by omega), hpos, round_end hsize hnlast (by omega)] at hloop
    have hcode : unpackCode input c inputpos = loop input c (n + (2 ^ 32 - n - 1 + 1))
        { inputpos, i := 0, rounds := 0, values := [] } := by
      unfold unpackCode
      congr 1
      omega
    by_cases hneg : c.arg < 0
    · rw [if_pos hneg] at hloop
      exact ⟨_, _, hcode.trans hloop, fun _ => by dsimp only; omega⟩
    · rw [if_neg hneg] at hloop
      exact ⟨_, _, hcode.trans hloop, fun _ => by omega⟩

theorem loop_reset (hsize : 1 ≤ c.size ∧ c.size ≤ 8) (hkind : c.kind = .fixed value)
    (hfits : (input.length : Int) ≤ intMax) (fuel : Nat) {s : LoopState}
    (hend : c.size ≤ input.length) (hmax : intMax + 1 < s.inputpos + c.size) (harg : s.i ≠ c.arg) :
    ∃ s', loop input c (fuel + 1) s = loop input c fuel s' ∧ s'.inputpos = c.size ∧
      s'.i = wrapInt (s.i + 1) ∧ s'.rounds = s.rounds + 1 := by
  have ⟨v, hr⟩ := round_value (i := s.i) hsize hkind hfits
    (show Inside input 0 from ⟨le_refl 0, Int.natCast_nonneg _⟩) (by rw [zero_add]; exact hend)
  rw [← round_reset hsize hmax, zero_add] at hr
  exact loop_next _ harg hr

theorem stops_behind {value : List UInt8 → Element} (hc : c.WellFormed)
    (hkind : c.kind = .fixed (some value)) (hfits : (input.length : Int) ≤ intMax)
    (h : Inside input inputpos) {n : Nat} (hn : (input.length - inputpos) / c.size = n)
    (hlast : intMax < inputpos + n * c.size + c.size) (harg : c.arg < 0 ∨ n < c.arg) :
    Stops input c inputpos ↔
      0 ≤ c.arg ∧ intMax + 1 < inputpos + n * c.size + c.size ∧
        c.arg ≤ n + input.length / c.size := by
  obtain ⟨hcases, hargb, hint⟩ := hc.fixed hkind
  have hsize : 1 ≤ c.size ∧ c.size ≤ 8 := by omega
  obtain ⟨_, hnlen, hnend, hnlast, hbehind⟩ := values_spec hcases hn h.1 h.2 hfits
  have hcode : ∀ fuel, n + fuel = 2 ^ 32 → unpackCode input c inputpos =
      loop input c (n + fuel) { inputpos, i := 0, rounds := 0, values := [] } := by
    intro fuel hfuel
    unfold unpackCode
    rw [hfuel]
  have hnone : unpackCode input c inputpos = none → ¬Stops input c inputpos := by
    rintro hnone ⟨s, ending, hs, _⟩
    rw [hnone] at hs
    cases hs
  have hvalues := fun fuel => loop_values hsize hkind hfits n fuel
    (s := { inputpos, i := 0, rounds := 0, values := [] }) h hnend (le_refl 0)
    (by dsimp only; omega) (by dsimp only; omega)
  have hint32 : intMax = 2 ^ 31 - 1 := rfl
  by_cases hmax : inputpos + n * c.size + c.size = intMax + 1
  · apply iff_of_false _ (by omega)
    apply hnone
    obtain ⟨s, hloop, hpos, hi, _⟩ := hvalues (2 ^ 32 - n - 1 + 1)
    dsimp only at hpos hi
    rw [hcode (2 ^ 32 - n - 1 + 1) (by omega), hloop, loop, if_neg (by omega), hpos,
      round_fault hsize hkind hfits hmax]
    rfl
  · obtain ⟨hk, hkend, hkmax⟩ := hbehind (by omega)
    obtain ⟨k, hkn⟩ : ∃ k : Nat, (input.length : Int) / c.size = k + 1 :=
      ⟨((input.length : Int) / c.size - 1).toNat, by omega⟩
    rw [hkn, add_mul, one_mul] at hkend
    have hloop : ∀ m fuel : Nat, n + (m + fuel + 1) = 2 ^ 32 → m ≤ k →
        c.arg < 0 ∨ (n : Int) + m + 1 ≤ c.arg →
        ∃ s, unpackCode input c inputpos = loop input c fuel s ∧
          s.inputpos = c.size + m * c.size ∧ s.i = n + 1 + m := by
      intro m fuel hfuel hm hcount
      have hmul : (m : Int) * c.size ≤ k * c.size :=
        mul_le_mul_of_nonneg_right (by omega) (by omega)
      obtain ⟨s, hs, hpos, hi, _⟩ := hvalues (m + fuel + 1)
      dsimp only at hpos hi
      obtain ⟨t, ht, htpos, hti, _⟩ := loop_reset hsize hkind hfits (m + fuel) (s := s) (by omega)
        (by omega) (by omega)
      rw [wrapInt_eq (by unfold IsInt intMax; omega)] at hti
      obtain ⟨u, hu, hupos, hui, _⟩ := loop_values hsize hkind hfits m fuel (s := t)
        (by unfold Inside; omega) (by omega)
        (by omega) (by omega) (by omega)
      exact ⟨u, (hcode _ hfuel).trans (hs.trans (ht.trans hu)), by omega, by omega⟩
    by_cases hcount : 0 ≤ c.arg ∧ c.arg ≤ n + input.length / c.size
    · apply iff_of_true _ ⟨hcount.1, by omega, hcount.2⟩
      obtain ⟨s, hs, _, hi⟩ := hloop (c.arg - n - 1).toNat
        (2 ^ 32 - n - (c.arg - n - 1).toNat - 2 + 1) (by omega) (by omega) (by omega)
      rw [loop, if_pos (by omega)] at hs
      exact ⟨s, .done, hs, fun hneg => by omega⟩
    · apply iff_of_false _ fun hok => hcount ⟨hok.1, hok.2.2⟩
      apply hnone
      obtain ⟨s, hs, hpos, hi⟩ := hloop k (2 ^ 32 - n - k - 2 + 1) (by omega) (by omega) (by omega)
      rw [hs, loop, if_neg (by omega), round_fault hsize hkind
        hfits (by omega)]
      rfl

/-- The values from a position on end before `INT_MAX`, or the repeat argument is used up before.  Behind
`INT_MAX + 1` the position is set back, and the values are read from the begin of the input again. -/
def FixedOk (inputlen size arg inputpos : Int) : Prop :=
  let n := (inputlen - inputpos) / size
  inputpos + n * size + size ≤ intMax ∨
    (0 ≤ arg ∧ (arg ≤ n ∨
      (intMax + 1 < inputpos + n * size + size ∧ arg ≤ n + inputlen / size)))

theorem stops_values {value : List UInt8 → Element} (hc : c.WellFormed)
    (hfits : (input.length : Int) ≤ intMax) (h : Inside input inputpos)
    (hkind : c.kind = .fixed (some value)) :
    Stops input c inputpos ↔ FixedOk input.length c.size c.arg inputpos := by
  have ⟨hcases, _, _⟩ := hc.fixed hkind
  have ⟨hnonneg, _⟩ := values_spec hcases rfl h.1 h.2 hfits
  obtain ⟨n, hn⟩ : ∃ n : Nat, (input.length - inputpos) / c.size = n :=
    ⟨_, (Int.toNat_of_nonneg hnonneg).symm⟩
  unfold FixedOk
  dsimp only
  rw [hn]
  by_cases hok : inputpos + n * c.size + c.size ≤ intMax ∨ (0 ≤ c.arg ∧ c.arg ≤ n)
  · exact iff_of_true (stops_before hc hkind hfits h hn hok)
      (hok.imp_right fun ⟨hlow, hhigh⟩ => ⟨hlow, .inl hhigh⟩)
  · rw [stops_behind hc hkind hfits h hn (by omega) (by omega)]
    omega

theorem stops_skip (hc : c.WellFormed) (hfits : (input.length : Int) ≤ intMax)
    (h : Inside input inputpos) (hkind : c.kind = .fixed none) :
    Stops input c inputpos ↔
      0 ≤ c.arg ∨ (input.length : Int) < intMax ∨ c.arg = -2 ^ 31 := by
  have ⟨_, hargb, hint⟩ := hc.fixed hkind
  have hsize : c.size = 1 := by
    have hrest := hc.2
    rw [hkind] at hrest
    exact hrest.1
  by_cases hlen : (input.length : Int) < intMax
  · have hn : (input.length - inputpos) / c.size = (input.length - inputpos).toNat := by
      rw [hsize, Int.ediv_one, Int.toNat_of_nonneg (by unfold Inside at h; omega)]
    apply iff_of_true (stops_before hc hkind hfits h hn _) (.inr (.inl hlen))
    left
    rw [hsize]
    unfold Inside at h
    omega
  · have hround : ∀ p i, Inside input p →
        ∃ p' v, round input c p i = some (.next p' i v) ∧ Inside input p' := by
      intro p i hp
      by_cases hend : p + c.size ≤ input.length
      · have ⟨v, hr⟩ := round_value (i := i) (by omega) hkind hfits hp hend
        exact ⟨_, v, hr, by unfold Inside at *; omega⟩
      · have hwrap : wrapInt (p + c.size) = -2 ^ 31 := by
          have hmax : p + c.size = intMax + 1 := by
            unfold Inside at hp
            omega
          rw [hmax]
          decide
        have hinside : Inside input 0 := ⟨le_refl 0, Int.natCast_nonneg _⟩
        refine ⟨0, none, ?_, hinside⟩
        unfold round switchKind advance
        dsimp only
        rw [overflowCheck_keeps (by omega) (by unfold Inside at hp; omega), hwrap,
          if_pos (by omega), hkind]
        rfl
    rw [stops_endless hint hargb.symm hround h]
    unfold IsInt intMax at *
    omega

end

end Php53.Standard.Unpack
