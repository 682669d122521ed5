import Php53.Standard.UnpackRounds

/-!
# UnpackOnce — codes of one round

`@`, and the codes with a length instead of a repeat argument.  The length of `h` and `H` is -1 where
one digit is taken off no byte at all; then everything behind the position is copied.
-/

open Reasoning

namespace Php53.Standard.Unpack

open Zend

def Stops (input : List UInt8) (c : Code) (inputpos : Int) : Prop :=
  ∃ s ending, unpackCode input c inputpos = some (s, ending) ∧
    (c.argb < 0 → (s.rounds : Int) ≤ input.length + 1)

section

variable {input : List UInt8} {c : Code} {inputpos : Int}

theorem loop_once {fuel : Nat} {s : LoopState} {r : Round} (harg : s.i ≠ c.arg)
    (hround : round input c s.inputpos s.i = some r)
    (hnext : ∀ inputpos i value, r = .next inputpos i value → wrapInt (i + 1) = c.arg) :
    ∃ s' ending, loop input c (fuel + 2) s = some (s', ending) ∧ s'.rounds = s.rounds + 1 := by
  rw [loop, if_neg harg, hround, Option.bind_some]
  cases r with
  | next inputpos i value =>
    have hdone := hnext inputpos i value rfl
    dsimp only
    rw [loop, if_pos hdone]
    exact ⟨_, _, rfl, rfl⟩
  | endOfInput inputpos => exact ⟨_, _, rfl, rfl⟩
  | failed => exact ⟨_, _, rfl, rfl⟩
  | bailout => exact ⟨_, _, rfl, rfl⟩

theorem stops_of_once {r : Round} (harg : c.arg ≠ 0) (hround : round input c inputpos 0 = some r)
    (hnext : ∀ inputpos i value, r = .next inputpos i value → wrapInt (i + 1) = c.arg) :
    Stops input c inputpos := by
  have ⟨s, ending, hloop, hrounds⟩ := @loop_once input c (2 ^ 32 - 2)
    { inputpos, i := 0, rounds := 0, values := [] } r (Ne.symm harg) hround hnext
  refine ⟨s, ending, hloop, fun _ => ?_⟩
  rw [hrounds]
  dsimp only
  omega

theorem not_stops_of_none (harg : c.arg ≠ 0) (hround : round input c inputpos 0 = none) :
    ¬Stops input c inputpos := by
  rintro ⟨s, ending, hcode, _⟩
  have hnone : unpackCode input c inputpos = none := by
    show loop input c ((2 ^ 32 - 1) + 1) _ = none
    rw [loop, if_neg (Ne.symm harg), hround]
    rfl
  rw [hnone] at hcode
  cases hcode

theorem wrapInt_pred {x : Int} (h : IsInt x) : wrapInt (wrapInt (x - 1) + 1) = x := by
  have ⟨hint, k, hk⟩ := wrapInt_spec (x - 1)
  have ⟨hint', k', hk'⟩ := wrapInt_spec (wrapInt (x - 1) + 1)
  unfold IsInt intMax at *
  omega

theorem advance_counter {p size i : Int} {v : Option Element} {r : Round} {inputpos i' : Int}
    {value : Option Element} (h : advance p size i v = some r) (hr : r = .next inputpos i' value) :
    i' = i := by
  rw [hr] at h
  cases h
  rfl

theorem stops_position (hc : c.WellFormed) (hfits : (input.length : Int) ≤ intMax)
    (h : Inside input inputpos) (hkind : c.kind = .position) : Stops input c inputpos := by
  obtain ⟨hargb, hrest⟩ := hc
  rw [hkind] at hrest
  obtain ⟨hsize, harg⟩ := hrest
  by_cases hzero : c.arg = 0
  · refine ⟨{ inputpos, i := 0, rounds := 0, values := [] }, .done, ?_, fun _ => ?_⟩
    · show loop input c ((2 ^ 32 - 1) + 1) _ = _
      rw [loop, if_pos hzero.symm]
    · show (0 : Int) ≤ input.length + 1
      omega
  · have hcheck : overflowCheck c.size inputpos = inputpos := by
      rw [hsize]
      rfl
    have hsum : wrapInt (inputpos + c.size) ≤ input.length := by
      rw [hsize, add_zero, wrapInt_eq]
      · exact h.2
      · unfold Inside at h
        unfold IsInt intMax at *
        omega
    have hround : ∃ r, round input c inputpos 0 = some r ∧ ∀ inputpos i value,
        r = .next inputpos i value → i = wrapInt (c.arg - 1) := by
      unfold round switchKind
      dsimp only
      rw [hcheck, if_pos hsum, hkind]
      exact ⟨_, rfl, fun _ _ _ hr => advance_counter rfl hr⟩
    obtain ⟨r, hr, hcounter⟩ := hround
    apply stops_of_once hzero hr
    intro inputpos i value hnext
    rw [hcounter _ _ _ hnext, wrapInt_pred (harg ▸ hargb)]

theorem stops_string {pad : UInt8} (hc : c.WellFormed) (h : Inside input inputpos)
    (hkind : c.kind = .string pad) : Stops input c inputpos := by
  have hrest := hc.2
  rw [hkind] at hrest
  have ⟨_, harg⟩ := hrest
  have hcheck := overflowCheck_inside c.size h
  have hround : ∃ r, round input c inputpos 0 = some r ∧ ∀ inputpos i value,
      r = .next inputpos i value → i = 0 := by
    unfold round switchKind
    dsimp only
    rw [hkind]
    split
    · have hload : ∃ bs, loadAt input (overflowCheck c.size inputpos)
          (if 0 ≤ c.size ∧ c.size < input.length - overflowCheck c.size inputpos then c.size
            else input.length - overflowCheck c.size inputpos) = some bs := by
        unfold Inside at hcheck
        apply exists_loadAt hcheck <;> split <;> omega
      have ⟨bs, hbs⟩ := hload
      dsimp only
      rw [hbs]
      exact ⟨_, rfl, fun _ _ _ hr => advance_counter rfl hr⟩
    · rw [if_neg (by omega)]
      exact ⟨.failed, rfl, fun _ _ _ hr => nomatch hr⟩
  have ⟨r, hr, hcounter⟩ := hround
  apply stops_of_once (by omega) hr
  intro inputpos i value hnext
  rw [hcounter _ _ _ hnext, harg]
  rfl

end

theorem overflowCheck_small (size inputpos : Int) (hsize : 1 ≤ size ∧ size ≤ intMax) :
    overflowCheck size inputpos = if intMax + 1 < inputpos + size then 0 else inputpos := by
  have hwrap : wrapInt (wrapInt (intMax - size) + 1) = intMax - size + 1 := by
    rw [wrapInt_eq (x := intMax - size), wrapInt_eq]
    · unfold IsInt intMax at *
      omega
    · unfold IsInt intMax at *
      omega
  unfold overflowCheck
  rw [hwrap]
  split_ifs <;> omega

variable {argb : Int}

theorem hexLength_even (inputlen inputpos size : Int) (h : ¬(0 < argb ∧ argb % 2 = 1)) :
    hexLength inputlen inputpos size argb % 2 = 0 := by
  have ⟨_, k, hk⟩ := wrapInt_spec ((inputlen - inputpos) * 2)
  have ⟨_, k', hk'⟩ := wrapInt_spec (size * 2)
  have heven : (if 0 ≤ size ∧ wrapInt (size * 2) < wrapInt ((inputlen - inputpos) * 2) then
      wrapInt (size * 2) else wrapInt ((inputlen - inputpos) * 2)) % 2 = 0 := by
    split <;> omega
  unfold hexLength
  dsimp only
  split
  · next hargb =>
    rw [Int.tmod_eq_emod_of_nonneg hargb.le]
    generalize (if 0 ≤ size ∧ wrapInt (size * 2) < wrapInt ((inputlen - inputpos) * 2) then
      wrapInt (size * 2) else wrapInt ((inputlen - inputpos) * 2)) = len at *
    have ⟨_, j, hj⟩ := wrapInt_spec (len - argb % 2)
    omega
  · exact heven

variable {inputlen : Int}

theorem hexLength_odd {inputpos : Int} (hargb : 0 < argb ∧ argb % 2 = 1) (hmax : argb < intMax)
    (h : 0 ≤ inputpos ∧ inputpos ≤ inputlen) (hfits : inputlen ≤ intMax) :
    (wrapInt (overflowCheck (hexSize argb) inputpos + hexSize argb) ≤ inputlen ∧
      hexLength inputlen (overflowCheck (hexSize argb) inputpos) (hexSize argb) argb = -1) ↔
      inputpos = inputlen ∧ inputlen + (argb + 1) / 2 = intMax + 1 := by
  have hsize : hexSize argb = (argb + 1) / 2 := by
    unfold hexSize
    rw [if_pos hargb.1, Int.tmod_eq_emod_of_nonneg hargb.1.le, hargb.2, wrapInt_eq,
      Int.tdiv_eq_ediv_of_nonneg (by omega)]
    unfold IsInt intMax at *
    omega
  have hcheck := overflowCheck_small (hexSize argb) inputpos
    (by unfold intMax at *; omega)
  rw [hsize] at *
  have hlen : ∀ p, 0 ≤ p → p ≤ inputlen →
      (hexLength inputlen p ((argb + 1) / 2) argb = -1 ↔ p = inputlen) := by
    intro p hlow hhigh
    have ⟨hint, k, hk⟩ := wrapInt_spec ((inputlen - p) * 2)
    have htwice : wrapInt ((argb + 1) / 2 * 2) = argb + 1 := by
      have heq : (argb + 1) / 2 * 2 = argb + 1 := by omega
      rw [heq]
      apply wrapInt_eq
      unfold IsInt intMax at *
      omega
    unfold hexLength
    dsimp only
    rw [htwice, if_pos hargb.1, Int.tmod_eq_emod_of_nonneg hargb.1.le, hargb.2]
    have ⟨hint', j, hj⟩ := wrapInt_spec
      ((if 0 ≤ (argb + 1) / 2 ∧ argb + 1 < wrapInt ((inputlen - p) * 2) then argb + 1
        else wrapInt ((inputlen - p) * 2)) - 1)
    unfold IsInt intMax at *
    split at * <;> omega
  rw [hcheck]
  by_cases hover : intMax + 1 < inputpos + (argb + 1) / 2
  · rw [if_pos hover, hlen 0 (le_refl 0) (by omega)]
    unfold intMax at *
    omega
  · rw [if_neg hover, hlen inputpos h.1 h.2]
    have ⟨hint, k, hk⟩ := wrapInt_spec (inputpos + (argb + 1) / 2)
    unfold IsInt intMax at *
    omega

theorem hexLength_max {inputpos : Int} (h : 0 ≤ inputpos ∧ inputpos ≤ inputlen)
    (hfits : inputlen ≤ intMax) :
    (wrapInt (overflowCheck (hexSize intMax) inputpos + hexSize intMax) ≤ inputlen ∧
      hexLength inputlen (overflowCheck (hexSize intMax) inputpos) (hexSize intMax) intMax = -1) ↔
      inputlen = 0 := by
  have hsize : hexSize intMax = -2 ^ 30 := by decide
  have hcheck : overflowCheck (-2 ^ 30) inputpos = 0 := by
    have hwrap : wrapInt (wrapInt (intMax - -2 ^ 30) + 1) = -2 ^ 30 := by decide
    unfold overflowCheck
    rw [hwrap]
    split_ifs <;> omega
  have hwrap : wrapInt (0 + -2 ^ 30) = -2 ^ 30 := by decide
  have ⟨hint, k, hk⟩ := wrapInt_spec ((inputlen - 0) * 2)
  have ⟨hint', j, hj⟩ := wrapInt_spec (wrapInt ((inputlen - 0) * 2) - 1)
  rw [hsize, hcheck, hwrap]
  unfold hexLength
  dsimp only
  have hneg : ¬(0 ≤ (-2 ^ 30 : Int) ∧ wrapInt (-2 ^ 30 * 2) < wrapInt ((inputlen - 0) * 2)) :=
    fun hboth => absurd hboth.1 (by decide)
  have hpos : 0 < intMax := by decide
  have hmod : intMax.tmod 2 = 1 := by decide
  rw [if_neg hneg, if_pos hpos, hmod]
  unfold IsInt intMax at *
  omega

/-- An odd number of digits does not end behind the last byte an `int` can count, from the end of the input
on, and is not `INT_MAX` for no input. -/
def HexOk (inputlen arg inputpos : Int) : Prop :=
  0 < arg → arg % 2 = 1 →
    (arg = intMax → inputlen ≠ 0) ∧
      (arg < intMax → inputpos = inputlen → inputlen + (arg + 1) / 2 ≠ intMax + 1)

theorem hexOk_iff {inputpos : Int} (hargb : IsInt argb) (h : 0 ≤ inputpos ∧ inputpos ≤ inputlen)
    (hfits : inputlen ≤ intMax) :
    HexOk inputlen argb inputpos ↔
      (wrapInt (overflowCheck (hexSize argb) inputpos + hexSize argb) ≤ inputlen →
        hexLength inputlen (overflowCheck (hexSize argb) inputpos) (hexSize argb) argb ≠ -1) := by
  unfold HexOk
  by_cases hodd : 0 < argb ∧ argb % 2 = 1
  · have ⟨_, hle⟩ := hargb
    by_cases hmax : argb = intMax
    · have hlen := hexLength_max h hfits
      rw [← hmax] at hlen
      omega
    · have hlen := hexLength_odd hodd (by omega) h hfits
      omega
  · apply iff_of_true (by omega)
    intro _ hlen
    have heven := hexLength_even inputlen (overflowCheck (hexSize argb) inputpos) (hexSize argb) hodd
    omega

section

variable {input : List UInt8} {c : Code} {inputpos : Int}

theorem hexLength_le {size : Int} (hlow : 0 ≤ inputlen - inputpos) (hfits : inputlen ≤ intMax)
    (hpos : 0 ≤ inputpos) (hmemory : ¬wrapInt (hexLength inputlen inputpos size argb + 1) < 0) :
    hexLength inputlen inputpos size argb ≤ 2 * (inputlen - inputpos) := by
  have ⟨hint, k, hk⟩ := wrapInt_spec ((inputlen - inputpos) * 2)
  have ⟨hint', k', hk'⟩ := wrapInt_spec (hexLength inputlen inputpos size argb + 1)
  unfold hexLength at *
  dsimp only at *
  generalize hlen : (if 0 ≤ size ∧ wrapInt (size * 2) < wrapInt ((inputlen - inputpos) * 2) then
    wrapInt (size * 2) else wrapInt ((inputlen - inputpos) * 2)) = len at *
  have hle : IsInt len ∧ len ≤ wrapInt ((inputlen - inputpos) * 2) := by
    rw [← hlen]
    split
    · next hsize => exact ⟨(wrapInt_spec _).1, hsize.2.le⟩
    · exact ⟨hint, le_refl _⟩
  by_cases hargb : 0 < argb
  · rw [if_pos hargb] at *
    have hmod := Int.tmod_eq_emod_of_nonneg (b := 2) hargb.le
    have ⟨hint'', k'', hk''⟩ := wrapInt_spec (len - argb.tmod 2)
    unfold IsInt intMax at *
    omega
  · rw [if_neg hargb] at *
    unfold IsInt intMax at *
    omega

theorem hexLength_isInt (inputlen inputpos size argb : Int) :
    IsInt (hexLength inputlen inputpos size argb) := by
  have hint := (wrapInt_spec ((inputlen - inputpos) * 2)).1
  have hsize := (wrapInt_spec (size * 2)).1
  unfold hexLength
  dsimp only
  split_ifs
  · exact (wrapInt_spec _).1
  · exact (wrapInt_spec _).1
  · exact hsize
  · exact hint

theorem stops_hex {nibbleshift : Nat} (hc : c.WellFormed) (hfits : (input.length : Int) ≤ intMax)
    (h : Inside input inputpos) (hkind : c.kind = .hex nibbleshift) :
    Stops input c inputpos ↔ HexOk input.length c.argb inputpos := by
  have hrest := hc.2
  rw [hkind] at hrest
  have ⟨hsize, harg⟩ := hrest
  have hcheck := overflowCheck_inside c.size h
  have hround : round input c inputpos 0 =
      if wrapInt (overflowCheck c.size inputpos + c.size) ≤ input.length then
        switchKind input c (overflowCheck c.size inputpos) 0
      else if c.arg < 0 then some (.endOfInput (overflowCheck c.size inputpos))
      else some .failed := rfl
  rw [hexOk_iff hc.1 h hfits, ← hsize]
  generalize overflowCheck c.size inputpos = p at *
  by_cases hsum : wrapInt (p + c.size) ≤ input.length
  · rw [if_pos hsum] at hround
    unfold switchKind at hround
    rw [hkind] at hround
    dsimp only at hround
    by_cases hmemory : wrapInt (hexLength input.length p c.size c.argb + 1) < 0
    · rw [if_pos hmemory] at hround
      have hne : hexLength input.length p c.size c.argb ≠ -1 := by
        intro hlen
        rw [hlen] at hmemory
        exact absurd hmemory (by decide)
      exact iff_of_true (stops_of_once (by omega) hround fun _ _ _ hr => nomatch hr) fun _ => hne
    · rw [if_neg hmemory] at hround
      by_cases hneg : hexLength input.length p c.size c.argb < 0
      · rw [if_pos hneg] at hround
        have hlen : hexLength input.length p c.size c.argb = -1 := by
          have ⟨hint', k, hk⟩ := wrapInt_spec (hexLength input.length p c.size c.argb + 1)
          have hint := hexLength_isInt input.length p c.size c.argb
          unfold IsInt intMax at hint hint'
          omega
        exact iff_of_false (not_stops_of_none (by omega) hround) fun hne => hne hsum hlen
      · rw [if_neg hneg] at hround
        have hle := hexLength_le (by unfold Inside at hcheck; omega) hfits hcheck.1 hmemory
        have ⟨bs, hbs⟩ : ∃ bs, loadAt input p
            ((hexLength input.length p c.size c.argb + 1) / 2) = some bs :=
          exists_loadAt hcheck (by omega) (by omega)
        rw [hbs, Option.bind_some] at hround
        apply iff_of_true _ fun _ => by omega
        have ⟨r, hr, hcounter⟩ : ∃ r, round input c inputpos 0 = some r ∧ ∀ inputpos i value,
            r = .next inputpos i value → i = 0 :=
          ⟨_, hround, fun _ _ _ hr => advance_counter rfl hr⟩
        apply stops_of_once (by omega) hr
        intro inputpos i value hnext
        rw [hcounter _ _ _ hnext, harg]
        rfl
  · rw [if_neg hsum, if_neg (by omega)] at hround
    exact iff_of_true (stops_of_once (by omega) hround fun _ _ _ hr => nomatch hr)
      fun h => absurd h hsum

end

end Php53.Standard.Unpack
