import Mathlib.Tactic.Ring
import Php53.Calendar.JewishYears

/-!
# Tishri — the search for the molad at the start of a year

The tables and `Tishri1` know a year by its number in the metonic cycle, the search finds it by the
day.  What they compute is the molad and the first day of a year of `JewishYears`.
-/

namespace Php53.Calendar

variable {i y : Int}

theorem item_yearOffset (h : 0 ≤ i ∧ i < 19) :
    item yearOffset i = some (monthsBefore i) := by
  obtain ⟨hlo, hhi⟩ := h
  interval_cases i <;> decide

theorem mem_leapYears (h : 0 ≤ i ∧ i < 19) :
    i ∈ [2, 5, 7, 10, 13, 16, 18] ↔ jewishLeap i = true := by
  obtain ⟨hlo, hhi⟩ := h
  interval_cases i <;> decide

theorem mem_lastLeapYears (h : 0 ≤ i ∧ i < 19) :
    i ∈ [3, 6, 8, 11, 14, 17, 0] ↔ jewishLeap (i - 1) = true := by
  obtain ⟨hlo, hhi⟩ := h
  interval_cases i <;> decide

theorem jewishLeap_cycle (c i : Int) : jewishLeap (19 * c + i) = jewishLeap i := by
  unfold jewishLeap
  congr 2
  rw [show 7 * (19 * c + i) + 1 = (7 * i + 1) + 19 * (7 * c) by omega]
  omega

theorem monthsBefore_cycle (c i : Int) :
    monthsBefore (19 * c + i) = 235 * c + monthsBefore i := by
  unfold monthsBefore
  omega

theorem item_monthsPerYear (c : Int) (h : 0 ≤ i ∧ i < 19) :
    item monthsPerYear i =
      some (monthsBefore (19 * c + i + 1) - monthsBefore (19 * c + i)) := by
  rw [Int.add_assoc, monthsBefore_cycle, monthsBefore_cycle, Int.add_sub_add_left]
  obtain ⟨hlo, hhi⟩ := h
  interval_cases i <;> decide

theorem item_monthsPerYear_tmod (hy : 0 ≤ y) :
    item monthsPerYear (y.tmod 19) = some (if jewishLeap y then 13 else 12) := by
  have hmonths := item_monthsPerYear (y / 19) (i := y % 19) (by omega)
  have hbefore := monthsBefore_succ y
  rw [show 19 * (y / 19) + y % 19 = y by omega, hbefore] at hmonths
  rw [Int.tmod_eq_emod_of_nonneg hy, hmonths]
  congr 1
  omega

theorem halakimBefore_cycle (c i : Int) :
    halakimBefore (19 * c + i) = halakimBefore i + 179876755 * c := by
  unfold halakimBefore
  rw [monthsBefore_cycle]
  omega

theorem moladDay_bounds (h : 0 ≤ y ∧ y < 1000000) :
    0 ≤ moladDay y ∧ moladDay y < 400000000 := by
  unfold moladDay halakimBefore monthsBefore
  omega

theorem newYear_bounds (h : 0 ≤ y ∧ y < 1000000) :
    0 ≤ newYear y ∧ newYear y < 400000002 := by
  have hday := moladDay_bounds h
  have hrange := newYear_range y
  omega

section

variable {A : Arith} {hi : Int} (hA : A.ExactTo hi)
variable {n : Nat} {c i : Int}

include hA

theorem Arith.ExactTo.ulong_cast (h : n ≤ 18446744073709551615) :
    A.ulong (n : Int) = n := by
  rw [hA.ulong _ (by omega), Int.toNat_natCast]

theorem advance_spec {y z amount : Int} (hy : 0 ≤ moladDay y ∧ moladDay y < 400000000)
    (hamount : amount = halakimBefore z - halakimBefore y)
    (hsize : 0 ≤ amount ∧ amount ≤ 2147483647) :
    advance A (moladDay y) (moladRest y) amount = some (moladDay z, moladRest z) := by
  have hrest := moladRest_range y
  have hday : moladDay y + (moladRest y + amount) / 25920 = moladDay z := by
    unfold moladDay moladRest
    omega
  have hhalakim : (moladRest y + amount) % 25920 = moladRest z := by
    unfold moladRest
    omega
  unfold advance halakimPerDay
  simp (disch := omega) only [hA.long, Int.tdiv_eq_ediv_of_nonneg, Int.tmod_eq_emod_of_nonneg,
    Option.bind_eq_bind, Option.bind_some, Option.pure_def, hday, hhalakim]

omit hA in
theorem metonic_split {r1 r2 r : Nat} (hr1 : r1 = 31524 + n * 45971)
    (hr2 : r2 = r1 / 65536 + n * 2744) (hr : r = r2 % 25920 * 65536 + r1 % 65536) :
    31524 + n * 179876755 = r2 / 25920 * 65536 * 25920 + r := by
  have hhalves : 31524 + n * 179876755 = r2 * 65536 + r1 % 65536 := by
    clear hr
    omega
  calc 31524 + n * 179876755
      = (25920 * (r2 / 25920) + r2 % 25920) * 65536 + r1 % 65536 := by
        rw [Nat.div_add_mod, hhalves]
    _ = r2 / 25920 * 65536 * 25920 + r := by rw [hr]; ring

omit hA in
theorem molad_metonic {a r : Nat} (h : 31524 + n * 179876755 = a * 25920 + r) :
    moladDay (19 * n) = (a + r / 25920 : Nat) ∧ moladRest (19 * n) = (r % 25920 : Nat) := by
  have hmonths : monthsBefore (19 * n) = 235 * n := by
    unfold monthsBefore
    clear h
    omega
  have hbefore : halakimBefore (19 * n) = (a * 25920 + r : Nat) := by
    unfold halakimBefore
    rw [hmonths, ← h]
    push_cast
    omega
  unfold moladDay moladRest
  rw [hbefore]
  clear h hbefore hmonths
  constructor <;> omega

theorem moladOfMetonicCycle_spec (hc : 0 ≤ c ∧ c ≤ 50000) (hfit : c * 45971 ≤ hi) :
    moladOfMetonicCycle A c = some (moladDay (19 * c), moladRest (19 * c)) := by
  obtain ⟨n, rfl⟩ : ∃ n : Nat, c = n := ⟨c.toNat, by omega⟩
  have hmod : ∀ m k : Nat, m ≤ 2000000000000 → k = m / 25920 →
      A.ulong ((m : Int) - A.ulong (k * halakimPerDay)) = m % 25920 := by
    intro m k hm hk
    unfold halakimPerDay
    rw [hA.ulong (k * 25920) (by omega), hA.ulong _ (by omega)]
    omega
  have hprod : A.int (n * 45971) = some (n * 45971 : Int) ∧
      A.int (n * 2744) = some (n * 2744 : Int) :=
    ⟨hA.int _ (by omega), hA.int _ (by omega)⟩
  have hn : n ≤ 50000 := by omega
  clear hc hfit
  obtain ⟨r1, hr1⟩ : ∃ r, r = 31524 + n * 45971 := ⟨_, rfl⟩
  have hlow : A.ulong (newMoonOfCreation + A.ulong (n * 45971 : Int)) = r1 := by
    unfold newMoonOfCreation
    rw [hA.ulong (n * 45971) (by omega), hA.ulong _ (by omega)]
    omega
  obtain ⟨r2, hr2⟩ : ∃ r, r = r1 / 65536 + n * 2744 := ⟨_, rfl⟩
  have hhigh : A.ulong ((r1 >>> 16 : Nat) + A.ulong (n * 2744 : Int)) = r2 := by
    rw [hA.ulong (n * 2744) (by omega), Nat.shiftRight_eq_div_pow, hA.ulong _ (by omega)]
    omega
  have hr2' : r2 ≤ 137240000 := by omega
  obtain ⟨r, hr⟩ : ∃ r, r = r2 % 25920 * 65536 + r1 % 65536 := ⟨_, rfl⟩
  have ⟨hday, hrest⟩ := molad_metonic (metonic_split hr1 hr2 hr)
  clear hr1 hr2
  have hr' : r ≤ 1700000000 := by omega
  have hjoin : A.ulong ((r2 % 25920) <<< 16 : Nat) ||| (r1 &&& 0xFFFF) = r := by
    rw [hA.ulong_cast (by rw [Nat.shiftLeft_eq]; omega), Nat.and_two_pow_sub_one_eq_mod r1 16,
      ← Nat.shiftLeft_add_eq_or_of_lt (by omega), Nat.shiftLeft_eq]
    exact hr.symm
  have hlow16 : r / 25920 < 2 ^ 16 := by omega
  clear hr
  have hquot : A.ulong ((r2 / 25920) <<< 16 : Nat) ||| r / 25920 =
      r2 / 25920 * 65536 + r / 25920 := by
    rw [hA.ulong_cast (by rw [Nat.shiftLeft_eq]; omega),
      ← Nat.shiftLeft_add_eq_or_of_lt hlow16, Nat.shiftLeft_eq]
  have hfactors : ((halakimPerMetonicCycle.toNat &&& 0xFFFF : Nat) : Int) = 45971 ∧
      ((halakimPerMetonicCycle.toNat >>> 16 &&& 0xFFFF : Nat) : Int) = 2744 ∧
      halakimPerDay.toNat = 25920 := by decide
  unfold moladOfMetonicCycle
  rw [hfactors.1, hfactors.2.1, hfactors.2.2, hprod.1, hprod.2]
  simp only [Option.bind_eq_bind, Option.bind_some, hlow, hhigh, hmod r2 _ (by omega) rfl, hjoin,
    hquot, hmod r _ (by omega) rfl]
  rw [hA.long_bind _ (by omega), hA.long_bind _ (by omega), hday, hrest]
  rfl

variable (hhi : 2147483647 ≤ hi)
include hhi

theorem nextMolad (hi19 : 0 ≤ i ∧ i < 19) (hc : 0 ≤ c ∧ c ≤ 50000) :
    ∃ months amount, item monthsPerYear i = some months ∧
      A.int (halakimPerLunarCycle * months) = some amount ∧
      advance A (moladDay (19 * c + i)) (moladRest (19 * c + i)) amount =
        some (moladDay (19 * c + i + 1), moladRest (19 * c + i + 1)) := by
  have hsucc := monthsBefore_succ (19 * c + i)
  have hmonths : 0 ≤ monthsBefore (19 * c + i + 1) - monthsBefore (19 * c + i) ∧
      monthsBefore (19 * c + i + 1) - monthsBefore (19 * c + i) ≤ 13 := by
    split_ifs at hsucc <;> omega
  refine ⟨_, _, item_monthsPerYear c hi19, hA.int _ ?_, advance_spec hA ?_ ?_ ?_⟩
  · unfold halakimPerLunarCycle
    omega
  · exact moladDay_bounds (by omega)
  · unfold halakimPerLunarCycle halakimBefore
    omega
  · unfold halakimPerLunarCycle
    omega

theorem cycleLoop_spec (limit : Int) (hlimit : limit ≤ 324195159) :
    ∀ (n : Nat) (c : Int), 0 ≤ c → limit - moladDay (19 * c) ≤ n →
      moladDay (19 * c) ≤ limit + 6941 →
      ∃ c', 0 ≤ c' ∧ limit ≤ moladDay (19 * c') ∧ moladDay (19 * c') ≤ limit + 6941 ∧
        cycleLoop A limit n c (moladDay (19 * c)) (moladRest (19 * c)) =
          some (c', moladDay (19 * c'), moladRest (19 * c')) := by
  intro n
  induction n with
  | zero =>
    intro c hc hn hle
    refine ⟨c, hc, by omega, hle, ?_⟩
    unfold cycleLoop
    rw [if_neg (by omega)]
    rfl
  | succ n ih =>
    intro c hc hn hle
    unfold cycleLoop
    by_cases hlt : moladDay (19 * c) < limit
    · have hnext := halakimBefore_cycle (c + 1) 0
      have hhere := halakimBefore_cycle c 0
      rw [Int.add_zero] at hnext hhere
      have hzero : halakimBefore 0 = 31524 := by decide
      have hday : moladDay (19 * c) + 6939 ≤ moladDay (19 * (c + 1)) ∧
          moladDay (19 * (c + 1)) ≤ moladDay (19 * c) + 6940 := by
        unfold moladDay
        omega
      have hsmall : c ≤ 50000 := by
        unfold moladDay at hlt
        omega
      obtain ⟨c', hc', hge, hle', hrun⟩ := ih (c + 1) (by omega) (by omega) (by omega)
      refine ⟨c', hc', hge, hle', ?_⟩
      rw [if_pos hlt, hA.int _ (by omega), advance_spec hA (z := 19 * (c + 1))
        (by unfold moladDay; omega) (by unfold halakimPerMetonicCycle; omega) (by decide)]
      exact hrun
    · refine ⟨c, hc, by omega, hle, ?_⟩
      rw [if_neg hlt]
      rfl

theorem yearLoop_spec (inputDay c : Int) (hinput : -1000 ≤ inputDay ∧ inputDay ≤ 324195159)
    (hc : 0 ≤ c ∧ c ≤ 50000) :
    ∀ (n : Nat) (i : Int), 0 ≤ i → i + n = 18 →
      ∃ j, i ≤ j ∧ j ≤ 18 ∧ (j < 18 → inputDay - 74 < moladDay (19 * c + j)) ∧
        (i < j → moladDay (19 * c + j - 1) ≤ inputDay - 74) ∧
        yearLoop A inputDay n i (moladDay (19 * c + i)) (moladRest (19 * c + i)) =
          some (j, moladDay (19 * c + j), moladRest (19 * c + j)) := by
  intro n
  induction n with
  | zero =>
    intro i hi0 hin
    exact ⟨i, by omega, by omega, fun h => by omega, fun h => by omega, rfl⟩
  | succ n ih =>
    intro i hi0 hin
    unfold yearLoop
    rw [hA.long _ (by omega), Option.bind_eq_bind, Option.bind_some]
    by_cases hgt : moladDay (19 * c + i) > inputDay - 74
    · refine ⟨i, by omega, by omega, fun _ => hgt, fun h => by omega, ?_⟩
      rw [if_pos hgt]
      rfl
    · obtain ⟨months, amount, hitem, hint, hadvance⟩ := nextMolad hA hhi (i := i) (by omega) hc
      obtain ⟨j, hij, hj, hbehind, hbefore, hrun⟩ := ih (i + 1) (by omega) (by omega)
      refine ⟨j, by omega, hj, hbehind, fun _ => ?_, ?_⟩
      · by_cases hnext : i + 1 < j
        · exact hbefore hnext
        · rw [show 19 * c + j - 1 = 19 * c + i by omega]
          omega
      · simp only [if_neg hgt, hitem, hint, hadvance, hA.int (i + 1) (by omega),
          Option.bind_eq_bind, Option.bind_some, Int.add_assoc]
        exact hrun

theorem findTishriMolad_spec {inputDay : Int}
    (hinput : -11 ≤ inputDay ∧ inputDay ≤ 324194849) :
    ∃ c i, 0 ≤ c ∧ (0 ≤ i ∧ i < 19) ∧ inputDay - 75 ≤ moladDay (19 * c + i) ∧
      (19 * c + i = 0 ∨ moladDay (19 * c + i - 1) ≤ inputDay - 72) ∧
      findTishriMolad A inputDay =
        some (c, i, moladDay (19 * c + i), moladRest (19 * c + i)) := by
  obtain ⟨c₀, hc₀⟩ : ∃ c, c = (inputDay + 310) / 6940 := ⟨_, rfl⟩
  have hmolad := moladOfMetonicCycle_spec hA (c := c₀) (by omega) (by omega)
  have hhere := halakimBefore_cycle c₀ 0
  have hzero : halakimBefore 0 = 31524 := by decide
  rw [Int.add_zero] at hhere
  have hstart : moladDay (19 * c₀) ≤ inputDay - 6630 + 6941 := by
    unfold moladDay
    omega
  obtain ⟨c, hc, hge, hle, hcycle⟩ := cycleLoop_spec hA hhi (inputDay - 6630) (by omega)
    (inputDay - 6630 - moladDay (19 * c₀)).toNat c₀ (by omega) (by omega) hstart
  have hthere := halakimBefore_cycle c 0
  rw [Int.add_zero] at hthere
  have hc' : c ≤ 50000 := by
    unfold moladDay at hle
    omega
  obtain ⟨i, hi0, hi18, hbehind, hbefore, hyear⟩ :=
    yearLoop_spec hA hhi inputDay c (by omega) (by omega) 18 0 (by omega)
      (by omega)
  refine ⟨c, i, hc, by omega, ?_, ?_, ?_⟩
  · by_cases hlast : i = 18
    · have hcycle18 := halakimBefore_cycle c 18
      have h18 : halakimBefore 18 = 169957650 := by decide
      rw [hlast]
      unfold moladDay at hge ⊢
      omega
    · have h := hbehind (by omega)
      omega
  · by_cases hfirst : i = 0
    · have hleap : jewishLeap (19 * c - 1) = true := by
        rw [show 19 * c - 1 = 19 * (c - 1) + 18 by omega, jewishLeap_cycle]
        decide
      have hsucc := molad_succ (19 * c - 1)
      have hrest := moladRest_range (19 * c - 1)
      have hrest' := moladRest_range (19 * c)
      rw [hleap, if_pos rfl, Int.sub_add_cancel] at hsucc
      rw [hfirst, Int.add_zero]
      omega
    · have h := hbefore (by omega)
      omega
  · unfold findTishriMolad
    have hlimit : inputDay - 6940 + 310 = inputDay - 6630 := by omega
    rw [Int.add_zero] at hyear
    simp (disch := omega) only [hA.int, hA.long, Int.tdiv_eq_ediv_of_nonneg, ← hc₀, hmolad, hcycle,
      hyear, hlimit, Option.bind_eq_bind, Option.bind_some]
    rfl

theorem tishri1_spec (hi19 : 0 ≤ i ∧ i < 19) (hc : 0 ≤ c ∧ c ≤ 50000) :
    tishri1 A i (moladDay (19 * c + i)) (moladRest (19 * c + i)) = some (newYear (19 * c + i)) := by
  have hday := moladDay_bounds (y := 19 * c + i) (by omega)
  have hleap := mem_leapYears hi19
  have hlast := mem_lastLeapYears hi19
  rw [← jewishLeap_cycle c] at hleap hlast
  rw [← Int.add_sub_assoc] at hlast
  unfold tishri1 newYear delay noon am3h11m20 am9h32m43
  simp only [hleap, hlast]
  generalize moladDay (19 * c + i) = d at *
  simp (disch := omega) only [Int.tmod_eq_emod_of_nonneg, hA.int, hA.long, Option.bind_eq_bind,
    Option.bind_some, Option.pure_def, Bool.not_eq_true]
  by_cases hrule : moladRest (19 * c + i) ≥ 19440 ∨
      (jewishLeap (19 * c + i) = false ∧ d % 7 = 2 ∧ moladRest (19 * c + i) ≥ 9924) ∨
      (jewishLeap (19 * c + i - 1) = true ∧ d % 7 = 1 ∧ moladRest (19 * c + i) ≥ 16789)
  · have hdow : ((if d % 7 + 1 = 7 then 0 else d % 7 + 1) = 3 ∨
        (if d % 7 + 1 = 7 then 0 else d % 7 + 1) = 5 ∨
        (if d % 7 + 1 = 7 then 0 else d % 7 + 1) = 0) ↔ d % 7 = 2 ∨ d % 7 = 4 ∨ d % 7 = 6 := by
      split_ifs <;> omega
    simp only [if_pos hrule, Option.bind_some, hdow]
    split_ifs
    · rw [hA.long _ (by omega), Int.add_assoc]
      rfl
    · rfl
  · simp only [if_neg hrule, Option.bind_some]
    split_ifs
    · exact hA.long _ (by omega)
    · rw [Int.add_zero]

theorem findStartOfYear_spec {y : Int} (hy : 0 ≤ y ∧ y < 900000) (hfit : y / 19 * 45971 ≤ hi) :
    findStartOfYear A (y + 1) = some (y % 19, moladDay y, moladRest y, newYear y) := by
  obtain ⟨c, hc⟩ : ∃ c, c = y / 19 := ⟨_, rfl⟩
  obtain ⟨i, hrem⟩ : ∃ i, i = y % 19 := ⟨_, rfl⟩
  have hsplit : 19 * c + i = y := by omega
  have hmolad := moladOfMetonicCycle_spec hA (c := c) (by omega) (by omega)
  have hnew := newYear_bounds (y := y) (by omega)
  have hoffset := item_yearOffset (i := i) (by omega)
  have hmonths : 0 ≤ monthsBefore i ∧ monthsBefore i ≤ 222 := by
    unfold monthsBefore
    omega
  have hbefore := monthsBefore_cycle c i
  have hcycle := monthsBefore_cycle c 0
  have htishri := tishri1_spec hA hhi (c := c) (i := i) (by omega) (by omega)
  rw [hsplit] at hbefore htishri
  rw [Int.add_zero] at hcycle
  have hadvance : advance A (moladDay (19 * c)) (moladRest (19 * c))
      (halakimPerLunarCycle * monthsBefore i) = some (moladDay y, moladRest y) := by
    have hzero : monthsBefore 0 = 0 := by decide
    unfold halakimPerLunarCycle
    refine advance_spec hA (moladDay_bounds (by omega)) ?_ (by omega)
    unfold halakimBefore
    omega
  unfold findStartOfYear
  rw [Int.add_sub_cancel, ← hrem]
  have hyear : A.int y = some y := hA.int y (by omega)
  have hmetonic : y.tmod 19 = i := by rw [Int.tmod_eq_emod_of_nonneg hy.1, hrem]
  have hcycles : y.tdiv 19 = c := by rw [Int.tdiv_eq_ediv_of_nonneg hy.1, hc]
  have hamount : A.int (halakimPerLunarCycle * monthsBefore i) =
      some (halakimPerLunarCycle * monthsBefore i) := by
    apply hA.int
    unfold halakimPerLunarCycle
    clear * - hmonths hhi
    omega
  have hfits : A.int (newYear y) = some (newYear y) := hA.int _ (by clear * - hnew hhi; omega)
  simp only [Option.bind_eq_bind]
  rw [hyear, Option.bind_some, hmetonic, hcycles, hmolad, Option.bind_some, hoffset,
    Option.bind_some, hamount, Option.bind_some, hadvance, Option.bind_some, htishri,
    Option.bind_some, hfits]
  rfl

theorem tishri1After_spec (hi19 : 0 ≤ i ∧ i < 19) (hc : 0 ≤ c ∧ c < 50000) :
    tishri1After A i (moladDay (19 * c + i)) (moladRest (19 * c + i)) =
      some (newYear (19 * c + i + 1)) := by
  obtain ⟨months, amount, hitem, hint, hadvance⟩ := nextMolad hA hhi hi19 (c := c) (by omega)
  have hnew := newYear_bounds (y := 19 * c + i + 1) (by omega)
  have htishri : tishri1 A ((i + 1) % 19) (moladDay (19 * c + i + 1)) (moladRest (19 * c + i + 1)) =
      some (newYear (19 * c + i + 1)) := by
    by_cases hlast : i = 18
    · have h := tishri1_spec hA hhi (c := c + 1) (i := 0) (by omega) (by omega)
      rw [show 19 * (c + 1) + 0 = 19 * c + i + 1 by omega] at h
      rw [show (i + 1) % 19 = 0 by omega]
      exact h
    · have h := tishri1_spec hA hhi (c := c) (i := i + 1) (by omega) (by omega)
      rw [← Int.add_assoc] at h
      rw [show (i + 1) % 19 = i + 1 by omega]
      exact h
  unfold tishri1After
  simp (disch := omega) only [hitem, hint, hadvance, hA.int, Int.tmod_eq_emod_of_nonneg,
    Option.bind_eq_bind, Option.bind_some, htishri]

end

end Php53.Calendar
