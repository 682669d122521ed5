import Php53.Calendar.Tishri

/-!
# JewishDates — the Jewish conversions of all days
-/

namespace Php53.Calendar

open Reasoning

variable {day k y : Int}

/-- A date of a year with the number `sdn` and what the conversions call it. -/
def IsDate (sdn : Int) (date : Int × Int × Int) : Prop :=
  ∃ d, date = jewishDate d ∧ jewish.Valid d ∧ jewish.dayNumber d = sdn

theorem isDate_first {sdn : Int} {i : Nat} (hi : i < 3)
    (hk : ((jewishLengths (jewishLeap y) (yearLength y)).take i).sum = k)
    (hday : 1 ≤ day ∧ day ≤ (((jewishLengths (jewishLeap y) (yearLength y))[i]?).getD 0 : Nat))
    (hsdn : sdn = newYear y + k + (day - 1) + jewishSdnOffset) :
    IsDate sdn (y + 1, i + 1, day) := by
  refine ⟨⟨y, i, day⟩, ?_, hday, ?_⟩
  · unfold jewishDate
    rw [jewishMonth_first _ hi]
  · show newYear y + jewishSdnOffset +
      ((jewishLengths (jewishLeap y) (yearLength y)).take i).sum + (day - 1) = _
    omega

/-- The months from Tevet on, with what brings a day of them to the first day of the next year, and
    their lengths. -/
def lastMonths (leap : Bool) : List (Int × Int × Int) :=
  (if leap then [(4, 296, 29), (5, 267, 30), (6, 237, 30), (7, 207, 29)]
    else [(4, 266, 29), (5, 237, 30), (6, 207, 29)]) ++
    [(8, 178, 30), (9, 148, 29), (10, 119, 30), (11, 89, 29), (12, 60, 30), (13, 30, 29)]

theorem lastMonths_index (leap : Bool) : ∀ t ∈ lastMonths leap, ∃ j < 10,
    jewishMonth leap (j + 3) = t.1 ∧ (((lateLengths leap)[j]?).getD 0 : Int) = t.2.2 ∧
      (((lateLengths leap).take j).sum : Int) + t.2.1 = (lateLengths leap).sum + 1 := by
  cases leap <;> decide

theorem lastMonths_of_index (leap : Bool) : ∀ j < (lateLengths leap).length,
    ∃ t ∈ lastMonths leap, jewishMonth leap (j + 3) = t.1 ∧
      (((lateLengths leap).take j).sum : Int) + t.2.1 = (lateLengths leap).sum + 1 := by
  cases leap <;> decide

theorem dayNumber_late {j : Nat} (hk : (((lateLengths (jewishLeap y)).take j).sum : Int) + k =
      (lateLengths (jewishLeap y)).sum + 1) :
    jewish.dayNumber ⟨y, j + 3, day⟩ = newYear (y + 1) + day - k + jewishSdnOffset := by
  have hyear := sum_jewishLengths y
  unfold yearLength jewishLengths at hyear
  rw [List.sum_cons, List.sum_cons, List.sum_cons] at hyear
  show newYear y + jewishSdnOffset +
    ((30 :: heshvan (yearLength y) :: kislev (yearLength y) ::
      (lateLengths (jewishLeap y)).take j).sum : Nat) + (day - 1) = _
  rw [List.sum_cons, List.sum_cons, List.sum_cons]
  unfold yearLength
  omega

theorem isDate_last {m n sdn : Int} (hm : (m, k, n) ∈ lastMonths (jewishLeap y))
    (hday : 1 ≤ day ∧ day ≤ n) (hsdn : sdn = newYear (y + 1) + day - k + jewishSdnOffset) :
    IsDate sdn (y + 1, m, day) := by
  obtain ⟨j, -, hmonth, hlength, hsum⟩ := lastMonths_index (jewishLeap y) _ hm
  refine ⟨⟨y, j + 3, day⟩, ?_, ⟨hday.1, hday.2.trans_eq hlength.symm⟩,
    (dayNumber_late hsum).trans hsdn.symm⟩
  unfold jewishDate
  rw [hmonth]

theorem jewishDate_year_bounds (hy : 0 ≤ y ∧ y < 900000) :
    0 ≤ newYear y ∧ newYear y < 400000002 ∧ 0 ≤ newYear (y + 1) ∧ newYear (y + 1) < 400000002 :=
  ⟨(newYear_bounds (by omega)).1, (newYear_bounds (by omega)).2, (newYear_bounds (by omega)).1,
    (newYear_bounds (by omega)).2⟩

section

variable {A : Arith} {hi : Int} (hA : A.ExactTo hi) (hhi : 2147483647 ≤ hi)
variable {day inputDay k m tishri y : Int}

include hA hhi

theorem dayFrom_spec (hin : -1000000000 ≤ inputDay ∧ inputDay ≤ 1000000000)
    (ht : 0 ≤ tishri ∧ tishri ≤ 1000000000) (hk : -300 ≤ k ∧ k ≤ 300) :
    dayFrom A inputDay tishri k = some (inputDay - tishri + k) := by
  unfold dayFrom
  simp (disch := omega) only [hA.long, hA.int, Option.bind_eq_bind, Option.bind_some]

theorem heshvanOrKislev_spec (hy : 0 ≤ y ∧ y < 900000) (hlo : newYear y + 59 ≤ inputDay)
    (hup : inputDay < newYear y + 30 + heshvan (yearLength y) + kislev (yearLength y)) :
    ∃ date, heshvanOrKislev A (y + 1) inputDay (newYear y) (newYear (y + 1)) = some date ∧
      IsDate (inputDay + jewishSdnOffset) date := by
  have hbounds := jewishDate_year_bounds hy
  have hheshvan : (if yearLength y = 355 ∨ yearLength y = 385 then 30 else 29 : Int) =
      heshvan (yearLength y) := by
    unfold heshvan
    split_ifs <;> rfl
  have hmax : heshvan (yearLength y) ≤ 30 ∧ kislev (yearLength y) ≤ 30 := by
    unfold heshvan kislev
    split_ifs <;> omega
  have hlength : newYear (y + 1) - newYear y = yearLength y := rfl
  unfold heshvanOrKislev
  simp (disch := omega) only [hA.long, hA.int, Option.bind_eq_bind, Option.bind_some,
    hlength, hheshvan]
  by_cases hmonth : inputDay - newYear y - 29 ≤ heshvan (yearLength y)
  · rw [if_pos hmonth]
    refine ⟨_, rfl, ?_⟩
    exact isDate_first (i := 1) (k := 30) (by decide) rfl ⟨by omega, hmonth⟩ (by omega)
  · rw [if_neg hmonth]
    refine ⟨_, rfl, ?_⟩
    exact isDate_first (i := 2) (k := 30 + heshvan (yearLength y)) (by decide) rfl
      ⟨by omega, by show _ ≤ (kislev (yearLength y) : Int); omega⟩ (by omega)

theorem fromStart_spec {c i : Int} (hi19 : 0 ≤ i ∧ i < 19) (hc : 0 ≤ c ∧ c < 47000)
    (hlo : newYear (19 * c + i) ≤ inputDay) (hup : inputDay ≤ newYear (19 * c + i) + 75) :
    ∃ date, fromStart A inputDay c i (moladDay (19 * c + i)) (moladRest (19 * c + i))
        (newYear (19 * c + i)) = some date ∧ IsDate (inputDay + jewishSdnOffset) date := by
  have hbounds := jewishDate_year_bounds (y := 19 * c + i) (by omega)
  have hafter := tishri1After_spec hA hhi hi19 (c := c) (by omega)
  have hyear : c * 19 + i + 1 = 19 * c + i + 1 := by omega
  generalize 19 * c + i = y at *
  have hmin : 29 ≤ heshvan (yearLength y) ∧ 29 ≤ kislev (yearLength y) := by
    unfold heshvan kislev
    split_ifs <;> omega
  unfold fromStart
  simp (disch := omega) only [hA.int, Option.bind_eq_bind, Option.bind_some, hyear]
  by_cases hsecond : inputDay < newYear y + 59
  · rw [if_pos hsecond]
    by_cases hfirst : inputDay < newYear y + 30
    · rw [if_pos hfirst, dayFrom_spec hA hhi (by omega) (by omega) (by omega)]
      refine ⟨_, rfl, ?_⟩
      exact isDate_first (i := 0) (k := 0) (by decide) rfl
        ⟨by omega, by show _ ≤ (30 : Int); omega⟩ (by omega)
    · rw [if_neg hfirst, dayFrom_spec hA hhi (by omega) (by omega) (by omega)]
      refine ⟨_, rfl, ?_⟩
      exact isDate_first (i := 1) (k := 30) (by decide) rfl
        ⟨by omega, by show _ ≤ (heshvan (yearLength y) : Int); omega⟩ (by omega)
  · rw [if_neg hsecond, hafter]
    exact heshvanOrKislev_spec hA hhi (by omega) (by omega) (by omega)

theorem lateMonths_spec (ht : 0 ≤ tishri ∧ tishri ≤ 1000000000) (hlo : tishri - 177 ≤ inputDay)
    (hup : inputDay < tishri) (leap : Bool) :
    ∃ m k n, lateMonths A inputDay tishri = some (m, k) ∧ (m, k, n) ∈ lastMonths leap ∧
      0 ≤ k ∧ k ≤ 300 ∧ 1 ≤ inputDay - tishri + k ∧ inputDay - tishri + k ≤ n := by
  have hmem : ∀ t ∈ [((8 : Int), (178 : Int), (30 : Int)), (9, 148, 29), (10, 119, 30),
      (11, 89, 29), (12, 60, 30), (13, 30, 29)], t ∈ lastMonths leap :=
    fun t h => List.mem_append_right _ h
  unfold lateMonths
  simp (disch := omega) only [hA.int, Option.bind_eq_bind, Option.bind_some, Option.pure_def]
  by_cases helul : inputDay > tishri - 30
  · rw [if_pos helul]
    exact ⟨13, 30, 29, rfl, hmem _ (by decide), by omega⟩
  rw [if_neg helul]
  by_cases hav : inputDay > tishri - 60
  · rw [if_pos hav]
    exact ⟨12, 60, 30, rfl, hmem _ (by decide), by omega⟩
  rw [if_neg hav]
  by_cases htammuz : inputDay > tishri - 89
  · rw [if_pos htammuz]
    exact ⟨11, 89, 29, rfl, hmem _ (by decide), by omega⟩
  rw [if_neg htammuz]
  by_cases hsivan : inputDay > tishri - 119
  · rw [if_pos hsivan]
    exact ⟨10, 119, 30, rfl, hmem _ (by decide), by omega⟩
  rw [if_neg hsivan]
  by_cases hiyyar : inputDay > tishri - 148
  · rw [if_pos hiyyar]
    exact ⟨9, 148, 29, rfl, hmem _ (by decide), by omega⟩
  rw [if_neg hiyyar]
  exact ⟨8, 178, 30, rfl, hmem _ (by decide), by omega⟩

theorem descend_spec {off : Int} (hlo : -1000 ≤ off) (hup : off < -177) (leap : Bool) :
    ∃ m day, (if leap then descend A [30, 30, 29] 7 (off + 207)
        else descend A [30, 29] 6 (off + 207)) = some (m, day) ∧
      (day ≤ 0 ∧ off + ((lateLengths leap).sum : Int) < 0 ∨
        ∃ k n, (m, k, n) ∈ lastMonths leap ∧ day = off + k ∧ 1 ≤ day ∧ day ≤ n) := by
  unfold descend descend descend descend
  simp (disch := omega) only [hA.int, Option.bind_eq_bind, Option.bind_some, Option.pure_def]
  cases leap with
  | false =>
    have hsum : (lateLengths false).sum = 265 := rfl
    rw [if_neg (by decide), hsum]
    by_cases hadar : off + 207 > 0
    · rw [if_pos hadar]
      exact ⟨_, _, rfl, Or.inr ⟨207, 29, by decide, rfl, by omega, by omega⟩⟩
    rw [if_neg hadar]
    by_cases hshevat : off + 207 + 30 > 0
    · rw [if_pos hshevat]
      exact ⟨_, _, rfl, Or.inr ⟨237, 30, by decide, by omega, by omega, by omega⟩⟩
    rw [if_neg hshevat]
    refine ⟨_, _, rfl, ?_⟩
    by_cases htevet : off + 207 + 30 + 29 > 0
    · exact Or.inr ⟨266, 29, by decide, by omega, by omega, by omega⟩
    · exact Or.inl ⟨by omega, by omega⟩
  | true =>
    have hsum : (lateLengths true).sum = 295 := rfl
    rw [if_pos rfl, hsum]
    by_cases hadar : off + 207 > 0
    · rw [if_pos hadar]
      exact ⟨_, _, rfl, Or.inr ⟨207, 29, by decide, rfl, by omega, by omega⟩⟩
    rw [if_neg hadar]
    by_cases hadarI : off + 207 + 30 > 0
    · rw [if_pos hadarI]
      exact ⟨_, _, rfl, Or.inr ⟨237, 30, by decide, by omega, by omega, by omega⟩⟩
    rw [if_neg hadarI]
    by_cases hshevat : off + 207 + 30 + 30 > 0
    · rw [if_pos hshevat]
      exact ⟨_, _, rfl, Or.inr ⟨267, 30, by decide, by omega, by omega, by omega⟩⟩
    rw [if_neg hshevat]
    refine ⟨_, _, rfl, ?_⟩
    by_cases htevet : off + 207 + 30 + 30 + 29 > 0
    · exact Or.inr ⟨296, 29, by decide, by omega, by omega, by omega⟩
    · exact Or.inl ⟨by omega, by omega⟩

theorem previousYear_spec (hy : 1 ≤ y ∧ y < 889000) (hday : moladDay y ≤ 324195214) :
    ∃ c i, (0 ≤ i ∧ i < 19) ∧ 0 ≤ c ∧ 19 * c + i = y - 1 ∧
      findTishriMolad A (moladDay y - 365) =
        some (c, i, moladDay (19 * c + i), moladRest (19 * c + i)) := by
  have hprev := moladDay_succ (y - 1)
  have hfirst := (moladDay_bounds (y := y - 1) (by omega)).1
  rw [Int.sub_add_cancel] at hprev
  obtain ⟨c, i, hc, hi19, hge, hle, hrun⟩ :=
    findTishriMolad_spec hA hhi (by omega : -11 ≤ moladDay y - 365 ∧ _)
  refine ⟨c, i, hi19, hc, ?_, hrun⟩
  rcases Int.lt_trichotomy (19 * c + i) (y - 1) with hlt | heq | hgt
  · have hmono := moladDay_mono (by omega : 19 * c + i + 1 ≤ y - 1)
    have hstep := moladDay_succ (19 * c + i)
    omega
  · exact heq
  · have hmono := moladDay_mono (by omega : y - 1 ≤ 19 * c + i - 1)
    omega

theorem fromEnd_spec {c i : Int} (hi19 : 0 ≤ i ∧ i < 19) (hc : 0 ≤ c ∧ c < 46720)
    (hfirst : 19 * c + i ≠ 0) (hlo : newYear (19 * c + i - 1) + 70 ≤ inputDay)
    (hup : inputDay < newYear (19 * c + i)) (hmax : inputDay ≤ 324194849) :
    ∃ date, fromEnd A inputDay c i (moladDay (19 * c + i)) (newYear (19 * c + i)) = some date ∧
      IsDate (inputDay + jewishSdnOffset) date := by
  obtain ⟨y, hy⟩ : ∃ y, y = 19 * c + i - 1 := ⟨_, rfl⟩
  have hsucc : 19 * c + i = y + 1 := by omega
  have hyear : c * 19 + i = y + 1 := by omega
  have hmolad := newYear_range (y + 1)
  have hstep := moladDay_succ y
  have hprev := newYear_range y
  rw [hsucc, Int.add_sub_cancel] at hlo
  rw [hsucc] at hup ⊢
  have hbounds := jewishDate_year_bounds (y := y) (by omega)
  unfold fromEnd
  rw [hA.int (c * 19) (by omega)]
  simp only [Option.bind_eq_bind, Option.bind_some]
  rw [hyear, hA.int_bind (y + 1) (by omega), hA.int (newYear (y + 1) - 177) (by omega),
    Option.bind_some]
  by_cases hnisan : inputDay ≥ newYear (y + 1) - 177
  · obtain ⟨m, k, n, hmonth, hmem, hk0, hk300, hday1, hdayn⟩ :=
      lateMonths_spec hA hhi (by omega : 0 ≤ newYear (y + 1) ∧ _) hnisan hup (jewishLeap y)
    rw [if_pos hnisan, hmonth]
    simp only [Option.bind_some]
    rw [dayFrom_spec hA hhi (by omega) (by omega) (by omega)]
    exact ⟨_, rfl, isDate_last hmem ⟨hday1, hdayn⟩ (by omega)⟩
  · have hindex : A.int (y + 1 - 1) = some y := by
      rw [Int.add_sub_cancel]
      exact hA.int y (by omega)
    have hitem := item_monthsPerYear_tmod (y := y) (by omega)
    have hday : dayFrom A inputDay (newYear (y + 1)) 207 =
        some (inputDay - newYear (y + 1) + 207) :=
      dayFrom_spec hA hhi (by omega) (by omega) (by omega)
    have hmonths : ((if jewishLeap y then 13 else 12 : Int) = 13) ↔ jewishLeap y = true := by
      cases jewishLeap y <;> decide
    obtain ⟨m, day, hladder, hcases⟩ :=
      descend_spec hA hhi (by omega : -1000 ≤ inputDay - newYear (y + 1)) (by omega) (jewishLeap y)
    rw [if_neg hnisan, hindex, Option.bind_some, hitem, Option.bind_some, hday,
      Option.bind_some]
    simp only [hmonths, hladder, Option.bind_some]
    rcases hcases with ⟨hnone, hoff⟩ | ⟨k, n, hmem, hday, hday1, hdayn⟩
    · rw [if_neg (show ¬ day > 0 by omega)]
      obtain ⟨c', i', hi19', hc', hy', hrun⟩ :=
        previousYear_spec hA hhi (y := y + 1) (by omega) (by omega)
      have htishri := tishri1_spec hA hhi hi19' (c := c') (by omega)
      rw [hy', Int.add_sub_cancel] at htishri hrun
      rw [hA.long_bind _ (by omega), hrun]
      simp only [Option.bind_some, htishri]
      rw [hA.int_bind _ (by omega)]
      have hyearLength : newYear (y + 1) - newYear y = yearLength y := rfl
      have hsum := sum_jewishLengths y
      unfold jewishLengths at hsum
      rw [List.sum_cons, List.sum_cons, List.sum_cons] at hsum
      exact heshvanOrKislev_spec hA hhi (by omega) (by omega) (by omega)
    · rw [if_pos (show day > 0 by omega)]
      exact ⟨_, rfl, isDate_last hmem ⟨hday1, hdayn⟩ (by omega)⟩

theorem sdnToJewish_spec {sdn : Int} (hlo : 347997 < sdn) (hup : sdn ≤ 324542846) :
    ∃ date, sdnToJewish A sdn = some date ∧ IsDate sdn date := by
  obtain ⟨inputDay, hinput⟩ : ∃ d, d = sdn - jewishSdnOffset := ⟨_, rfl⟩
  have hoffset : jewishSdnOffset = 347997 := rfl
  obtain ⟨c, i, hc, hi19, hge, hle, hfind⟩ :=
    findTishriMolad_spec hA hhi (by omega : -11 ≤ inputDay ∧ inputDay ≤ 324194849)
  have hrange := newYear_range (19 * c + i)
  have hprev := newYear_range (19 * c + i - 1)
  have hsize : 19 * c + i < 887680 := by
    by_contra hbig
    have hmono := moladDay_mono (by omega : (887679 : Int) ≤ 19 * c + i - 1)
    have hmolad : moladDay 887679 = 324221916 := by decide
    omega
  have hbounds := newYear_bounds (y := 19 * c + i) (by omega)
  have htishri := tishri1_spec hA hhi hi19 (c := c) (by omega)
  unfold sdnToJewish
  rw [if_neg (by unfold jewishSdnMax; omega), ← hinput, hA.long _ (by omega)]
  simp only [Option.bind_eq_bind, Option.bind_some, hfind, htishri]
  rw [hA.int_bind _ (by omega), show sdn = inputDay + jewishSdnOffset by omega]
  by_cases hstart : inputDay ≥ newYear (19 * c + i)
  · rw [if_pos hstart]
    exact fromStart_spec hA hhi hi19 (by omega) hstart (by omega)
  · rw [if_neg hstart]
    have hfirst : 19 * c + i ≠ 0 := by
      intro hzero
      have hnew : newYear 0 = 1 := by decide
      rw [hzero, hnew] at hstart
      omega
    exact fromEnd_spec hA hhi hi19 (by omega) hfirst (by omega) (by omega) (by omega)

theorem sdnFrom_spec (ht : 0 ≤ tishri ∧ tishri ≤ 1000000000) (hday : 1 ≤ day ∧ day ≤ 30)
    (hk : -300 ≤ k ∧ k ≤ 300) :
    sdnFrom A tishri day k = some (tishri + day + k) := by
  unfold sdnFrom
  simp (disch := omega) only [hA.int, Option.bind_eq_bind, Option.bind_some]

theorem sdnFromAdar_spec {adar : Int} (ht : 0 ≤ tishri ∧ tishri ≤ 1000000000)
    (hday : 1 ≤ day ∧ day ≤ 30) (hadar : 0 ≤ adar ∧ adar ≤ 60) (hk : -300 ≤ k ∧ k ≤ 300) :
    sdnFromAdar A tishri day adar k = some (tishri + day - adar + k) := by
  unfold sdnFromAdar
  simp (disch := omega) only [hA.int, Option.bind_eq_bind, Option.bind_some]

section Late

variable (hday : 1 ≤ day ∧ day ≤ 30) (hy : 0 ≤ y ∧ y < 890000) (hfit : (y + 1) / 19 * 45971 ≤ hi)
include hday hy hfit

theorem jewishToSdn_end
    (hm : (m, k) ∈ [((7 : Int), (207 : Int)), (8, 178), (9, 148), (10, 119), (11, 89), (12, 60),
      (13, 30)]) :
    jewishToSdn A (y + 1) m day = some (newYear (y + 1) + day - k + jewishSdnOffset) := by
  have hbounds := jewishDate_year_bounds (y := y) (by omega)
  have hnext := findStartOfYear_spec hA hhi (y := y + 1) (by omega) hfit
  have hsum : ∀ k : Int, -300 ≤ k ∧ k ≤ 300 →
      (sdnFrom A (newYear (y + 1)) day k).bind (fun sdn => A.long (sdn + jewishSdnOffset)) =
        some (newYear (y + 1) + day + k + jewishSdnOffset) := by
    intro k hk
    rw [sdnFrom_spec hA hhi (by omega) hday hk, Option.bind_some]
    exact hA.long _ (by unfold jewishSdnOffset; omega)
  unfold jewishToSdn
  rw [if_neg (by omega)]
  simp only [List.mem_cons, List.not_mem_nil, Prod.mk.injEq, or_false] at hm
  rcases hm with ⟨rfl, rfl⟩ | ⟨rfl, rfl⟩ | ⟨rfl, rfl⟩ | ⟨rfl, rfl⟩ | ⟨rfl, rfl⟩ | ⟨rfl, rfl⟩ |
    ⟨rfl, rfl⟩
  all_goals
    rw [if_neg (by decide), if_neg (by decide), hA.int _ (by omega)]
    simp only [Option.bind_eq_bind, Option.bind_some, hnext]
    rw [if_neg (by decide)]
    exact hsum _ (by decide)

theorem jewishToSdn_middle (hm : (m, k) ∈ [((4 : Int), (237 : Int)), (5, 208), (6, 178)]) :
    jewishToSdn A (y + 1) m day =
      some (newYear (y + 1) + day - (if jewishLeap y then 59 else 29) - k + jewishSdnOffset) := by
  have hbounds := jewishDate_year_bounds (y := y) (by omega)
  have hnext := findStartOfYear_spec hA hhi (y := y + 1) (by omega) hfit
  have hitem := item_monthsPerYear_tmod hy.1
  have hadar : (if (if jewishLeap y then 13 else 12 : Int) = 12 then 29 else 59 : Int) =
      if jewishLeap y then 59 else 29 := by
    cases jewishLeap y <;> rfl
  have hrange : 0 ≤ (if jewishLeap y then 59 else 29 : Int) ∧
      (if jewishLeap y then 59 else 29 : Int) ≤ 60 := by
    cases jewishLeap y <;> decide
  have hsum : ∀ k : Int, -300 ≤ k ∧ k ≤ 300 →
      (sdnFromAdar A (newYear (y + 1)) day (if jewishLeap y then 59 else 29) k).bind
          (fun sdn => A.long (sdn + jewishSdnOffset)) =
        some (newYear (y + 1) + day - (if jewishLeap y then 59 else 29) + k + jewishSdnOffset) := by
    intro k hk
    rw [sdnFromAdar_spec hA hhi (by omega) hday hrange hk, Option.bind_some]
    exact hA.long _ (by unfold jewishSdnOffset; omega)
  unfold jewishToSdn
  rw [if_neg (by omega)]
  simp only [List.mem_cons, List.not_mem_nil, Prod.mk.injEq, or_false] at hm
  rcases hm with ⟨rfl, rfl⟩ | ⟨rfl, rfl⟩ | ⟨rfl, rfl⟩
  all_goals
    rw [if_neg (by decide), if_neg (by decide), hA.int _ (by omega)]
    simp only [Option.bind_eq_bind, Option.bind_some, hnext]
    rw [if_pos (by decide), Int.add_sub_cancel, hA.int y (by omega), Option.bind_some, hitem,
      Option.bind_some, hadar]
    exact hsum _ (by decide)

theorem jewishToSdn_last {n : Int} (hm : (m, k, n) ∈ lastMonths (jewishLeap y)) :
    jewishToSdn A (y + 1) m day = some (newYear (y + 1) + day - k + jewishSdnOffset) := by
  have hparts : ∀ leap, ∀ t ∈ lastMonths leap,
      (t.1, t.2.1) ∈ [((7 : Int), (207 : Int)), (8, 178), (9, 148), (10, 119), (11, 89), (12, 60),
        (13, 30)] ∨
      (t.1, t.2.1 - if leap then 59 else 29) ∈ [((4 : Int), (237 : Int)), (5, 208), (6, 178)] := by
    decide
  rcases hparts _ _ hm with hend | hmiddle
  · exact jewishToSdn_end hA hhi hday hy hfit hend
  · rw [jewishToSdn_middle hA hhi hday hy hfit hmiddle]
    congr 1
    dsimp only
    omega

end Late

theorem jewishToSdn_spec {d : CalendarDate} (hvalid : jewish.Valid d)
    (hyear : 0 ≤ d.year ∧ d.year < 890000)
    (hfit : (if d.month < 3 then d.year else d.year + 1) / 19 * 45971 ≤ hi) :
    jewishToSdn A (jewishDate d).1 (jewishDate d).2.1 (jewishDate d).2.2 =
      some (jewish.dayNumber d) := by
  obtain ⟨y, i, day⟩ := d
  dsimp only at hyear hfit
  have hbounds := jewishDate_year_bounds (y := y) (by omega)
  have hmonth := hvalid.month_lt
  have hday : 1 ≤ day ∧ day ≤ 30 := jewish_day_range hvalid
  by_cases hearly : i < 3
  · rw [if_pos hearly] at hfit
    have hstart := findStartOfYear_spec hA hhi (y := y) (by omega) hfit
    have hcases : i = 0 ∨ i = 1 ∨ i = 2 := by omega
    show jewishToSdn A (y + 1) (jewishMonth (jewishLeap y) i) day = some (newYear y +
      jewishSdnOffset + ((jewishLengths (jewishLeap y) (yearLength y)).take i).sum + (day - 1))
    rw [jewishMonth_first _ hearly]
    unfold jewishToSdn
    rw [if_neg (by omega)]
    rcases hcases with rfl | rfl | rfl
    · rw [if_pos (by decide), hstart]
      simp only [Option.bind_eq_bind, Option.bind_some]
      rw [if_pos (by decide), sdnFrom_spec hA hhi (by omega) hday (by decide), Option.bind_some,
        hA.long _ (by unfold jewishSdnOffset; omega)]
      congr 1
      show _ = newYear y + jewishSdnOffset + (0 : Nat) + (day - 1)
      omega
    · rw [if_pos (by decide), hstart]
      simp only [Option.bind_eq_bind, Option.bind_some]
      rw [if_neg (by decide), sdnFrom_spec hA hhi (by omega) hday (by decide), Option.bind_some,
        hA.long _ (by unfold jewishSdnOffset; omega)]
      congr 1
      show _ = newYear y + jewishSdnOffset + (30 : Nat) + (day - 1)
      omega
    · have hafter := tishri1After_spec hA hhi (i := y % 19) (c := y / 19) (by omega) (by omega)
      rw [show 19 * (y / 19) + y % 19 = y by omega] at hafter
      have hlength : newYear (y + 1) - newYear y = yearLength y := rfl
      have hkislev : (if yearLength y = 355 ∨ yearLength y = 385 then 59 else 58 : Int) =
          29 + heshvan (yearLength y) := by
        unfold heshvan
        split_ifs <;> rfl
      have hmax : heshvan (yearLength y) ≤ 30 := by
        unfold heshvan
        split_ifs <;> omega
      rw [if_neg (by decide), if_pos (by decide), hstart]
      simp only [Option.bind_eq_bind, Option.bind_some, hafter]
      rw [hA.int_bind _ (by omega), hlength, hkislev,
        sdnFrom_spec hA hhi (by omega) hday (by omega), Option.bind_some,
        hA.long _ (by unfold jewishSdnOffset; omega)]
      congr 1
      show _ = newYear y + jewishSdnOffset + (30 + (heshvan (yearLength y) + 0) : Nat) + (day - 1)
      omega
  · obtain ⟨j, rfl⟩ : ∃ j, i = j + 3 := ⟨i - 3, by omega⟩
    have hlate : j + 3 < (lateLengths (jewishLeap y)).length + 3 := hmonth
    rw [if_neg hearly] at hfit
    obtain ⟨⟨m, k, n⟩, hm, hnumber, hsum⟩ := lastMonths_of_index (jewishLeap y) j (by omega)
    rw [dayNumber_late hsum]
    show jewishToSdn A (y + 1) (jewishMonth (jewishLeap y) (j + 3)) day = _
    rw [hnumber]
    exact jewishToSdn_last hA hhi hday hyear hfit hm

end

/-- Each day from the first one to the last that is not rejected has a date, the way back gives the
    day, and the date of the next day is the next one of the calendar. -/
theorem jewish_converts {sdn : Int} (hlo : jewishSdnOffset < sdn) (hup : sdn ≤ jewishSdnMax) :
    ∃ d, jewish.Valid d ∧ sdnToJewish exact sdn = some (jewishDate d) ∧
      1 ≤ (jewishDate d).1 ∧ (1 ≤ (jewishDate d).2.1 ∧ (jewishDate d).2.1 ≤ 13) ∧
      (1 ≤ (jewishDate d).2.2 ∧ (jewishDate d).2.2 ≤ 30) ∧
      jewishToSdn exact (jewishDate d).1 (jewishDate d).2.1 (jewishDate d).2.2 = some sdn ∧
      (sdn + 1 ≤ jewishSdnMax →
        sdnToJewish exact (sdn + 1) = some (jewishDate (jewish.next d))) := by
  have hexact := exact_exactTo 2200000000
  obtain ⟨date, hrun, d, rfl, hvalid, hnumber⟩ := sdnToJewish_spec hexact (by decide) hlo hup
  have hyear := jewish_year_range hvalid (by omega) (by omega)
  refine ⟨d, hvalid, hrun, ?_, jewish_month_range hvalid, jewish_day_range hvalid, ?_,
    fun hnext => ?_⟩
  · show 1 ≤ d.year + 1
    omega
  · rw [jewishToSdn_spec hexact (by decide) hvalid (by omega) (by split_ifs <;> omega), hnumber]
  · have hlo' : jewishSdnOffset < sdn + 1 := by omega
    obtain ⟨date, hrun', e, rfl, hevalid, henumber⟩ :=
      sdnToJewish_spec hexact (by decide) hlo' hnext
    rw [hrun', hvalid.eq_next hevalid (by omega)]

theorem jewish_converts_first :
    jewishSdnOffset < 347998 ∧ (347998 : Int) ≤ jewishSdnMax ∧
      ∃ d, jewish.Valid d ∧ sdnToJewish exact 347998 = some (jewishDate d) := by
  have hlo : jewishSdnOffset < 347998 := by decide
  obtain ⟨d, hvalid, hrun, -⟩ := jewish_converts hlo (by decide)
  exact ⟨by decide, by decide, d, hvalid, hrun⟩

/-- The day behind the last one has no date, so neither the next day nor a first day. -/
theorem jewish_last_day :
    ¬ ∀ sdn, jewishSdnOffset < sdn → sdn ≤ jewishSdnMax → ∃ d, jewish.Valid d ∧
      sdnToJewish exact sdn = some (jewishDate d) ∧
      sdnToJewish exact (sdn + 1) = some (jewishDate (jewish.next d)) := by
  intro h
  obtain ⟨d, hvalid, -, hnext⟩ := h 324542846 (by decide) (by decide)
  rw [show sdnToJewish exact (324542846 + 1) = some (0, 0, 0) by decide] at hnext
  have hday := congrArg (fun t => t.2.2) (Option.some.inj hnext)
  have hone := hvalid.next.1
  change (0 : Int) = (jewish.next d).day at hday
  omega

end Php53.Calendar
