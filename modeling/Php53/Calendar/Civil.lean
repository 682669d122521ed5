import Mathlib.Tactic.IntervalCases
import Php53.Calendar.Julian

/-!
# Civil — what the Gregorian and the Julian conversions compute

Years are numbered here with a year 0; the conversions number them without one.  Inside, a year
begins in March and is counted from 4800 years before: `march y` is the number of days before the
year `y` in that count.
-/

namespace Php53.Calendar

open Reasoning

def civilLengths (leap : Bool) : List Nat :=
  [31, if leap then 29 else 28, 31, 30, 31, 30, 31, 31, 30, 31, 30, 31]

/-- A rule for leap years, and the days before a year that begins in March. -/
structure MarchYears where
  leap : Int → Bool
  march : Int → Int
  offset : Int
  march_succ : ∀ y, march (y + 1) = march y + 365 + if leap (y + 1) then 1 else 0

theorem sum_civilLengths (leap : Bool) :
    (civilLengths leap).sum = 365 + if leap then 1 else 0 := by
  cases leap <;> rfl

/-- The year `a` begins 306 days behind the first of March of the year before. -/
def MarchYears.calendar (m : MarchYears) : Calendar where
  start a := m.march (a + 4799) + 307 - m.offset
  lengths a := civilLengths (m.leap (a + 4800))
  start_succ a := by
    have h := m.march_succ (a + 4799)
    rw [show a + 4799 + 1 = a + 4800 by omega] at h
    rw [show a + 1 + 4799 = a + 4800 by omega, h, sum_civilLengths]
    split <;> push_cast <;> omega
  lengths_pos a n hn := by
    cases hl : m.leap (a + 4800) <;> rw [hl] at hn <;> revert n <;> decide
  lengths_ne a := by simp [civilLengths]

def civilYear (a : Int) : Int := if a ≤ 0 then a - 1 else a

def civil (d : CalendarDate) : Int × Int × Int := (civilYear d.year, d.month + 1, d.day)

theorem civilLengths_march (leap : Bool) {k : Nat} (hk : k < 10) :
    ((civilLengths leap).take (k + 2)).sum = 59 + (if leap then 1 else 0) + (153 * k + 2) / 5 ∧
      ((civilLengths leap)[k + 2]?).getD 0 = (153 * (k + 1) + 2) / 5 - (153 * k + 2) / 5 := by
  interval_cases k <;> cases leap <;> decide

def marchDate (d : CalendarDate) : Int × Int :=
  if d.month < 2 then (d.year + 4799, d.month + 10) else (d.year + 4800, d.month - 2)

variable {d : CalendarDate}

theorem marchDate_cases {y k : Int} (h : marchDate d = (y, k)) :
    (d.month < 2 ∧ y = d.year + 4799 ∧ k = d.month + 10) ∨
      (2 ≤ d.month ∧ y = d.year + 4800 ∧ k = d.month - 2) := by
  unfold marchDate at h
  split_ifs at h with hm
  · obtain ⟨rfl, rfl⟩ := Prod.mk.inj h
    exact Or.inl ⟨hm, rfl, rfl⟩
  · obtain ⟨rfl, rfl⟩ := Prod.mk.inj h
    exact Or.inr ⟨by omega, rfl, rfl⟩

theorem civilYear_ne_zero (a : Int) : civilYear a ≠ 0 := by
  unfold civilYear
  split_ifs <;> omega

variable {m : MarchYears} {d : CalendarDate} {sdn : Int}

theorem marchDate_dayNumber (h : m.calendar.Valid d) :
    m.calendar.dayNumber d =
      m.march (marchDate d).1 + (153 * (marchDate d).2 + 2) / 5 + d.day - m.offset := by
  have hmonth : d.month < 12 := h.month_lt
  have hsucc := m.march_succ (d.year + 4799)
  rw [show d.year + 4799 + 1 = d.year + 4800 by omega] at hsucc
  show m.march (d.year + 4799) + 307 - m.offset +
    ((civilLengths (m.leap (d.year + 4800))).take d.month).sum + (d.day - 1) = _
  unfold marchDate
  by_cases hm : d.month < 2
  · rw [if_pos hm]
    obtain hm | hm : d.month = 0 ∨ d.month = 1 := by omega
    · rw [hm]
      show m.march (d.year + 4799) + 307 - m.offset + (0 : Nat) + (d.day - 1) =
        m.march (d.year + 4799) + 306 + d.day - m.offset
      omega
    · rw [hm]
      show m.march (d.year + 4799) + 307 - m.offset + (31 : Nat) + (d.day - 1) =
        m.march (d.year + 4799) + 337 + d.day - m.offset
      omega
  · rw [if_neg hm]
    obtain ⟨k, hk⟩ : ∃ k, d.month = k + 2 := ⟨d.month - 2, by omega⟩
    obtain ⟨htake, -⟩ := civilLengths_march (m.leap (d.year + 4800)) (by omega : k < 10)
    rw [hk, htake]
    show _ = m.march (d.year + 4800) + _ + d.day - m.offset
    split_ifs at hsucc ⊢ <;> push_cast <;> omega

theorem Valid_month_day (h : m.calendar.Valid d) : d.month < 12 ∧ 1 ≤ d.day ∧ d.day ≤ 31 := by
  have hmonth : d.month < 12 := h.month_lt
  refine ⟨hmonth, h.1, ?_⟩
  have hhi := h.2
  have hlen : ∀ leap : Bool, ((civilLengths leap)[d.month]?).getD 0 ≤ 31 := by
    intro leap
    interval_cases d.month <;> cases leap <;> decide
  have hle := hlen (m.leap (d.year + 4800))
  change d.day ≤ (((civilLengths (m.leap (d.year + 4800)))[d.month]?).getD 0 : Nat) at hhi
  omega

section

variable {A : Arith} {hi : Int} (hA : A.ExactTo hi) (hhi : 2147483647 ≤ hi)
include hA hhi

theorem dateOfDay_spec (m : MarchYears) {year dayOfYear : Int} (hyear : 0 ≤ year ∧ year < hi)
    (h : 1 ≤ dayOfYear ∧ dayOfYear ≤ 365 + if m.leap (year + 1) then 1 else 0) :
    ∃ d, dateOfDay A year dayOfYear = some (civil d) ∧ m.calendar.Valid d ∧
      m.calendar.dayNumber d = m.march year + dayOfYear - m.offset := by
  have hrange : 1 ≤ dayOfYear ∧ dayOfYear ≤ 366 := by
    split_ifs at h <;> omega
  obtain ⟨k, hk⟩ : ∃ k : Nat, (k : Int) = (dayOfYear * 5 - 3) / 153 :=
    ⟨((dayOfYear * 5 - 3) / 153).toNat, by omega⟩
  obtain ⟨day, hday⟩ : ∃ day, day = (dayOfYear * 5 - 3) % 153 / 5 + 1 := ⟨_, rfl⟩
  have hmonth : (dayOfYear * 5 - 3).tdiv daysPer5Months = k := by
    rw [hk]
    exact Int.tdiv_eq_ediv_of_nonneg (by omega)
  have hrest : ((dayOfYear * 5 - 3).tmod daysPer5Months).tdiv 5 + 1 = day := by
    rw [hday, Int.tmod_eq_emod_of_nonneg (by omega)]
    unfold daysPer5Months
    rw [Int.tdiv_eq_ediv_of_nonneg (by omega)]
  -- the day of the year is the one that the month and the day make up
  have hsum : dayOfYear = ((153 * k + 2) / 5 : Nat) + day := by omega
  have hcivil : ∀ y, -4800 ≤ y ∧ y ≤ hi →
      (if y ≤ 0 then A.int (y - 1) else some y) = some (civilYear y) := fun y hy => by
    unfold civilYear
    split_ifs
    · exact hA.int _ (by omega)
    · rfl
  unfold dateOfDay
  rw [hA.int _ (by omega)]
  simp only [Option.bind_eq_bind, Option.bind_some]
  rw [hA.int _ (by omega)]
  simp only [Option.bind_some, hmonth, hrest]
  rw [hA.int_bind _ (by omega), hA.long_bind _ (by omega),
    hA.int_bind _ (by omega)]
  by_cases hlt : (k : Int) < 10
  · have hk10 : k < 10 := by omega
    have hprev := m.march_succ (year - 1)
    obtain ⟨htake, hlen⟩ := civilLengths_march (m.leap year) hk10
    rw [show year - 1 + 1 = year by omega] at hprev
    refine ⟨⟨year - 4800, k + 2, day⟩, ?_, ?_, ?_⟩
    · rw [if_pos hlt, hA.int _ (by omega)]
      simp only [Option.bind_some, Option.pure_def]
      rw [hA.int_bind _ (by omega), hcivil (year - 4800) (by omega)]
      unfold civil
      push_cast
      rw [Int.add_assoc]
      rfl
    · have hleap : m.leap (year - 4800 + 4800) = m.leap year := by rw [Int.sub_add_cancel]
      constructor
      · show 1 ≤ day
        omega
      · show day ≤ (((civilLengths (m.leap (year - 4800 + 4800)))[k + 2]?).getD 0 : Nat)
        rw [hleap, hlen]
        omega
    · show m.march (year - 4800 + 4799) + 307 - m.offset +
        ((civilLengths (m.leap (year - 4800 + 4800))).take (k + 2)).sum + (day - 1) = _
      rw [show year - 4800 + 4799 = year - 1 by omega, Int.sub_add_cancel, htake]
      split_ifs at hprev ⊢ <;> push_cast <;> omega
  · -- January and February belong to the next year
    have hleap : m.leap (year - 4799 + 4800) = m.leap (year + 1) := by
      rw [show year - 4799 + 4800 = year + 1 by omega]
    refine ⟨⟨year - 4799, k - 10, day⟩, ?_, ?_, ?_⟩
    · have hk9 : (k : Int) - 9 = (k - 10 : Nat) + 1 := by omega
      rw [if_neg hlt, hA.int_bind _ (by omega), hA.int _ (by omega)]
      simp only [Option.bind_some, Option.pure_def]
      rw [hA.int_bind _ (by omega), hcivil (year + 1 - 4800) (by omega),
        show year + 1 - 4800 = year - 4799 by omega, hk9]
      rfl
    · constructor
      · show 1 ≤ day
        omega
      · show day ≤ (((civilLengths (m.leap (year - 4799 + 4800)))[k - 10]?).getD 0 : Nat)
        rw [hleap]
        have hk11 : k = 10 ∨ k = 11 := by omega
        rcases hk11 with rfl | rfl
        · show day ≤ (31 : Nat)
          omega
        · show day ≤ ((if m.leap (year + 1) then 29 else 28 : Nat) : Int)
          split_ifs at h ⊢ <;> omega
    · show m.march (year - 4799 + 4799) + 307 - m.offset +
        ((civilLengths (m.leap (year - 4799 + 4800))).take (k - 10)).sum + (day - 1) = _
      rw [Int.sub_add_cancel]
      have hk11 : k = 10 ∨ k = 11 := by omega
      rcases hk11 with rfl | rfl
      · show m.march year + 307 - m.offset + (0 : Nat) + (day - 1) = _
        omega
      · show m.march year + 307 - m.offset + (31 : Nat) + (day - 1) = _
        omega

theorem marchYear_spec (d : CalendarDate) (hmonth : d.month < 12)
    (hfit : -4800 < d.year ∧ d.year + 4800 ≤ hi) :
    marchYear A (civilYear d.year) (d.month + 1) = some (marchDate d) := by
  have hyear : (if civilYear d.year < 0 then A.int (civilYear d.year + 4801)
      else A.int (civilYear d.year + 4800)) = some (d.year + 4800) := by
    unfold civilYear
    split_ifs
    · rw [show d.year - 1 + 4801 = d.year + 4800 by omega]
      exact hA.int _ (by omega)
    · omega
    · omega
    · exact hA.int _ (by omega)
  unfold marchYear marchDate
  rw [hyear]
  simp only [Option.bind_eq_bind, Option.bind_some, Option.pure_def]
  by_cases hm : d.month < 2
  · rw [if_neg (by omega), if_pos hm, hA.int_bind _ (by omega), hA.int_bind _ (by omega)]
    congr 2
    omega
  · rw [if_pos (by omega), if_neg hm, hA.int_bind _ (by omega)]
    congr 2
    omega

end

def gregorianYears : MarchYears where
  leap a := decide (a % 4 = 0 ∧ (a % 100 ≠ 0 ∨ a % 400 = 0))
  march y := 365 * y + y / 4 - y / 100 + y / 400
  offset := gregorSdnOffset
  march_succ y := by
    simp only [decide_eq_true_eq]
    split_ifs <;> omega

def gregorian : Calendar := gregorianYears.calendar

theorem gregorian_accepts (hpos : 1 ≤ sdn) (hmax : sdn ≤ 2305843009213661906) :
    ¬ (sdn ≤ 0 ∨ sdn > (longMax - 4 * gregorSdnOffset).tdiv 4) := by
  have hlimit : (longMax - 4 * gregorSdnOffset).tdiv 4 = 2305843009213661906 := by decide
  rw [hlimit]
  omega

theorem gregorian_march_eq (y : Int) :
    y / 100 * 146097 / 4 + y % 100 * 1461 / 4 = 365 * y + y / 4 - y / 100 + y / 400 := by
  obtain ⟨c, hc⟩ : ∃ c, c = y / 100 := ⟨_, rfl⟩
  obtain ⟨r, hr⟩ : ∃ r, r = y % 100 := ⟨_, rfl⟩
  have hparts : y / 400 = c / 4 ∧ y / 4 = 25 * c + r / 4 := by omega
  have hcenturies : c * 146097 / 4 = 36524 * c + c / 4 := by omega
  have hyears : r * 1461 / 4 = 365 * r + r / 4 := by omega
  rw [← hc, ← hr, hcenturies, hyears, hparts.1, hparts.2]
  omega

theorem gregorian_century {n c q : Int} (hc : c = (n * 4 - 1) / 146097)
    (hq : q = (n * 4 - 1) % 146097 / 4) :
    n = 36524 * c + c / 4 + q + 1 ∧ 0 ≤ q ∧ q ≤ 36524 ∧ (q = 36524 → c % 4 = 3) := by
  have hn : n = 36524 * c + c / 4 + q + 1 := by omega
  refine ⟨hn, ?_, ?_, ?_⟩ <;> omega

theorem gregorian_yearDay {q y day : Int} (hq : 0 ≤ q ∧ q ≤ 36524) (hy : y = (q * 4 + 3) / 1461)
    (hday : day = (q * 4 + 3) % 1461 / 4 + 1) :
    q + 1 = 365 * y + y / 4 + day ∧ (0 ≤ y ∧ y ≤ 99) ∧ (1 ≤ day ∧ day ≤ 366) ∧
      (day = 366 → y % 4 = 3 ∧ (y = 99 → q = 36524)) := by
  have hsum : q + 1 = 365 * y + y / 4 + day := by omega
  have hfour : day = 366 → y % 4 = 3 := by omega
  refine ⟨hsum, ⟨?_, ?_⟩, ⟨?_, ?_⟩, fun h366 => ⟨hfour h366, ?_⟩⟩ <;> omega

theorem gregorian_yearParts {c y year : Int} (hyear : year = 100 * c + y) (hy : 0 ≤ y ∧ y ≤ 99) :
    year / 100 = c ∧ year / 400 = c / 4 ∧ year / 4 = 25 * c + y / 4 := by
  omega

theorem gregorian_lastDay {c y year : Int} (hyear : year = 100 * c + y) (hy : 0 ≤ y ∧ y ≤ 99)
    (hfour : y % 4 = 3) (hfull : y = 99 → c % 4 = 3) : gregorianYears.leap (year + 1) = true := by
  simp only [gregorianYears, decide_eq_true_eq]
  omega

section

variable {A : Arith} {hi : Int} (hA : A.ExactTo hi) (hhi : 2147483647 ≤ hi)
include hA hhi

theorem sdnToGregorian_run {temp rest year day : Int} (hpos : 1 ≤ sdn)
    (hmax : sdn ≤ 2305843009213661906) (hfit : sdn + 40000 ≤ hi)
    (htemp : temp = (sdn + 32045) * 4 - 1) (hrest : rest = temp % 146097 / 4 * 4 + 3)
    (hyear : year = temp / 146097 * 100 + rest / 1461) (hday : day = rest % 1461 / 4 + 1) :
    sdnToGregorian A sdn = dateOfDay A year day := by
  unfold sdnToGregorian
  rw [if_neg (gregorian_accepts hpos hmax)]
  simp only [Option.bind_eq_bind]
  unfold gregorSdnOffset daysPer400Years daysPer4Years
  rw [hA.long_bind (sdn + 32045) (by omega),
    hA.long ((sdn + 32045) * 4) (by omega), Option.bind_some, hA.long_bind _ (by omega), ← htemp, Int.tdiv_eq_ediv_of_nonneg (show 0 ≤ temp by omega),
    Int.tmod_eq_emod_of_nonneg (show 0 ≤ temp by omega), hA.int_bind _ (by omega),
    Int.tdiv_eq_ediv_of_nonneg (show 0 ≤ temp % 146097 by omega), hA.long_bind _ (by omega), hA.long_bind _ (by omega), ← hrest, hA.int_bind _ (by omega), Int.tdiv_eq_ediv_of_nonneg (show 0 ≤ rest by omega),
    Int.tmod_eq_emod_of_nonneg (show 0 ≤ rest by omega), ← hyear, hA.long_bind _ (by omega), hA.int_bind _ (by omega),
    Int.tdiv_eq_ediv_of_nonneg (show 0 ≤ rest % 1461 by omega), ← hday, hA.long_bind _ (by omega), hA.int_bind _ (by omega)]

theorem sdnToGregorian_spec (hpos : 1 ≤ sdn) (hmax : sdn ≤ 2305843009213661906)
    (hfit : sdn + 40000 ≤ hi) :
    ∃ d, sdnToGregorian A sdn = some (civil d) ∧ gregorian.Valid d ∧
      gregorian.dayNumber d = sdn := by
  obtain ⟨temp, htemp⟩ : ∃ t, t = (sdn + 32045) * 4 - 1 := ⟨_, rfl⟩
  obtain ⟨rest, hrest⟩ : ∃ t, t = temp % 146097 / 4 * 4 + 3 := ⟨_, rfl⟩
  obtain ⟨year, hyear⟩ : ∃ y, y = temp / 146097 * 100 + rest / 1461 := ⟨_, rfl⟩
  obtain ⟨day, hday⟩ : ∃ t, t = rest % 1461 / 4 + 1 := ⟨_, rfl⟩
  have hrun := sdnToGregorian_run hA hhi hpos hmax hfit htemp hrest hyear hday
  obtain ⟨c, hc⟩ : ∃ c, c = temp / 146097 := ⟨_, rfl⟩
  obtain ⟨q, hq⟩ : ∃ q, q = temp % 146097 / 4 := ⟨_, rfl⟩
  obtain ⟨y, hy⟩ : ∃ y, y = rest / 1461 := ⟨_, rfl⟩
  rw [← hq] at hrest
  rw [← hc, ← hy] at hyear
  rw [htemp] at hc hq
  rw [hrest] at hy hday
  -- `q` is the day in the century, the days before the year in it and those since then
  have ⟨hcentury, hq0, hq1, hfourth⟩ := gregorian_century hc hq
  have ⟨hinside, hyq, hrange, hlast⟩ := gregorian_yearDay ⟨hq0, hq1⟩ hy hday
  have hyear' : year = 100 * c + y := by
    rw [hyear, Int.mul_comm]
  have ⟨hparts, hparts', hparts''⟩ := gregorian_yearParts hyear' hyq
  have hsum : 365 * year + year / 4 - year / 100 + year / 400 + day = sdn + 32045 := by
    rw [hparts, hparts', hparts'']
    clear * - hyear' hcentury hinside
    omega
  have hleap : 1 ≤ day ∧ day ≤ 365 + if gregorianYears.leap (year + 1) then 1 else 0 := by
    clear hrun
    by_cases h366 : day = 366
    · have ⟨hfour, hfull⟩ := hlast h366
      rw [gregorian_lastDay hyear' hyq hfour (fun h99 => hfourth (hfull h99)), if_pos rfl, h366]
      decide
    · clear * - hrange h366
      split_ifs <;> omega
  have hfits : 0 ≤ year ∧ year < hi := by
    clear * - hyear' hcentury hinside hyq hrange hpos hfit hq0
    omega
  have ⟨d, hd, hvalid, hnumber⟩ := dateOfDay_spec hA hhi gregorianYears hfits hleap
  refine ⟨d, hrun.trans hd, hvalid, hnumber.trans ?_⟩
  show 365 * year + year / 4 - year / 100 + year / 400 + day - 32045 = sdn
  rw [hsum]
  omega

theorem gregorianToSdn_spec (hvalid : gregorian.Valid d) (hpos : 1 ≤ gregorian.dayNumber d)
    (hfit : (marchDate d).1 / 100 * 146097 ≤ hi) :
    gregorianToSdn A (civilYear d.year) (d.month + 1) d.day =
      some (gregorian.dayNumber d) := by
  obtain ⟨hmonth, hday, hday31⟩ := Valid_month_day hvalid
  have hnumber := marchDate_dayNumber hvalid
  have hne := civilYear_ne_zero d.year
  have hmarch : gregorianYears.march (marchDate d).1 = 365 * (marchDate d).1 + (marchDate d).1 / 4 -
      (marchDate d).1 / 100 + (marchDate d).1 / 400 := rfl
  have hoffset : gregorianYears.offset = 32045 := rfl
  change gregorian.dayNumber d = _ at hnumber
  rw [hmarch, hoffset] at hnumber
  obtain ⟨y, k, hyk⟩ : ∃ y k, marchDate d = (y, k) := ⟨_, _, rfl⟩
  have hcases := marchDate_cases hyk
  rw [hyk] at hnumber hfit
  dsimp only at hnumber hfit
  have hk : 0 ≤ k ∧ k ≤ 11 := by omega
  have hy : 87 ≤ y ∧ (y = 87 → k = 8 → 25 ≤ d.day) ∧ (y = 87 → 8 ≤ k) := by omega
  have hrun := marchYear_spec hA hhi d hmonth (by omega)
  have hmarchY := gregorian_march_eq y
  unfold gregorianToSdn
  rw [if_neg, if_neg]
  · rw [hrun, hyk, hnumber, ← hmarchY, Int.mul_comm 153 k]
    have hy0 : 0 ≤ y := by omega
    clear hcases hy hnumber hmarchY hpos
    unfold daysPer400Years daysPer4Years daysPer5Months gregorSdnOffset
    simp only [Option.bind_eq_bind, Option.bind_some]
    rw [Int.tdiv_eq_ediv_of_nonneg hy0, Int.tmod_eq_emod_of_nonneg hy0, hA.int_bind _ (by omega),
      hA.int_bind _ (by omega), Int.tdiv_eq_ediv_of_nonneg (show 0 ≤ y / 100 * 146097 by omega),
      Int.tdiv_eq_ediv_of_nonneg (show 0 ≤ y % 100 * 1461 by omega), hA.int_bind _ (by omega),
      hA.int_bind _ (by omega), hA.int_bind _ (by omega),
      Int.tdiv_eq_ediv_of_nonneg (show 0 ≤ k * 153 + 2 by omega), hA.int_bind _ (by omega),
      hA.int_bind _ (by omega), hA.int _ (by omega)]
  · unfold civilYear at hne ⊢
    split_ifs at hne ⊢ <;> omega
  · unfold civilYear at hne ⊢
    split_ifs at hne ⊢ <;> omega

end

def julianYears : MarchYears where
  leap a := decide (a % 4 = 0)
  march y := 365 * y + y / 4
  offset := julianSdnOffset
  march_succ y := by
    simp only [decide_eq_true_eq]
    split_ifs <;> omega

def julian : Calendar := julianYears.calendar

section

variable {A : Arith} {hi : Int} (hA : A.ExactTo hi) (hhi : 2147483647 ≤ hi)
include hA hhi

theorem sdnToJulian_spec (hpos : 1 ≤ sdn) (hmax : sdn ≤ 784368370349) (hfit : sdn + 40000 ≤ hi) :
    ∃ d, sdnToJulian A sdn = some (civil d) ∧ julian.Valid d ∧ julian.dayNumber d = sdn := by
  obtain ⟨temp, htemp⟩ : ∃ t, t = sdn * 4 + 128331 := ⟨_, rfl⟩
  obtain ⟨year, hyear⟩ : ∃ y, y = temp / 1461 := ⟨_, rfl⟩
  obtain ⟨day, hday⟩ : ∃ t, t = temp % 1461 / 4 + 1 := ⟨_, rfl⟩
  have hlimit : (longMax - julianSdnOffset * 4 + 1).tdiv 4 = 2305843009213661869 := by decide
  have hlow : longMin.tdiv 4 = -2305843009213693952 := by decide
  have hoffset : julianSdnOffset * 4 - 1 = 128331 := by decide
  have hrun : sdnToJulian A sdn = dateOfDay A year day := by
    unfold sdnToJulian
    rw [hlimit, hlow, if_neg (by omega), if_neg (by omega), hoffset, hA.long (sdn * 4) (by omega)]
    unfold daysPer4Years intMax intMin
    simp only [Option.bind_eq_bind, Option.bind_some]
    rw [hA.long_bind _ (by omega), ← htemp,
      Int.tdiv_eq_ediv_of_nonneg (show 0 ≤ temp by omega),
      Int.tmod_eq_emod_of_nonneg (show 0 ≤ temp by omega), ← hyear, if_neg (by omega),
      hA.int_bind _ (by omega),
      Int.tdiv_eq_ediv_of_nonneg (show 0 ≤ temp % 1461 by omega), ← hday, hA.long_bind _ (by omega), hA.int_bind _ (by omega)]
  have hsum : 365 * year + year / 4 + day = sdn + 32083 := by omega
  have hleap : 1 ≤ day ∧ day ≤ 365 + if julianYears.leap (year + 1) then 1 else 0 := by
    have hrange : 1 ≤ day ∧ day ≤ 366 ∧ (day = 366 → (year + 1) % 4 = 0) := by omega
    by_cases h366 : day = 366
    · have hyes : julianYears.leap (year + 1) = true := decide_eq_true (hrange.2.2 h366)
      rw [hyes, if_pos rfl]
      omega
    · split_ifs <;> omega
  obtain ⟨d, hd, hvalid, hnumber⟩ := dateOfDay_spec hA hhi julianYears (by omega) hleap
  refine ⟨d, hrun.trans hd, hvalid, hnumber.trans ?_⟩
  show 365 * year + year / 4 + day - 32083 = sdn
  omega

theorem julianToSdn_spec (hvalid : julian.Valid d) (hpos : 1 ≤ julian.dayNumber d)
    (hfit : (marchDate d).1 * 1461 ≤ hi) :
    julianToSdn A (civilYear d.year) (d.month + 1) d.day = some (julian.dayNumber d) := by
  obtain ⟨hmonth, hday, hday31⟩ := Valid_month_day hvalid
  have hnumber := marchDate_dayNumber hvalid
  have hne := civilYear_ne_zero d.year
  have hmarch : julianYears.march (marchDate d).1 =
      365 * (marchDate d).1 + (marchDate d).1 / 4 := rfl
  have hoffset : julianYears.offset = 32083 := rfl
  change julian.dayNumber d = _ at hnumber
  rw [hmarch, hoffset] at hnumber
  obtain ⟨y, k, hyk⟩ : ∃ y k, marchDate d = (y, k) := ⟨_, _, rfl⟩
  have hcases := marchDate_cases hyk
  rw [hyk] at hnumber hfit
  dsimp only at hnumber hfit
  have hk : 0 ≤ k ∧ k ≤ 11 := by omega
  have hy : 87 ≤ y ∧ (y = 87 → 10 ≤ k) ∧ (y = 87 → k = 10 → 2 ≤ d.day) := by omega
  have hrun := marchYear_spec hA hhi d hmonth (by omega)
  have hyears : y * 1461 / 4 = 365 * y + y / 4 := by omega
  unfold julianToSdn
  rw [if_neg, if_neg]
  · rw [hrun, hyk, hnumber, ← hyears, Int.mul_comm 153 k]
    have hy0 : 0 ≤ y := by omega
    clear hcases hy hnumber hyears hpos
    unfold daysPer4Years daysPer5Months julianSdnOffset
    simp only [Option.bind_eq_bind, Option.bind_some]
    rw [hA.int_bind _ (by omega), hA.int_bind _ (by omega), hA.int_bind _ (by omega),
      Int.tdiv_eq_ediv_of_nonneg (show 0 ≤ y * 1461 by omega),
      Int.tdiv_eq_ediv_of_nonneg (show 0 ≤ k * 153 + 2 by omega), hA.int_bind _ (by omega),
      hA.int_bind _ (by omega), hA.int _ (by omega)]
  · unfold civilYear at hne ⊢
    split_ifs at hne ⊢ <;> omega
  · unfold civilYear at hne ⊢
    split_ifs at hne ⊢ <;> omega

end

/-- Each day number that is not rejected has a date in the calendar, without a year 0; the date of
    the next day is the next one, and the way back gives the day number. -/
def Converts (c : Calendar) (toDate : Int → Option (Int × Int × Int))
    (toSdn : Int → Int → Int → Option Int) : Prop :=
  ∀ sdn, 1 ≤ sdn → toDate sdn ≠ some (0, 0, 0) →
    ∃ d, c.Valid d ∧ toDate sdn = some (civil d) ∧ (civil d).1 ≠ 0 ∧
      toSdn (civil d).1 (civil d).2.1 (civil d).2.2 = some sdn ∧
      (toDate (sdn + 1) ≠ some (0, 0, 0) → toDate (sdn + 1) = some (civil (c.next d)))

theorem converts_of {c : Calendar} {toDate : Int → Option (Int × Int × Int)}
    {toSdn : Int → Int → Int → Option Int} (limit : Int)
    (hreject : ∀ sdn, limit < sdn → toDate sdn = some (0, 0, 0))
    (hdate : ∀ sdn, 1 ≤ sdn → sdn ≤ limit →
      ∃ d, toDate sdn = some (civil d) ∧ c.Valid d ∧ c.dayNumber d = sdn)
    (hback : ∀ d, c.Valid d → 1 ≤ c.dayNumber d →
      toSdn (civilYear d.year) (d.month + 1) d.day = some (c.dayNumber d)) :
    Converts c toDate toSdn := by
  have hlimit : ∀ sdn, toDate sdn ≠ some (0, 0, 0) → sdn ≤ limit := fun sdn h => by
    by_contra hout
    exact h (hreject sdn (by omega))
  intro sdn hpos hacc
  obtain ⟨d, hd, hvalid, hnumber⟩ := hdate sdn hpos (hlimit sdn hacc)
  refine ⟨d, hvalid, hd, civilYear_ne_zero d.year, ?_, fun hnext => ?_⟩
  · rw [← hnumber]
    exact hback d hvalid (by omega)
  · obtain ⟨e, he, hevalid, henumber⟩ := hdate (sdn + 1) (by omega) (hlimit _ hnext)
    rw [he, hvalid.eq_next hevalid (by omega)]

theorem sdnToGregorian_rejects {A : Arith} (h : 2305843009213661906 < sdn) :
    sdnToGregorian A sdn = some (0, 0, 0) := by
  have hlimit : (longMax - 4 * gregorSdnOffset).tdiv 4 = 2305843009213661906 := by decide
  unfold sdnToGregorian
  rw [hlimit]
  exact if_pos (Or.inr h)

theorem sdnToJulian_rejects {A : Arith} {hi : Int} (hA : A.ExactTo hi)
    (h : 784368370349 < sdn) : sdnToJulian A sdn = some (0, 0, 0) := by
  have hlimit : (longMax - julianSdnOffset * 4 + 1).tdiv 4 = 2305843009213661869 := by decide
  have hoffset : julianSdnOffset * 4 - 1 = 128331 := by decide
  unfold sdnToJulian
  rw [if_neg (by omega), hlimit]
  by_cases hout : sdn > 2305843009213661869 ∨ sdn < longMin.tdiv 4
  · exact if_pos hout
  · rw [if_neg hout, hoffset, hA.long (sdn * 4) (by omega)]
    unfold daysPer4Years
    simp only [Option.bind_eq_bind, Option.bind_some]
    rw [hA.long_bind _ (by omega)]
    refine if_pos (Or.inl ?_)
    rw [Int.tdiv_eq_ediv_of_nonneg (by omega)]
    unfold intMax
    omega

theorem civil_converts :
    Converts gregorian (sdnToGregorian exact) (gregorianToSdn exact) ∧
      Converts julian (sdnToJulian exact) (julianToSdn exact) :=
  ⟨converts_of 2305843009213661906 (fun _ h => sdnToGregorian_rejects h)
      (fun _ hpos hmax => sdnToGregorian_spec (exact_exactTo 3000000000000000000) (by decide) hpos
        hmax (by omega))
      (fun _ hvalid hpos => gregorianToSdn_spec (exact_exactTo (max 2147483647 _))
        (Int.le_max_left ..) hvalid hpos (Int.le_max_right ..)),
    converts_of 784368370349 (fun _ h => sdnToJulian_rejects (exact_exactTo 0) h)
      (fun _ hpos hmax => sdnToJulian_spec (exact_exactTo 3000000000000000000) (by decide) hpos
        hmax (by omega))
      (fun _ hvalid hpos => julianToSdn_spec (exact_exactTo (max 2147483647 _))
        (Int.le_max_left ..) hvalid hpos (Int.le_max_right ..))⟩

/-- The largest `long` is rejected, so it has no date. -/
theorem longMax_rejected :
    ¬ ∀ sdn, 1 ≤ sdn → ∃ d, gregorian.Valid d ∧ sdnToGregorian exact sdn = some (civil d) := by
  intro h
  obtain ⟨d, -, hd⟩ := h (2 ^ 63 - 1) (by decide)
  rw [show sdnToGregorian exact (2 ^ 63 - 1) = some (0, 0, 0) by decide] at hd
  have hmonth := congrArg (fun t => t.2.1) (Option.some.inj hd)
  change (0 : Int) = d.month + 1 at hmonth
  omega

end Php53.Calendar
