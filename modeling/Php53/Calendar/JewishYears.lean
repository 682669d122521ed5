import Mathlib.Tactic.IntervalCases
import Php53.Calendar.Jewish
import Php53.Reasoning.Calendar

/-!
# JewishYears — the years of the Jewish calendar

Years are counted from 0 here, days from the day before the first one.  A year has 12 lunar months
or, 7 times in 19 years, 13; the molad that starts it is given in halakim, of which a day has 25920.
-/

namespace Php53.Calendar

open Reasoning

def monthsBefore (y : Int) : Int := 12 * y + (7 * y + 1) / 19

def jewishLeap (y : Int) : Bool := decide ((7 * y + 1) % 19 ≥ 12)

def halakimBefore (y : Int) : Int := 31524 + 765433 * monthsBefore y

def moladDay (y : Int) : Int := halakimBefore y / 25920
def moladRest (y : Int) : Int := halakimBefore y % 25920

theorem monthsBefore_succ (y : Int) :
    monthsBefore (y + 1) = monthsBefore y + if jewishLeap y then 13 else 12 := by
  unfold monthsBefore jewishLeap
  simp only [decide_eq_true_eq]
  split_ifs <;> omega

theorem moladRest_range (y : Int) : 0 ≤ moladRest y ∧ moladRest y < 25920 := by
  unfold moladRest
  omega

theorem molad_succ (y : Int) :
    25920 * moladDay (y + 1) + moladRest (y + 1) =
      25920 * moladDay y + moladRest y + if jewishLeap y then 9950629 else 9185196 := by
  have hsucc := monthsBefore_succ y
  unfold moladDay moladRest halakimBefore
  split_ifs at hsucc ⊢ <;> omega

def delay (leap lastLeap : Bool) (day halakim : Int) : Int :=
  if halakim ≥ 19440 ∨ (leap = false ∧ day % 7 = 2 ∧ halakim ≥ 9924) ∨
      (lastLeap = true ∧ day % 7 = 1 ∧ halakim ≥ 16789) then
    if day % 7 = 2 ∨ day % 7 = 4 ∨ day % 7 = 6 then 2 else 1
  else if day % 7 = 3 ∨ day % 7 = 5 ∨ day % 7 = 0 then 1 else 0

def newYear (y : Int) : Int :=
  moladDay y + delay (jewishLeap y) (jewishLeap (y - 1)) (moladDay y) (moladRest y)

theorem newYear_range (y : Int) : moladDay y ≤ newYear y ∧ newYear y ≤ moladDay y + 2 := by
  unfold newYear delay
  split_ifs <;> omega

def yearLength (y : Int) : Int := newYear (y + 1) - newYear y

theorem jewishLeap_succ {y : Int} (h : jewishLeap y = true) : jewishLeap (y + 1) = false := by
  unfold jewishLeap at *
  simp only [decide_eq_true_eq, decide_eq_false_iff_not] at *
  rw [show 7 * (y + 1) + 1 = (7 * y + 1) + 7 by omega]
  generalize 7 * y + 1 = x at *
  omega

theorem yearLength_leap {y : Int} (hleap : jewishLeap y = true) :
    383 ≤ yearLength y ∧ yearLength y ≤ 385 := by
  have hsucc := molad_succ y
  have hrest := moladRest_range y
  have hrest' := moladRest_range (y + 1)
  have hleap' := jewishLeap_succ hleap
  unfold yearLength newYear delay
  rw [Int.add_sub_cancel]
  simp only [hleap, hleap', if_true, reduceCtorEq, false_and, true_and, false_or] at hsucc ⊢
  generalize moladDay y = d at *
  generalize moladDay (y + 1) = d' at *
  generalize moladRest y = h at *
  generalize moladRest (y + 1) = h' at *
  constructor <;> split_ifs <;> omega

theorem yearLength_common {y : Int} (hleap : jewishLeap y = false) :
    353 ≤ yearLength y ∧ yearLength y ≤ 355 := by
  have hsucc := molad_succ y
  have hrest := moladRest_range y
  have hrest' := moladRest_range (y + 1)
  unfold yearLength newYear delay
  rw [Int.add_sub_cancel]
  simp only [hleap, if_false, reduceCtorEq, false_and, true_and, or_false] at hsucc ⊢
  generalize moladDay y = d at *
  generalize moladDay (y + 1) = d' at *
  generalize moladRest y = h at *
  generalize moladRest (y + 1) = h' at *
  constructor <;> split_ifs <;> omega

theorem moladDay_succ (y : Int) :
    moladDay y + 354 ≤ moladDay (y + 1) ∧ moladDay (y + 1) ≤ moladDay y + 384 := by
  have hsucc := molad_succ y
  have hrest := moladRest_range y
  have hrest' := moladRest_range (y + 1)
  split_ifs at hsucc <;> omega

theorem moladDay_mono {a b : Int} (h : a ≤ b) : moladDay a ≤ moladDay b := by
  refine monotone_int_of_le_succ (fun y => ?_) h
  have h := moladDay_succ y
  omega

def heshvan (length : Int) : Nat := if length = 355 ∨ length = 385 then 30 else 29

def kislev (length : Int) : Nat := if length = 353 ∨ length = 383 then 29 else 30

def lateLengths (leap : Bool) : List Nat :=
  [29, 30] ++ (if leap then [30, 29] else [29]) ++ [30, 29, 30, 29, 30, 29]

def jewishLengths (leap : Bool) (length : Int) : List Nat :=
  30 :: heshvan length :: kislev length :: lateLengths leap

def jewishMonth (leap : Bool) (i : Nat) : Int := if leap ∨ i < 6 then i + 1 else i + 2

theorem jewishMonth_first (leap : Bool) {i : Nat} (h : i < 3) : jewishMonth leap i = i + 1 :=
  if_pos (Or.inr (by omega))

theorem jewishMonth_range (leap : Bool) : ∀ i < 3 + (lateLengths leap).length,
    1 ≤ jewishMonth leap i ∧ jewishMonth leap i ≤ 13 := by
  cases leap <;> decide

theorem jewishLengths_le (leap : Bool) (length : Int) :
    ∀ n ∈ jewishLengths leap length, n ≤ 30 := by
  intro n hn
  unfold jewishLengths heshvan kislev lateLengths at hn
  cases leap <;> split_ifs at hn <;> revert n <;> decide

theorem sum_jewishLengths (y : Int) :
    ((jewishLengths (jewishLeap y) (yearLength y)).sum : Int) = yearLength y := by
  cases hleap : jewishLeap y with
  | false =>
    have hcommon := yearLength_common hleap
    generalize yearLength y = n at *
    obtain rfl | rfl | rfl : n = 353 ∨ n = 354 ∨ n = 355 := by omega
    all_goals decide
  | true =>
    have hlong := yearLength_leap hleap
    generalize yearLength y = n at *
    obtain rfl | rfl | rfl : n = 383 ∨ n = 384 ∨ n = 385 := by omega
    all_goals decide

def jewish : Calendar where
  start y := newYear y + jewishSdnOffset
  lengths y := jewishLengths (jewishLeap y) (yearLength y)
  start_succ y := by
    rw [sum_jewishLengths]
    unfold yearLength
    omega
  lengths_pos y n hn := by
    unfold jewishLengths heshvan kislev lateLengths at hn
    cases hleap : jewishLeap y <;> simp only [hleap] at hn <;> split_ifs at hn <;>
      revert n <;> decide
  lengths_ne y := by simp [jewishLengths]

variable {d : CalendarDate}

theorem jewish_year_range (h : jewish.Valid d) (hlo : jewishSdnOffset < jewish.dayNumber d)
    (hup : jewish.dayNumber d ≤ jewishSdnMax) :
    0 ≤ d.year ∧ d.year < 887680 := by
  have hrange := h.dayNumber_range
  have hfirst : jewish.start 0 = jewishSdnOffset + 1 := by decide
  have hlast : jewishSdnMax < jewish.start 887680 := by decide
  constructor
  · by_contra hneg
    have hmono := jewish.start_mono (by omega : d.year + 1 ≤ 0)
    omega
  · by_contra hbig
    have hmono := jewish.start_mono (by omega : 887680 ≤ d.year)
    omega

theorem jewish_day_range (h : jewish.Valid d) : 1 ≤ d.day ∧ d.day ≤ 30 := by
  have hlength := Calendar.monthLength_le (c := jewish) (d := d) (jewishLengths_le _ _)
  have hup := h.2
  exact ⟨h.1, by omega⟩

theorem jewish_month_range (h : jewish.Valid d) :
    1 ≤ jewishMonth (jewishLeap d.year) d.month ∧
      jewishMonth (jewishLeap d.year) d.month ≤ 13 := by
  have hmonth : d.month < (lateLengths (jewishLeap d.year)).length + 1 + 1 + 1 := h.month_lt
  exact jewishMonth_range _ _ (by omega)

def jewishDate (d : CalendarDate) : Int × Int × Int :=
  (d.year + 1, jewishMonth (jewishLeap d.year) d.month, d.day)

end Php53.Calendar
