import Mathlib.Algebra.GroupWithZero.Nat
import Mathlib.Algebra.BigOperators.Group.List.Basic
import Mathlib.Order.SuccPred.IntervalSucc
import Mathlib.Order.Monotone.Basic
import Mathlib.Algebra.Order.Group.Int

/-!
# Calendar — years of months of days

A calendar numbers the days by giving every year its first day and the lengths of its months, in
order.  A date is a position in that sequence; its successor is the next position.
-/

namespace Reasoning

structure Calendar where
  /-- The number of the first day of a year. -/
  start : Int → Int
  lengths : Int → List Nat
  start_succ : ∀ y, start (y + 1) = start y + (lengths y).sum
  lengths_pos : ∀ y, ∀ n ∈ lengths y, 0 < n
  lengths_ne : ∀ y, lengths y ≠ []

/-- Months are counted from 0, days from 1. -/
@[ext] structure CalendarDate where
  year : Int
  month : Nat
  day : Int
deriving DecidableEq, Repr

namespace Calendar

variable (c : Calendar) {d e : CalendarDate}

def monthLength (d : CalendarDate) : Nat := ((c.lengths d.year)[d.month]?).getD 0

def Valid (d : CalendarDate) : Prop := 1 ≤ d.day ∧ d.day ≤ c.monthLength d

def dayNumber (d : CalendarDate) : Int :=
  c.start d.year + ((c.lengths d.year).take d.month).sum + (d.day - 1)

def next (d : CalendarDate) : CalendarDate :=
  if d.day < c.monthLength d then { d with day := d.day + 1 }
  else if d.month + 1 < (c.lengths d.year).length then { d with month := d.month + 1, day := 1 }
  else { year := d.year + 1, month := 0, day := 1 }

theorem start_lt (y : Int) : c.start y < c.start (y + 1) := by
  have hne := c.lengths_ne y
  have hpos := c.lengths_pos y
  rw [c.start_succ]
  cases hl : c.lengths y with
  | nil => exact (hne hl).elim
  | cons n l =>
    have hn := hpos n (by simp [hl])
    rw [List.sum_cons]
    omega

theorem start_mono {a b : Int} (h : a ≤ b) : c.start a ≤ c.start b :=
  monotone_int_of_le_succ (fun y => (c.start_lt y).le) h

theorem year_unique {x a b : Int} (ha : c.start a ≤ x ∧ x < c.start (a + 1))
    (hb : c.start b ≤ x ∧ x < c.start (b + 1)) : a = b := by
  rcases Int.lt_trichotomy a b with hlt | heq | hgt
  · have hle := c.start_mono (by omega : a + 1 ≤ b)
    omega
  · exact heq
  · have hle := c.start_mono (by omega : b + 1 ≤ a)
    omega

variable {c}

theorem monthLength_le {n : Nat} (h : ∀ m ∈ c.lengths d.year, m ≤ n) : c.monthLength d ≤ n := by
  unfold monthLength
  cases hm : (c.lengths d.year)[d.month]? with
  | none => exact Nat.zero_le n
  | some m => exact h m (List.mem_of_getElem? hm)

theorem Valid.month_lt (h : c.Valid d) : d.month < (c.lengths d.year).length := by
  by_contra hout
  obtain ⟨hlo, hhi⟩ := h
  unfold monthLength at hhi
  rw [List.getElem?_eq_none (by omega)] at hhi
  simp at hhi
  omega

theorem sum_take_succ (l : List Nat) (m : Nat) :
    (l.take (m + 1)).sum = (l.take m).sum + (l[m]?).getD 0 := by
  induction l generalizing m with
  | nil => simp
  | cons n l ih =>
    cases m with
    | zero => simp
    | succ m => simp [ih, Nat.add_assoc]

theorem sum_take_mono (l : List Nat) {m m' : Nat} (h : m ≤ m') :
    (l.take m).sum ≤ (l.take m').sum := by
  induction h with
  | refl => exact Nat.le_refl _
  | step _ ih =>
    rw [sum_take_succ]
    omega

theorem Valid.dayNumber_range (h : c.Valid d) :
    c.start d.year ≤ c.dayNumber d ∧ c.dayNumber d < c.start (d.year + 1) := by
  have hlo := h.1
  have hhi := h.2
  have hle := sum_take_mono (c.lengths d.year) h.month_lt
  rw [List.take_length, sum_take_succ] at hle
  rw [c.start_succ]
  unfold monthLength at hhi
  unfold dayNumber
  omega

theorem Valid.next (h : c.Valid d) : c.Valid (c.next d) := by
  have hlo := h.1
  have hpos : ∀ y m, m < (c.lengths y).length → 0 < ((c.lengths y)[m]?).getD 0 := by
    intro y m hm
    rw [List.getElem?_eq_getElem hm]
    exact c.lengths_pos y _ (List.getElem_mem hm)
  unfold Calendar.next
  split_ifs with hday hmonth
  · constructor
    · show 1 ≤ d.day + 1
      omega
    · show d.day + 1 ≤ c.monthLength d
      omega
  · have hp := hpos d.year (d.month + 1) hmonth
    refine ⟨Int.le_refl 1, ?_⟩
    show (1 : Int) ≤ (((c.lengths d.year)[d.month + 1]?).getD 0 : Nat)
    omega
  · have hp := hpos (d.year + 1) 0 (List.length_pos_iff.mpr (c.lengths_ne _))
    refine ⟨Int.le_refl 1, ?_⟩
    show (1 : Int) ≤ (((c.lengths (d.year + 1))[0]?).getD 0 : Nat)
    omega

theorem Valid.dayNumber_next (h : c.Valid d) : c.dayNumber (c.next d) = c.dayNumber d + 1 := by
  have hlen := h.month_lt
  obtain ⟨hlo, hhi⟩ := h
  have hsucc := sum_take_succ (c.lengths d.year) d.month
  unfold monthLength at hhi
  unfold Calendar.next monthLength dayNumber
  split_ifs with hday hmonth
  · show c.start d.year + ((c.lengths d.year).take d.month).sum + (d.day + 1 - 1) = _
    omega
  · show c.start d.year + ((c.lengths d.year).take (d.month + 1)).sum + (1 - 1) = _
    omega
  · show c.start (d.year + 1) + ((c.lengths (d.year + 1)).take 0).sum + (1 - 1) = _
    have hlast : d.month + 1 = (c.lengths d.year).length := by omega
    rw [hlast, List.take_length] at hsucc
    rw [c.start_succ, List.take_zero, List.sum_nil]
    omega

theorem Valid.dayNumber_inj (hd : c.Valid d) (he : c.Valid e)
    (h : c.dayNumber d = c.dayNumber e) : d = e := by
  have hyear : d.year = e.year :=
    c.year_unique hd.dayNumber_range (h ▸ he.dayNumber_range)
  obtain ⟨hdlo, hdhi⟩ := hd
  obtain ⟨helo, hehi⟩ := he
  unfold dayNumber at h
  unfold monthLength at hdhi hehi
  rw [← hyear] at h hehi
  have hdsucc := sum_take_succ (c.lengths d.year) d.month
  have hesucc := sum_take_succ (c.lengths d.year) e.month
  have hmonth : d.month = e.month := by
    rcases Nat.lt_trichotomy d.month e.month with hlt | heq | hgt
    · have hle := sum_take_mono (c.lengths d.year) (by omega : d.month + 1 ≤ e.month)
      omega
    · exact heq
    · have hle := sum_take_mono (c.lengths d.year) (by omega : e.month + 1 ≤ d.month)
      omega
  rw [hmonth] at h
  exact CalendarDate.ext hyear hmonth (by omega)

theorem Valid.lt_iff (h : c.Valid d) (y : Int) (m : Nat) :
    c.dayNumber d < c.start y + ((c.lengths y).take m).sum ↔
      d.year < y ∨ d.year = y ∧ d.month < m := by
  have hrange := h.dayNumber_range
  rcases Int.lt_trichotomy d.year y with hlt | heq | hgt
  · have hmono := c.start_mono (by omega : d.year + 1 ≤ y)
    omega
  · subst heq
    obtain ⟨hlo, hhi⟩ := h
    have hsucc := sum_take_succ (c.lengths d.year) d.month
    unfold monthLength at hhi
    unfold dayNumber
    by_cases hm : d.month < m
    · have hle := sum_take_mono (c.lengths d.year) (by omega : d.month + 1 ≤ m)
      omega
    · have hle := sum_take_mono (c.lengths d.year) (by omega : m ≤ d.month)
      omega
  · have hmono := c.start_mono (by omega : y + 1 ≤ d.year)
    have hall := congrArg List.sum (List.take_append_drop m (c.lengths y))
    rw [List.sum_append] at hall
    rw [c.start_succ] at hmono
    omega

theorem Valid.eq_next (hd : c.Valid d) (he : c.Valid e)
    (h : c.dayNumber e = c.dayNumber d + 1) : e = c.next d :=
  he.dayNumber_inj hd.next (h.trans hd.dayNumber_next.symm)

end Calendar

end Reasoning
