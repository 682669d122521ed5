import Php53.Calendar.Civil
import Php53.Calendar.JewishDates

/-!
# RoundTrip — the conversions with an `int` of 32 bits and a `long` of 64

Above, everything was shown for any arithmetic that is exact as far as the numbers go.  Here the
arithmetic is that of the machine, and the question is for which days no number goes too far.
-/

namespace Php53.Calendar

open Reasoning

def RoundTrips (toDate : Int → Option (Int × Int × Int))
    (toSdn : Int → Int → Int → Option Int) (sdn : Int) : Prop :=
  toDate sdn = some (0, 0, 0) ∨
    ∃ date, toDate sdn = some date ∧ toSdn date.1 date.2.1 date.2.2 = some sdn

theorem roundTrips_of (c : Calendar) (name : CalendarDate → Int × Int × Int)
    {toDate : Int → Option (Int × Int × Int)} {toSdn : Int → Int → Int → Option Int}
    {first last limit : Int} (hfirst : first ≤ last) (hname : ∀ d, (name d).2.2 = d.day)
    (hlow : ∀ sdn, sdn ≤ first → toDate sdn = some (0, 0, 0))
    (hhigh : ∀ sdn, limit < sdn → toDate sdn = some (0, 0, 0))
    (hdate : ∀ sdn date, first < sdn → sdn ≤ limit → toDate sdn = some date →
      ∃ d, date = name d ∧ c.Valid d ∧ c.dayNumber d = sdn)
    (hgood : ∀ sdn, first < sdn → sdn ≤ last → ∃ d, toDate sdn = some (name d) ∧
      toSdn (name d).1 (name d).2.1 (name d).2.2 = some sdn)
    (hbad : ∀ d, c.Valid d → last < c.dayNumber d →
      toSdn (name d).1 (name d).2.1 (name d).2.2 ≠ some (c.dayNumber d)) (sdn : Int) :
    RoundTrips toDate toSdn sdn ↔ sdn ≤ last ∨ limit < sdn := by
  constructor
  · intro h
    by_contra hout
    have hin : last < sdn ∧ sdn ≤ limit := by omega
    rcases h with hzero | ⟨date, hrun, hback⟩
    · obtain ⟨d, hd, hvalid, -⟩ := hdate sdn _ (by omega) hin.2 hzero
      have hday := hvalid.1
      rw [← hname d, ← hd] at hday
      exact absurd hday (by decide)
    · obtain ⟨d, rfl, hvalid, rfl⟩ := hdate sdn date (by omega) hin.2 hrun
      exact hbad d hvalid hin.1 hback
  · rintro (hle | hlt)
    · by_cases hsmall : sdn ≤ first
      · exact Or.inl (hlow sdn hsmall)
      · obtain ⟨d, hrun, hback⟩ := hgood sdn (by omega) hle
        exact Or.inr ⟨name d, hrun, hback⟩
    · exact Or.inl (hhigh sdn hlt)

theorem dateOfDay_yields (year dayOfYear : Int) :
    Yields (dateOfDay lp64 year dayOfYear) (dateOfDay exact year dayOfYear) := by
  unfold dateOfDay
  refine (Yields.int _).bind fun temp => (Yields.int _).bind fun temp => (Yields.int _).bind
    fun month => (Yields.long _).bind fun day => (Yields.int _).bind fun day => ?_
  refine Yields.bind (Yields.ite ?_ ?_) fun _ => (Yields.int _).bind fun year =>
    Yields.bind (Yields.ite (Yields.int _) (Yields.refl _)) fun _ => Yields.refl _
  · exact (Yields.int _).bind fun _ => Yields.refl _
  · exact (Yields.int _).bind fun _ => (Yields.int _).bind fun _ => Yields.refl _

theorem sdnToGregorian_yields (sdn : Int) :
    Yields (sdnToGregorian lp64 sdn) (sdnToGregorian exact sdn) := by
  unfold sdnToGregorian
  refine Yields.ite (Yields.refl _) ((Yields.long _).bind fun temp => (Yields.long _).bind
    fun temp => (Yields.long _).bind fun temp => (Yields.int _).bind fun century => ?_)
  exact (Yields.long _).bind fun temp => (Yields.long _).bind fun temp => (Yields.int _).bind
    fun hundreds => (Yields.long _).bind fun year => (Yields.int _).bind fun year =>
    (Yields.long _).bind fun day => (Yields.int _).bind fun day => dateOfDay_yields _ _

theorem sdnToJulian_yields (sdn : Int) :
    Yields (sdnToJulian lp64 sdn) (sdnToJulian exact sdn) := by
  unfold sdnToJulian
  refine Yields.ite (Yields.refl _) (Yields.ite (Yields.refl _) ((Yields.long _).bind fun temp =>
    (Yields.long _).bind fun temp => Yields.ite (Yields.refl _) ?_))
  exact (Yields.int _).bind fun year => (Yields.long _).bind fun day => (Yields.int _).bind
    fun day => dateOfDay_yields _ _

theorem marchYear_yields (year month : Int) :
    Yields (marchYear lp64 year month) (marchYear exact year month) := by
  unfold marchYear
  refine Yields.bind (Yields.ite (Yields.int _) (Yields.int _)) fun year => Yields.ite ?_ ?_
  · exact (Yields.int _).bind fun _ => Yields.refl _
  · exact (Yields.int _).bind fun _ => (Yields.int _).bind fun _ => Yields.refl _

theorem lp64_int_fits {x a : Int} (h : lp64.int x = some a) : x ≤ 2147483647 := by
  by_contra hout
  rw [lp64_int_overflow (Or.inr (by omega))] at h
  cases h

variable {d : CalendarDate} {sdn : Int}

theorem marchYear_some (hmonth : d.month < 12) (hyear : 0 < d.year) {date : Int × Int}
    (h : marchYear lp64 (civilYear d.year) (d.month + 1) = some date) : date = marchDate d := by
  have hspec := marchYear_spec (exact_exactTo (max 2147483647 (d.year + 4800)))
    (Int.le_max_left ..) d hmonth ⟨by omega, Int.le_max_right ..⟩
  rw [marchYear_yields _ _ _ h] at hspec
  exact Option.some.inj hspec

theorem gregorianToSdn_fits (hvalid : gregorian.Valid d) (hyear : 0 < d.year)
    (h : gregorianToSdn lp64 (civilYear d.year) (d.month + 1) d.day = some sdn) :
    (marchDate d).1 / 100 * 146097 ≤ 2147483647 := by
  obtain ⟨hmonth, hday, hday31⟩ := Valid_month_day hvalid
  have hpos : 0 ≤ (marchDate d).1 := by
    unfold marchDate
    split_ifs <;> dsimp only <;> omega
  have hcivil : civilYear d.year = d.year := if_neg (by omega)
  unfold gregorianToSdn at h
  rw [if_neg (by omega), if_neg (by omega)] at h
  obtain ⟨date, hrun, h⟩ := Option.bind_eq_some_iff.mp h
  obtain ⟨centuries, hcenturies, -⟩ := Option.bind_eq_some_iff.mp h
  have hfits := lp64_int_fits hcenturies
  rw [marchYear_some hmonth hyear hrun, Int.tdiv_eq_ediv_of_nonneg hpos] at hfits
  exact hfits

theorem julianToSdn_fits (hvalid : julian.Valid d) (hyear : 0 < d.year)
    (h : julianToSdn lp64 (civilYear d.year) (d.month + 1) d.day = some sdn) :
    (marchDate d).1 * 1461 ≤ 2147483647 := by
  obtain ⟨hmonth, hday, hday31⟩ := Valid_month_day hvalid
  have hcivil : civilYear d.year = d.year := if_neg (by omega)
  unfold julianToSdn at h
  rw [if_neg (by omega), if_neg (by omega)] at h
  obtain ⟨date, hrun, h⟩ := Option.bind_eq_some_iff.mp h
  obtain ⟨years, hyears, -⟩ := Option.bind_eq_some_iff.mp h
  have hfits := lp64_int_fits hyears
  rw [marchYear_some hmonth hyear hrun] at hfits
  exact hfits

theorem marchDate_le {m : MarchYears} (hvalid : m.calendar.Valid d) {y : Int}
    (h : m.calendar.dayNumber d < m.calendar.start y + (((m.calendar).lengths y).take 2).sum) :
    (marchDate d).1 < y + 4800 := by
  have hbefore := (hvalid.lt_iff y 2).mp h
  unfold marchDate
  split_ifs <;> dsimp only <;> omega

theorem le_marchDate {m : MarchYears} (hvalid : m.calendar.Valid d) {y : Int}
    (h : m.calendar.start y + (((m.calendar).lengths y).take 2).sum ≤ m.calendar.dayNumber d) :
    y ≤ d.year ∧ y + 4800 ≤ (marchDate d).1 := by
  have hbehind := mt (hvalid.lt_iff y 2).mpr (by omega)
  unfold marchDate
  split_ifs <;> dsimp only <;> omega

theorem gregorian_roundTrips (sdn : Int) :
    RoundTrips (sdnToGregorian lp64) (gregorianToSdn lp64) sdn ↔
      sdn ≤ 536874430 ∨ 2305843009213661906 < sdn := by
  have hfirst : gregorian.start 1465200 + ((gregorian.lengths 1465200).take 2).sum = 536874431 := by
    decide
  have hlow : ∀ sdn, sdn ≤ 0 → sdnToGregorian lp64 sdn = some (0, 0, 0) :=
    fun sdn h => if_pos (Or.inl h)
  refine roundTrips_of gregorian civil (by decide) (fun _ => rfl) hlow
    (fun sdn h => sdnToGregorian_rejects h) ?_ ?_ ?_ sdn
  · intro sdn date hpos hmax hrun
    obtain ⟨d, hd, hvalid, hnumber⟩ :=
      sdnToGregorian_spec (exact_exactTo 3000000000000000000) (by decide) hpos hmax (by omega)
    rw [sdnToGregorian_yields sdn _ hrun] at hd
    exact ⟨d, Option.some.inj hd, hvalid, hnumber⟩
  · intro sdn hpos hlast
    obtain ⟨d, hd, hvalid, hnumber⟩ :=
      sdnToGregorian_spec lp64_exactTo (by decide) hpos (by omega) (by omega)
    have hmarch := marchDate_le (y := 1465200) hvalid (by
      show gregorian.dayNumber d <
        gregorian.start 1465200 + ((gregorian.lengths 1465200).take 2).sum
      omega)
    refine ⟨d, hd, ?_⟩
    rw [← hnumber]
    exact gregorianToSdn_spec lp64_exactTo (by decide) hvalid (by omega) (by omega)
  · intro d hvalid hlast hrun
    obtain ⟨hyear, hmarch⟩ := le_marchDate (y := 1465200) hvalid (by
      show gregorian.start 1465200 + ((gregorian.lengths 1465200).take 2).sum ≤
        gregorian.dayNumber d
      omega)
    have hfits := gregorianToSdn_fits hvalid (by omega) hrun
    omega

theorem julian_roundTrips (sdn : Int) :
    RoundTrips (sdnToJulian lp64) (julianToSdn lp64) sdn ↔
      sdn ≤ 536839030 ∨ 784368370349 < sdn := by
  have hfirst : julian.start 1465073 + ((julian.lengths 1465073).take 2).sum = 536839031 := by
    decide
  have hlow : ∀ sdn, sdn ≤ 0 → sdnToJulian lp64 sdn = some (0, 0, 0) := fun sdn h => if_pos h
  refine roundTrips_of julian civil (by decide) (fun _ => rfl) hlow
    (fun sdn h => sdnToJulian_rejects lp64_exactTo h) ?_ ?_ ?_ sdn
  · intro sdn date hpos hmax hrun
    obtain ⟨d, hd, hvalid, hnumber⟩ :=
      sdnToJulian_spec (exact_exactTo 3000000000000000000) (by decide) hpos hmax (by omega)
    rw [sdnToJulian_yields sdn _ hrun] at hd
    exact ⟨d, Option.some.inj hd, hvalid, hnumber⟩
  · intro sdn hpos hlast
    obtain ⟨d, hd, hvalid, hnumber⟩ :=
      sdnToJulian_spec lp64_exactTo (by decide) hpos (by omega) (by omega)
    have hmarch := marchDate_le (y := 1465073) hvalid (by
      show julian.dayNumber d < julian.start 1465073 + ((julian.lengths 1465073).take 2).sum
      omega)
    refine ⟨d, hd, ?_⟩
    rw [← hnumber]
    exact julianToSdn_spec lp64_exactTo (by decide) hvalid (by omega) (by omega)
  · intro d hvalid hlast hrun
    obtain ⟨hyear, hmarch⟩ := le_marchDate (y := 1465073) hvalid (by
      show julian.start 1465073 + ((julian.lengths 1465073).take 2).sum ≤ julian.dayNumber d
      omega)
    have hfits := julianToSdn_fits hvalid (by omega) hrun
    omega

theorem moladOfMetonicCycle_overflows {c : Int} (hc : 46714 ≤ c) :
    moladOfMetonicCycle lp64 c = none := by
  have hfactor : ((halakimPerMetonicCycle.toNat &&& 0xFFFF : Nat) : Int) = 45971 := by decide
  unfold moladOfMetonicCycle
  rw [hfactor, lp64_int_overflow (Or.inr (by omega))]
  rfl

theorem findStartOfYear_overflows {y : Int} (hy : 887566 ≤ y) :
    findStartOfYear lp64 (y + 1) = none := by
  unfold findStartOfYear
  rw [Int.add_sub_cancel]
  cases hyear : lp64.int y with
  | none => rfl
  | some year =>
    have hsame : y = year := Option.some.inj (Yields.int y _ hyear)
    subst hsame
    have hmolad := moladOfMetonicCycle_overflows (c := y.tdiv 19)
      (by rw [Int.tdiv_eq_ediv_of_nonneg (by omega)]; omega)
    simp only [Option.bind_eq_bind, Option.bind_some, hmolad]
    rfl

theorem jewishToSdn_overflows (hvalid : jewish.Valid d) (hyear : 0 ≤ d.year)
    (hlast : 887566 ≤ if d.month < 3 then d.year else d.year + 1) :
    jewishToSdn lp64 (jewishDate d).1 (jewishDate d).2.1 (jewishDate d).2.2 = none := by
  have hday := jewish_day_range hvalid
  show jewishToSdn lp64 (d.year + 1) (jewishMonth (jewishLeap d.year) d.month) d.day = none
  unfold jewishToSdn
  rw [if_neg (by omega)]
  by_cases hearly : d.month < 3
  · rw [if_pos hearly] at hlast
    rw [jewishMonth_first _ hearly, findStartOfYear_overflows hlast]
    by_cases hkislev : d.month = 2
    · rw [if_neg (by omega), if_pos (by omega)]
      rfl
    · rw [if_pos (by omega)]
      rfl
  · rw [if_neg hearly] at hlast
    have hmonth : 4 ≤ jewishMonth (jewishLeap d.year) d.month := by
      unfold jewishMonth
      split_ifs <;> omega
    rw [if_neg (by omega), if_neg (by omega)]
    cases hnext : lp64.int (d.year + 1 + 1) with
    | none => rfl
    | some next =>
      have hsame : d.year + 1 + 1 = next := Option.some.inj (Yields.int _ _ hnext)
      rw [← hsame, Option.bind_eq_bind, Option.bind_some, findStartOfYear_overflows hlast]
      rfl

theorem jewish_roundTrips (sdn : Int) :
    RoundTrips (sdnToJewish lp64) (jewishToSdn lp64) sdn ↔
      sdn ≤ 324528363 ∨ jewishSdnMax < sdn := by
  have hfirst : jewish.start 887565 + ((jewish.lengths 887565).take 3).sum = 324528364 := by
    decide
  have hzero : jewish.start 0 + ((jewish.lengths 0).take 0).sum = 347998 := by decide
  have hyear : ∀ d, jewish.Valid d → 347997 < jewish.dayNumber d → 0 ≤ d.year := by
    intro d hvalid hlo
    have hbehind := mt (hvalid.lt_iff 0 0).mpr (by omega)
    omega
  have hlow : ∀ sdn, sdn ≤ 347997 → sdnToJewish lp64 sdn = some (0, 0, 0) :=
    fun sdn h => if_pos (Or.inl h)
  have hhigh : ∀ sdn, jewishSdnMax < sdn → sdnToJewish lp64 sdn = some (0, 0, 0) :=
    fun sdn h => if_pos (Or.inr h)
  refine roundTrips_of jewish jewishDate (by decide) (fun _ => rfl) hlow hhigh ?_ ?_ ?_ sdn
  · intro sdn date hpos hmax hrun
    obtain ⟨date', hrun', d, rfl, hvalid, hnumber⟩ :=
      sdnToJewish_spec lp64_exactTo (by decide) hpos hmax
    rw [hrun] at hrun'
    exact ⟨d, Option.some.inj hrun', hvalid, hnumber⟩
  · intro sdn hpos hlast
    obtain ⟨date, hrun, d, rfl, hvalid, hnumber⟩ :=
      sdnToJewish_spec lp64_exactTo (by decide) hpos (by omega)
    have hbefore := (hvalid.lt_iff 887565 3).mp (by omega)
    have hfirstYear := hyear d hvalid (by omega)
    refine ⟨d, hrun, ?_⟩
    rw [jewishToSdn_spec lp64_exactTo (by decide) hvalid (by omega) (by split_ifs <;> omega),
      hnumber]
  · intro d hvalid hlast
    have hbehind := mt (hvalid.lt_iff 887565 3).mpr (by omega)
    rw [jewishToSdn_overflows hvalid (hyear d hvalid (by omega)) (by split_ifs <;> omega)]
    exact (Option.some_ne_none _).symm

/-- For which days no computation of a conversion and of its inverse overflows or is cut. -/
theorem roundTrips_iff (sdn : Int) :
    (RoundTrips (sdnToGregorian lp64) (gregorianToSdn lp64) sdn ↔
        sdn ≤ 536874430 ∨ 2305843009213661906 < sdn) ∧
      (RoundTrips (sdnToJulian lp64) (julianToSdn lp64) sdn ↔
        sdn ≤ 536839030 ∨ 784368370349 < sdn) ∧
      (RoundTrips (sdnToJewish lp64) (jewishToSdn lp64) sdn ↔
        sdn ≤ 324528363 ∨ jewishSdnMax < sdn) :=
  ⟨gregorian_roundTrips sdn, julian_roundTrips sdn, jewish_roundTrips sdn⟩

/-- The first day that fails in the Gregorian calendar, the first of March of the year 1465200. -/
theorem firstOfMarch_overflows :
    sdnToGregorian lp64 536874431 = some (1465200, 3, 1) ∧
      gregorianToSdn lp64 1465200 3 1 = none ∧
      ¬ RoundTrips (sdnToGregorian lp64) (gregorianToSdn lp64) 536874431 := by
  have hdate : sdnToGregorian lp64 536874431 = some (1465200, 3, 1) := by decide
  have hback : gregorianToSdn lp64 1465200 3 1 = none := by decide
  refine ⟨hdate, hback, ?_⟩
  rintro (hzero | ⟨date, hrun, hsdn⟩)
  · rw [hdate] at hzero
    exact absurd hzero (by decide)
  · rw [hdate] at hrun
    cases hrun
    rw [hback] at hsdn
    cases hsdn

end Php53.Calendar
