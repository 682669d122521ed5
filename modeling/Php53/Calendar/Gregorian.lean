import Php53.Calendar.Arith
import Php53.Reasoning.Calendar

/-!
# Gregorian — `SdnToGregorian` and `GregorianToSdn`
-/

namespace Php53.Calendar

open Reasoning

def gregorSdnOffset : Int := 32045
def daysPer5Months : Int := 153
def daysPer4Years : Int := 1461
def daysPer400Years : Int := 146097

/-- The end of `SdnToGregorian` and of `SdnToJulian`, from the day of the year on. -/
def dateOfDay (A : Arith) (year dayOfYear : Int) : Option (Int × Int × Int) := do
  let temp ← A.int (dayOfYear * 5)
  let temp ← A.int (temp - 3)
  let month ← A.int (temp.tdiv daysPer5Months)
  let day ← A.long ((temp.tmod daysPer5Months).tdiv 5 + 1)
  let day ← A.int day
  let (year, month) ←
    (if month < 10 then do
      let month ← A.int (month + 3)
      pure (year, month)
    else do
      let year ← A.int (year + 1)
      let month ← A.int (month - 9)
      pure (year, month))
  let year ← A.int (year - 4800)
  let year ← (if year ≤ 0 then A.int (year - 1) else pure year)
  pure (year, month, day)

def sdnToGregorian (A : Arith) (sdn : Int) : Option (Int × Int × Int) := do
  if sdn ≤ 0 ∨ sdn > (longMax - 4 * gregorSdnOffset).tdiv 4 then pure (0, 0, 0)
  else
    let temp ← A.long (sdn + gregorSdnOffset)
    let temp ← A.long (temp * 4)
    let temp ← A.long (temp - 1)
    let century ← A.int (temp.tdiv daysPer400Years)
    let temp ← A.long ((temp.tmod daysPer400Years).tdiv 4 * 4)
    let temp ← A.long (temp + 3)
    let hundreds ← A.int (century * 100)
    let year ← A.long (hundreds + temp.tdiv daysPer4Years)
    let year ← A.int year
    let dayOfYear ← A.long ((temp.tmod daysPer4Years).tdiv 4 + 1)
    let dayOfYear ← A.int dayOfYear
    dateOfDay A year dayOfYear

/-- The adjustment of year and month in `GregorianToSdn` and `JulianToSdn`: the year begins in March
    and is counted from 4800 years before. -/
def marchYear (A : Arith) (inputYear inputMonth : Int) : Option (Int × Int) := do
  let year ← (if inputYear < 0 then A.int (inputYear + 4801) else A.int (inputYear + 4800))
  if inputMonth > 2 then do
    let month ← A.int (inputMonth - 3)
    pure (year, month)
  else do
    let month ← A.int (inputMonth + 9)
    let year ← A.int (year - 1)
    pure (year, month)

def gregorianToSdn (A : Arith) (inputYear inputMonth inputDay : Int) : Option Int := do
  if inputYear = 0 ∨ inputYear < -4714 ∨ inputMonth ≤ 0 ∨ inputMonth > 12 ∨ inputDay ≤ 0 ∨
      inputDay > 31 then pure 0
  else if inputYear = -4714 ∧ (inputMonth < 11 ∨ inputMonth = 11 ∧ inputDay < 25) then pure 0
  else
    let (year, month) ← marchYear A inputYear inputMonth
    let centuries ← A.int (year.tdiv 100 * daysPer400Years)
    let years ← A.int (year.tmod 100 * daysPer4Years)
    let sum ← A.int (centuries.tdiv 4 + years.tdiv 4)
    let months ← A.int (month * daysPer5Months)
    let months ← A.int (months + 2)
    let sum ← A.int (sum + months.tdiv 5)
    let sum ← A.int (sum + inputDay)
    A.int (sum - gregorSdnOffset)

example : sdnToGregorian lp64 2440588 = some (1970, 1, 1) := by decide
example : gregorianToSdn lp64 1970 1 1 = some 2440588 := by decide

end Php53.Calendar
