import Php53.Calendar.Gregorian

/-!
# Julian — `SdnToJulian` and `JulianToSdn`
-/

namespace Php53.Calendar

def julianSdnOffset : Int := 32083

def sdnToJulian (A : Arith) (sdn : Int) : Option (Int × Int × Int) := do
  if sdn ≤ 0 then pure (0, 0, 0)
  else if sdn > (longMax - julianSdnOffset * 4 + 1).tdiv 4 ∨ sdn < longMin.tdiv 4 then
    pure (0, 0, 0)
  else
    let temp ← A.long (sdn * 4)
    let temp ← A.long (temp + (julianSdnOffset * 4 - 1))
    let yearl := temp.tdiv daysPer4Years
    if yearl > intMax ∨ yearl < intMin then pure (0, 0, 0)
    else
      let year ← A.int yearl
      let dayOfYear ← A.long ((temp.tmod daysPer4Years).tdiv 4 + 1)
      let dayOfYear ← A.int dayOfYear
      dateOfDay A year dayOfYear

def julianToSdn (A : Arith) (inputYear inputMonth inputDay : Int) : Option Int := do
  if inputYear = 0 ∨ inputYear < -4713 ∨ inputMonth ≤ 0 ∨ inputMonth > 12 ∨ inputDay ≤ 0 ∨
      inputDay > 31 then pure 0
  else if inputYear = -4713 ∧ inputMonth = 1 ∧ inputDay = 1 then pure 0
  else
    let (year, month) ← marchYear A inputYear inputMonth
    let years ← A.int (year * daysPer4Years)
    let months ← A.int (month * daysPer5Months)
    let months ← A.int (months + 2)
    let sum ← A.int (years.tdiv 4 + months.tdiv 5)
    let sum ← A.int (sum + inputDay)
    A.int (sum - julianSdnOffset)

example : sdnToJulian lp64 2440588 = some (1969, 12, 19) := by decide
example : julianToSdn lp64 1969 12 19 = some 2440588 := by decide

end Php53.Calendar
