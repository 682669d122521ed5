import Php53.Calendar.Arith

/-!
# Jewish — `SdnToJewish` and `JewishToSdn`
-/

namespace Php53.Calendar

def halakimPerDay : Int := 25920
def halakimPerLunarCycle : Int := 765433
def halakimPerMetonicCycle : Int := 179876755
def jewishSdnOffset : Int := 347997
def jewishSdnMax : Int := 324542846
def newMoonOfCreation : Int := 31524
def noon : Int := 19440
def am3h11m20 : Int := 9924
def am9h32m43 : Int := 16789

def monthsPerYear : List Int :=
  [12, 12, 13, 12, 12, 13, 12, 13, 12, 12, 13, 12, 12, 13, 12, 12, 13, 12, 13]

def yearOffset : List Int :=
  [0, 12, 24, 37, 49, 61, 74, 86, 99, 111, 123, 136, 148, 160, 173, 185, 197, 210, 222]

/-- `table[i]`; there is no element outside of the table. -/
def item (table : List Int) (i : Int) : Option Int := if 0 ≤ i then table[i.toNat]? else none

def tishri1 (A : Arith) (metonicYear moladDay moladHalakim : Int) : Option Int := do
  let dow ← A.int (moladDay.tmod 7)
  let leapYear := metonicYear ∈ [2, 5, 7, 10, 13, 16, 18]
  let lastWasLeapYear := metonicYear ∈ [3, 6, 8, 11, 14, 17, 0]
  let (tishri1, dow) ←
    (if moladHalakim ≥ noon ∨ (¬ leapYear ∧ dow = 2 ∧ moladHalakim ≥ am3h11m20) ∨
        (lastWasLeapYear ∧ dow = 1 ∧ moladHalakim ≥ am9h32m43) then do
      let tishri1 ← A.long (moladDay + 1)
      let dow ← A.int (dow + 1)
      pure (tishri1, if dow = 7 then 0 else dow)
    else pure (moladDay, dow))
  if dow = 3 ∨ dow = 5 ∨ dow = 0 then A.long (tishri1 + 1) else pure tishri1

/-- `moladHalakim += amount; moladDay += moladHalakim / HALAKIM_PER_DAY;` and the remainder -/
def advance (A : Arith) (moladDay moladHalakim amount : Int) : Option (Int × Int) := do
  let moladHalakim ← A.long (moladHalakim + amount)
  let moladDay ← A.long (moladDay + moladHalakim.tdiv halakimPerDay)
  pure (moladDay, moladHalakim.tmod halakimPerDay)

/-- `MoladOfMetonicCycle`; the factors are the low and the high 16 bits of the halakim of a
    cycle. -/
def moladOfMetonicCycle (A : Arith) (metonicCycle : Int) : Option (Int × Int) := do
  let low ← A.int (metonicCycle * (halakimPerMetonicCycle.toNat &&& 0xFFFF : Nat))
  let r1 := A.ulong (newMoonOfCreation + A.ulong low)
  let r2 := r1 >>> 16
  let high ← A.int (metonicCycle * (halakimPerMetonicCycle.toNat >>> 16 &&& 0xFFFF : Nat))
  let r2 := A.ulong (r2 + A.ulong high)
  let d2 := r2 / halakimPerDay.toNat
  let r2 := A.ulong (r2 - A.ulong (d2 * halakimPerDay))
  let r1 := A.ulong (r2 <<< 16 : Nat) ||| (r1 &&& 0xFFFF)
  let d1 := r1 / halakimPerDay.toNat
  let r1 := A.ulong (r1 - A.ulong (d1 * halakimPerDay))
  let moladDay ← A.long (A.ulong (d2 <<< 16 : Nat) ||| d1 : Nat)
  let moladHalakim ← A.long r1
  pure (moladDay, moladHalakim)

/-- `while (moladDay < inputDay - 6940 + 310)`, for at most `n` rounds. -/
def cycleLoop (A : Arith) (limit : Int) :
    Nat → Int → Int → Int → Option (Int × Int × Int)
  | n, metonicCycle, moladDay, moladHalakim =>
    if moladDay < limit then
      match n with
      | 0 => none
      | n + 1 => do
        let metonicCycle ← A.int (metonicCycle + 1)
        let (moladDay, moladHalakim) ← advance A moladDay moladHalakim halakimPerMetonicCycle
        cycleLoop A limit n metonicCycle moladDay moladHalakim
    else pure (metonicCycle, moladDay, moladHalakim)

/-- `for (; metonicYear < 18; metonicYear++)`, `n` years before the last one. -/
def yearLoop (A : Arith) (inputDay : Int) : Nat → Int → Int → Int → Option (Int × Int × Int)
  | 0, metonicYear, moladDay, moladHalakim => pure (metonicYear, moladDay, moladHalakim)
  | n + 1, metonicYear, moladDay, moladHalakim => do
    let limit ← A.long (inputDay - 74)
    if moladDay > limit then pure (metonicYear, moladDay, moladHalakim)
    else
      let months ← item monthsPerYear metonicYear
      let amount ← A.int (halakimPerLunarCycle * months)
      let (moladDay, moladHalakim) ← advance A moladDay moladHalakim amount
      let metonicYear ← A.int (metonicYear + 1)
      yearLoop A inputDay n metonicYear moladDay moladHalakim

/-- `FindTishriMolad`: the metonic cycle and year, the day and the halakim of the molad. -/
def findTishriMolad (A : Arith) (inputDay : Int) : Option (Int × Int × Int × Int) := do
  let temp ← A.long (inputDay + 310)
  let metonicCycle ← A.int (temp.tdiv 6940)
  let (moladDay, moladHalakim) ← moladOfMetonicCycle A metonicCycle
  let limit ← A.long (inputDay - 6940)
  let limit ← A.long (limit + 310)
  let (metonicCycle, moladDay, moladHalakim) ←
    cycleLoop A limit (limit - moladDay).toNat metonicCycle moladDay moladHalakim
  let (metonicYear, moladDay, moladHalakim) ← yearLoop A inputDay 18 0 moladDay moladHalakim
  pure (metonicCycle, metonicYear, moladDay, moladHalakim)

/-- `FindStartOfYear`: the metonic year, the day and the halakim of the molad, and Tishri 1. -/
def findStartOfYear (A : Arith) (year : Int) : Option (Int × Int × Int × Int) := do
  let year ← A.int (year - 1)
  let metonicYear := year.tmod 19
  let (moladDay, moladHalakim) ← moladOfMetonicCycle A (year.tdiv 19)
  let months ← item yearOffset metonicYear
  let amount ← A.int (halakimPerLunarCycle * months)
  let (moladDay, moladHalakim) ← advance A moladDay moladHalakim amount
  let tishri ← tishri1 A metonicYear moladDay moladHalakim
  let tishri ← A.int tishri
  pure (metonicYear, moladDay, moladHalakim, tishri)

def tishri1After (A : Arith) (metonicYear moladDay moladHalakim : Int) : Option Int := do
  let months ← item monthsPerYear metonicYear
  let amount ← A.int (halakimPerLunarCycle * months)
  let (moladDay, moladHalakim) ← advance A moladDay moladHalakim amount
  let next ← A.int (metonicYear + 1)
  let tishri ← tishri1 A (next.tmod 19) moladDay moladHalakim
  A.int tishri

/-- `inputDay - tishri1 + k`, as an `int` -/
def dayFrom (A : Arith) (inputDay tishri k : Int) : Option Int := do
  let day ← A.long (inputDay - tishri)
  let day ← A.long (day + k)
  A.int day

/-- The ladder of `if (*pDay > 0) return; (*pMonth)--; (*pDay) += n;` -/
def descend (A : Arith) : List Int → Int → Int → Option (Int × Int)
  | [], month, day => pure (month, day)
  | n :: ns, month, day =>
    if day > 0 then pure (month, day)
    else do
      let month ← A.int (month - 1)
      let day ← A.int (day + n)
      descend A ns month day

/-- The end of `SdnToJewish`: Heshvan or Kislev. -/
def heshvanOrKislev (A : Arith) (year inputDay tishri tishriAfter : Int) :
    Option (Int × Int × Int) := do
  let yearLength ← A.int (tishriAfter - tishri)
  let day ← A.long (inputDay - tishri)
  let day ← A.long (day - 29)
  let heshvan := if yearLength = 355 ∨ yearLength = 385 then 30 else 29
  if day ≤ heshvan then do
    let day ← A.int day
    pure (year, 2, day)
  else do
    let day ← A.long (day - heshvan)
    let day ← A.int day
    pure (year, 3, day)

/-- It found Tishri 1 at the start of the year. -/
def fromStart (A : Arith) (inputDay metonicCycle metonicYear moladDay moladHalakim tishri : Int) :
    Option (Int × Int × Int) := do
  let year ← A.int (metonicCycle * 19)
  let year ← A.int (year + metonicYear)
  let year ← A.int (year + 1)
  let second ← A.int (tishri + 59)
  if inputDay < second then do
    let first ← A.int (tishri + 30)
    if inputDay < first then do
      let day ← dayFrom A inputDay tishri 1
      pure (year, 1, day)
    else do
      let day ← dayFrom A inputDay tishri (-29)
      pure (year, 2, day)
  else do
    let after ← tishri1After A metonicYear moladDay moladHalakim
    heshvanOrKislev A year inputDay tishri after

/-- One of the last 6 months of the year: the month and what is added to its day. -/
def lateMonths (A : Arith) (inputDay tishri : Int) : Option (Int × Int) := do
  let elul ← A.int (tishri - 30)
  if inputDay > elul then pure (13, 30)
  else
    let av ← A.int (tishri - 60)
    if inputDay > av then pure (12, 60)
    else
      let tammuz ← A.int (tishri - 89)
      if inputDay > tammuz then pure (11, 89)
      else
        let sivan ← A.int (tishri - 119)
        if inputDay > sivan then pure (10, 119)
        else
          let iyyar ← A.int (tishri - 148)
          if inputDay > iyyar then pure (9, 148) else pure (8, 178)

/-- It found Tishri 1 at the end of the year. -/
def fromEnd (A : Arith) (inputDay metonicCycle metonicYear moladDay tishri : Int) :
    Option (Int × Int × Int) := do
  let year ← A.int (metonicCycle * 19)
  let year ← A.int (year + metonicYear)
  let nisan ← A.int (tishri - 177)
  if inputDay ≥ nisan then do
    let (month, k) ← lateMonths A inputDay tishri
    let day ← dayFrom A inputDay tishri k
    pure (year, month, day)
  else do
    let index ← A.int (year - 1)
    let months ← item monthsPerYear (index.tmod 19)
    let day ← dayFrom A inputDay tishri 207
    let (month, day) ←
      (if months = 13 then descend A [30, 30, 29] 7 day else descend A [30, 29] 6 day)
    if day > 0 then pure (year, month, day)
    else do
      let search ← A.long (moladDay - 365)
      let (_, metonicYear, moladDay, moladHalakim) ← findTishriMolad A search
      let start ← tishri1 A metonicYear moladDay moladHalakim
      let start ← A.int start
      heshvanOrKislev A year inputDay start tishri

def sdnToJewish (A : Arith) (sdn : Int) : Option (Int × Int × Int) := do
  if sdn ≤ jewishSdnOffset ∨ sdn > jewishSdnMax then pure (0, 0, 0)
  else
    let inputDay ← A.long (sdn - jewishSdnOffset)
    let (metonicCycle, metonicYear, moladDay, moladHalakim) ← findTishriMolad A inputDay
    let tishri ← tishri1 A metonicYear moladDay moladHalakim
    let tishri ← A.int tishri
    if inputDay ≥ tishri then
      fromStart A inputDay metonicCycle metonicYear moladDay moladHalakim tishri
    else fromEnd A inputDay metonicCycle metonicYear moladDay tishri

/-- `int + day + k`, the sum that `JewishToSdn` ends every case with. -/
def sdnFrom (A : Arith) (tishri day k : Int) : Option Int := do
  let sum ← A.int (tishri + day)
  A.int (sum + k)

def sdnFromAdar (A : Arith) (tishri day adar k : Int) : Option Int := do
  let sum ← A.int (tishri + day)
  let sum ← A.int (sum - adar)
  A.int (sum + k)

def jewishToSdn (A : Arith) (year month day : Int) : Option Int := do
  if year ≤ 0 ∨ day ≤ 0 ∨ day > 30 then pure 0
  else if month = 1 ∨ month = 2 then
    let (_, _, _, tishri) ← findStartOfYear A year
    let sdn ← sdnFrom A tishri day (if month = 1 then -1 else 29)
    A.long (sdn + jewishSdnOffset)
  else if month = 3 then
    let (metonicYear, moladDay, moladHalakim, tishri) ← findStartOfYear A year
    let after ← tishri1After A metonicYear moladDay moladHalakim
    let yearLength ← A.int (after - tishri)
    let sdn ← sdnFrom A tishri day (if yearLength = 355 ∨ yearLength = 385 then 59 else 58)
    A.long (sdn + jewishSdnOffset)
  else
    let next ← A.int (year + 1)
    let (_, _, _, after) ← findStartOfYear A next
    if month = 4 ∨ month = 5 ∨ month = 6 then
      let index ← A.int (year - 1)
      let months ← item monthsPerYear (index.tmod 19)
      let adar := if months = 12 then 29 else 59
      let sdn ← sdnFromAdar A after day adar
        (if month = 4 then -237 else if month = 5 then -208 else -178)
      A.long (sdn + jewishSdnOffset)
    else
      match month with
      | 7 => do
        let sdn ← sdnFrom A after day (-207)
        A.long (sdn + jewishSdnOffset)
      | 8 => do
        let sdn ← sdnFrom A after day (-178)
        A.long (sdn + jewishSdnOffset)
      | 9 => do
        let sdn ← sdnFrom A after day (-148)
        A.long (sdn + jewishSdnOffset)
      | 10 => do
        let sdn ← sdnFrom A after day (-119)
        A.long (sdn + jewishSdnOffset)
      | 11 => do
        let sdn ← sdnFrom A after day (-89)
        A.long (sdn + jewishSdnOffset)
      | 12 => do
        let sdn ← sdnFrom A after day (-60)
        A.long (sdn + jewishSdnOffset)
      | 13 => do
        let sdn ← sdnFrom A after day (-30)
        A.long (sdn + jewishSdnOffset)
      | _ => pure 0

end Php53.Calendar
