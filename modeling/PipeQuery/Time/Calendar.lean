/-!
The proleptic Gregorian calendar. Days are counted from the first of January 1970, before which
the numbers are negative.
-/
namespace PipeQuery

/-- A day of the calendar. Months and days count from one. -/
structure Date where
  year : Int
  month : Nat
  day : Nat
  deriving DecidableEq, Repr

namespace Calendar

def isLeap (year : Int) : Bool :=
  year % 4 == 0 && (year % 100 != 0 || year % 400 == 0)

def monthLength (year : Int) (month : Nat) : Nat :=
  match month with
  | 2 => if isLeap year then 29 else 28
  | 4 | 6 | 9 | 11 => 30
  | _ => 31

/-- The number of days from the first of January of year one to that of the given year. -/
def daysBeforeYear (year : Int) : Int :=
  let y := year - 1
  365 * y + y / 4 - y / 100 + y / 400

def daysBeforeMonth (year : Int) : Nat → Nat
  | 0 => 0
  | 1 => 0
  | m + 2 => daysBeforeMonth year (m + 1) + monthLength year (m + 1)

def epoch : Int := 719162

def dayNumber (d : Date) : Int :=
  daysBeforeYear d.year + daysBeforeMonth d.year d.month + (d.day - 1) - epoch

/-- The year that has the day `n` days after the first of January of year one. The average length
of a year gives it up to one. -/
def yearOf (n : Int) : Int :=
  let guess := n * 400 / 146097 + 1
  if n < daysBeforeYear guess then guess - 1
  else if daysBeforeYear (guess + 1) ≤ n then guess + 1
  else guess

/-- The month among the first `m` that has a day, by its number in the year. -/
def monthOf (year : Int) (dayOfYear : Nat) : Nat → Nat
  | 0 => 1
  | 1 => 1
  | m + 2 => if daysBeforeMonth year (m + 2) ≤ dayOfYear then m + 2 else monthOf year dayOfYear (m + 1)

def dateOf (number : Int) : Date :=
  let n := number + epoch
  let year := yearOf n
  let dayOfYear := (n - daysBeforeYear year).toNat
  let month := monthOf year dayOfYear 12
  ⟨year, month, dayOfYear - daysBeforeMonth year month + 1⟩

/-- The number of the weekday, from Monday as zero. -/
def weekday (number : Int) : Int := (number + 3) % 7

def firstYear : Int := -262143

def lastYear : Int := 262142

def firstDay : Int := dayNumber ⟨firstYear, 1, 1⟩

def lastDay : Int := dayNumber ⟨lastYear, 12, 31⟩

/-- The day some months later, or earlier. When its month is too short it is the last of the month. -/
def addMonths? (d : Date) (months : Int) : Option Date :=
  let total := d.year * 12 + (d.month - 1) + months
  let year := total / 12
  let month := (total % 12).toNat + 1
  if firstYear ≤ year ∧ year ≤ lastYear then
    some ⟨year, month, min d.day (monthLength year month)⟩
  else none

end Calendar

end PipeQuery
