import PipeQuery.Time.Calendar

/-!
Instants in universal time, to the nanosecond. A leap second is the second before it with a
thousand million nanoseconds more.
-/
namespace PipeQuery

/-- Seconds since the start of 1970, and nanoseconds within the second. -/
structure Instant where
  seconds : Int
  nanos : Nat
  deriving DecidableEq, Repr

namespace Instant

def secondsPerDay : Int := 86400

def nanosPerSecond : Nat := 1000000000

def firstSecond : Int := Calendar.firstDay * secondsPerDay

def lastSecond : Int := Calendar.lastDay * secondsPerDay + 86399

/-- The instant at a second and nanosecond, when the calendar has it. -/
def ofParts? (seconds : Int) (nanos : Nat) : Option Instant :=
  if firstSecond ≤ seconds ∧ seconds ≤ lastSecond then some ⟨seconds, nanos⟩ else none

def day (t : Instant) : Int := t.seconds / secondsPerDay

def secondOfDay (t : Instant) : Int := t.seconds % secondsPerDay

def startOfDay (day : Int) : Instant := ⟨day * secondsPerDay, 0⟩

/-- The instant `seconds` and `nanos` after the start of a second, where less than two seconds are
in the nanoseconds. -/
def carry? (seconds : Int) (nanos : Int) : Option Instant :=
  let n : Int := nanosPerSecond
  if nanos < 0 then ofParts? (seconds - 1) (nanos + n).toNat
  else if n ≤ nanos then ofParts? (seconds + 1) (nanos - n).toNat
  else ofParts? seconds nanos.toNat

/-- The instant some nanoseconds later, or earlier. A change that stays within a leap second keeps
it; leaving it for a later instant starts from the second before it, and leaving it for an earlier
instant starts from the second after it. -/
def add? (t : Instant) (delta : Int) : Option Instant :=
  let n : Int := nanosPerSecond
  let whole := delta.tdiv n
  let part := delta.tmod n
  if nanosPerSecond ≤ t.nanos then
    if 0 < whole ∨ (0 < part ∧ 2 * n ≤ t.nanos + part) then
      carry? (t.seconds + whole) (t.nanos - n + part)
    else if whole < 0 then carry? (t.seconds + 1 + whole) (t.nanos - n + part)
    else some ⟨t.seconds, (t.nanos + part).toNat⟩
  else carry? (t.seconds + whole) (t.nanos + part)

/-- The instant some months later, or earlier, at the same time of day. -/
def addMonths? (t : Instant) (months : Int) : Option Instant := do
  let date ← Calendar.addMonths? (Calendar.dateOf t.day) months
  return ⟨Calendar.dayNumber date * secondsPerDay + t.secondOfDay, t.nanos⟩

end Instant

end PipeQuery
