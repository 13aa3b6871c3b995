import PipeQuery.Time.Instant

/-!
The functions that a date expression may start from. Each gives the start of the period around an
instant.
-/
namespace PipeQuery

inductive DatePoint where
  | now
  | second
  | minute
  | hour
  | day
  | week
  | month
  | year
  deriving DecidableEq, Repr

namespace DatePoint

def all : List DatePoint := [.now, .second, .minute, .hour, .day, .week, .month, .year]

def function : DatePoint → String
  | .now => "now()"
  | .second => "second()"
  | .minute => "minute()"
  | .hour => "hour()"
  | .day => "day()"
  | .week => "week()"
  | .month => "month()"
  | .year => "year()"

/-- The point that a call names. The text has to agree in every character. -/
def ofFunction? (text : String) : Option DatePoint :=
  all.find? (·.function == text)

/-- The start of the period around an instant. A week may start before the first day of the
calendar, and then there is none. -/
def resolve? (p : DatePoint) (t : Instant) : Option Instant :=
  let date := Calendar.dateOf t.day
  match p with
  | .now => some t
  | .second => some ⟨t.seconds, 0⟩
  | .minute => some ⟨t.seconds - t.seconds % 60, 0⟩
  | .hour => some ⟨t.seconds - t.seconds % 3600, 0⟩
  | .day => some (.startOfDay t.day)
  | .week =>
    let monday := t.day - Calendar.weekday t.day
    if Calendar.firstDay ≤ monday then some (.startOfDay monday) else none
  | .month => some (.startOfDay (Calendar.dayNumber ⟨date.year, date.month, 1⟩))
  | .year => some (.startOfDay (Calendar.dayNumber ⟨date.year, 1, 1⟩))

end DatePoint

end PipeQuery
