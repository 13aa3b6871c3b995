import PipeQuery.Error
import PipeQuery.Time.Instant

/-!
Date-time literals: a date, a time of day to the second, a fraction and a zone. A literal with a
zone is read in full. One that cannot be read so is read once more without a zone, as universal
time, and this second reading says what is wrong with it.
-/
namespace PipeQuery.DateLiteral

def natOfDigits (cs : List Char) : Nat :=
  cs.foldl (fun n c => n * 10 + (c.toNat - '0'.toNat)) 0

def field (width : Nat) (cs : List Char) : Except DateTextError (Nat × List Char) :=
  let digits := (cs.take width).takeWhile Char.isDigit
  if digits.isEmpty then .error .invalid else .ok (natOfDigits digits, cs.drop digits.length)

def bounded (width lo hi : Nat) (cs : List Char) : Except DateTextError (Nat × List Char) := do
  let (n, rest) ← field width cs
  if lo ≤ n ∧ n ≤ hi then return (n, rest) else throw .outOfRange

def skip (separator : Char) : List Char → Except DateTextError (List Char)
  | c :: cs => if c = separator then .ok cs else .error .invalid
  | [] => .error .invalid

/-- A date and a time of day. The second 60 is a leap second. -/
structure Civil where
  date : Date
  hour : Nat
  minute : Nat
  second : Nat
  nanos : Nat
  deriving DecidableEq, Repr

def Civil.toInstant (c : Civil) : Instant :=
  let start : Int := Calendar.dayNumber c.date * Instant.secondsPerDay + c.hour * 3600 + c.minute * 60
  if c.second = 60 then ⟨start + 59, Instant.nanosPerSecond + c.nanos⟩
  else ⟨start + c.second, c.nanos⟩

def Civil.isValid (c : Civil) : Bool :=
  c.date.day ≤ Calendar.monthLength c.date.year c.date.month

def fraction : List Char → Except DateTextError (Nat × List Char)
  | '.' :: cs =>
    let digits := (cs.take 9).takeWhile Char.isDigit
    if digits.isEmpty then .error .invalid
    else .ok (natOfDigits digits * Nat.pow 10 (9 - digits.length), cs.drop digits.length)
  | cs => .ok (0, cs)

def civil (cs : List Char) : Except DateTextError (Civil × List Char) := do
  let (year, cs) ← field 4 cs
  let (month, cs) ← bounded 2 1 12 (← skip '-' cs)
  let (day, cs) ← bounded 2 1 31 (← skip '-' cs)
  let (hour, cs) ← bounded 2 0 23 (← skip 'T' cs)
  let (minute, cs) ← bounded 2 0 59 (← skip ':' cs)
  let (second, cs) ← bounded 2 0 60 (← skip ':' cs)
  let (nanos, cs) ← fraction cs
  return (⟨⟨year, month, day⟩, hour, minute, second, nanos⟩, cs)

/-- The seconds that a zone is ahead of universal time. -/
def zone? : List Char → Option Int
  | ['Z'] => some 0
  | [sign, h₁, h₂, ':', m₁, m₂] =>
    let hours := natOfDigits [h₁, h₂]
    let minutes := natOfDigits [m₁, m₂]
    if [h₁, h₂, m₁, m₂].all Char.isDigit ∧ hours ≤ 23 ∧ minutes ≤ 59 then
      let seconds : Int := hours * 3600 + minutes * 60
      if sign = '+' then some seconds else if sign = '-' then some (-seconds) else none
    else none
  | _ => none

def zoned? (cs : List Char) : Option Instant :=
  match civil cs with
  | .error _ => none
  | .ok (c, rest) => do
    let ahead ← zone? rest
    if c.isValid then
      let t := c.toInstant
      return ⟨t.seconds - ahead, t.nanos⟩
    else none

def unzoned (cs : List Char) : Except DateTextError Instant := do
  let (c, rest) ← civil cs
  if rest.isEmpty then
    if c.isValid then return c.toInstant else throw .outOfRange
  else throw .trailing

def read (text : String) : Except DateError Instant :=
  match zoned? text.toList with
  | some t => .ok t
  | none => (unzoned text.toList).mapError (.invalidDate text)

end PipeQuery.DateLiteral
