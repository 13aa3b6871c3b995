import PipeQuery.Group
import PipeQuery.Time.Literal
import PipeQuery.Time.Point

/-!
Date expressions: a point or a literal, and durations that are added or taken away. Without a
point or a literal the durations count from the reference time.
-/
namespace PipeQuery.DateExpression

/-- What a duration changes: an exact number of nanoseconds, or a number of months. -/
inductive Shift where
  | nanos (n : Nat)
  | months (n : Nat)
  deriving DecidableEq, Repr

def maxAmount : Nat := 9223372036854775807

/-- The greatest number of whole seconds in a duration of a fixed length. -/
def maxSeconds : Nat := maxAmount / 1000

def maxMonths : Nat := UInt32.size - 1

/-- A shift by whole seconds, which may be more than the arithmetic can hold. -/
def seconds (n : Nat) : Except (Failure DateError) Shift :=
  if n ≤ maxSeconds then .ok (.nanos (n * Instant.nanosPerSecond)) else .error .overflow

def months (n : Nat) : Except (Failure DateError) Shift :=
  if n ≤ maxMonths then .ok (.months n) else .error (.rejected .outOfRange)

def shiftOf (text : String) (amount : Nat) (unit : String) : Except (Failure DateError) Shift :=
  match unit with
  | "ns" => .ok (.nanos amount)
  | "ms" => .ok (.nanos (amount * 1000000))
  | "s" => seconds amount
  | "m" => seconds (amount * 60)
  | "h" => seconds (amount * 3600)
  | "d" => seconds (amount * 86400)
  | "w" => seconds (amount * 604800)
  | "M" => months amount
  | "y" => months (amount * 12)
  | _ => .error (.rejected (.invalidDuration text))

/-- The shift that a duration stands for. Its amount is in ASCII digits. -/
def readDuration (text : String) : Except (Failure DateError) Shift :=
  let digits := text.toList.takeWhile Char.isDigit
  let amount := DateLiteral.natOfDigits digits
  if digits.isEmpty || maxAmount < amount then .error (.rejected (.invalidDuration text))
  else shiftOf text amount (String.ofList (text.toList.drop digits.length))

def apply (t : Instant) (back : Bool) (shift : Shift) : Except (Failure DateError) Instant :=
  let signed (n : Nat) : Int := if back then -(n : Int) else n
  let result := match shift with
    | .nanos n => t.add? (signed n)
    | .months n => t.addMonths? (signed n)
  match result with
  | some t => .ok t
  | none => .error (.rejected .outOfRange)

def shiftBy (t : Instant) (back : Bool) (n : Node) : Except (Failure DateError) Instant := do
  if n.kind = .duration then apply t back (← readDuration n.text)
  else throw (.rejected .missingDuration)

/-- Moves an instant by the durations of a list of nodes. A duration without a sign is added. -/
def shiftAll (t : Instant) : List Node → Except (Failure DateError) Instant
  | [] => .ok t
  | n :: ns =>
    match n.kind with
    | .duration => do shiftAll (← shiftBy t false n) ns
    | .arith .add =>
      match ns with
      | [] => .error (.rejected .missingDuration)
      | d :: ns => do shiftAll (← shiftBy t false d) ns
    | .arith .subtract =>
      match ns with
      | [] => .error (.rejected .missingDuration)
      | d :: ns => do shiftAll (← shiftBy t true d) ns
    | _ => .error (.rejected (.unexpected n.text))

def callPoint (reference : Instant) (text : String) : Except (Failure DateError) Instant :=
  match DatePoint.ofFunction? text with
  | none => .error (.rejected (.unknownFunction text))
  | some p =>
    match p.resolve? reference with
    | some t => .ok t
    | none => .error .overflow

def read (reference : Instant) (nodes : List Node) : Except (Failure DateError) Instant :=
  match nodes with
  | [] => .error (.rejected .missing)
  | n :: ns =>
    match n with
    | .group (.function ..) source span _ => do
      shiftAll (← callPoint reference (Text.slice source span)) ns
    | .token t =>
      if t.kind = .dateTime then do
        shiftAll (← (DateLiteral.read t.slice).mapError .rejected) ns
      else shiftAll reference (n :: ns)
    | _ => shiftAll reference (n :: ns)

end PipeQuery.DateExpression
