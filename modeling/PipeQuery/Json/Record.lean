import PipeQuery.Json

/-!
Reading records from JSON. A record is an object, whose unknown keys are ignored and whose known
keys stand there once, or an array of the values in the order of the keys.
-/
namespace PipeQuery.Json

abbrev Fields := List (String × Json)

def distinctKeys (keys : List String) (fields : Fields) : Bool :=
  keys.all fun key => (fields.filter (·.1 == key)).length ≤ 1

def record? (keys : List String) : Json → Option Fields
  | .obj fields => if distinctKeys keys fields then some fields else none
  | .arr items => if items.length ≤ keys.length then some (keys.zip items) else none
  | _ => none

def string : Json → Option String
  | .str s => some s
  | _ => none

def boolean : Json → Option Bool
  | .bool b => some b
  | _ => none

def natBelow (bound : Nat) : Json → Option Nat
  | .int n => if 0 ≤ n ∧ n < bound then some n.toNat else none
  | _ => none

def uint32 (j : Json) : Option UInt32 := (natBelow UInt32.size j).map UInt32.ofNat

def uint64 (j : Json) : Option UInt64 := (natBelow UInt64.size j).map UInt64.ofNat

def list {α : Type} (item : Json → Option α) : Json → Option (List α)
  | .arr items => items.mapM item
  | _ => none

namespace Fields

variable {α : Type}

def required (fields : Fields) (key : String) (read : Json → Option α) : Option α :=
  (fields.lookup key).bind read

/-- The value of a field that may be left out or null. -/
def optional (fields : Fields) (key : String) (read : Json → Option α) : Option (Option α) :=
  match fields.lookup key with
  | none => some none
  | some .null => some none
  | some j => (read j).map some

/-- The items of a field that may be left out, but not null. -/
def listOrEmpty (fields : Fields) (key : String) (read : Json → Option α) : Option (List α) :=
  match fields.lookup key with
  | none => some []
  | some j => list read j

end Fields

end PipeQuery.Json
