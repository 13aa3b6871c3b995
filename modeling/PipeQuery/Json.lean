/-!
JSON values. Objects keep their fields in the order in which they were written, repeated keys
included, and numbers keep the difference between integers and the rest.
-/
namespace PipeQuery

inductive Json where
  | null
  | bool (b : Bool)
  /-- A number written without fraction and exponent. -/
  | int (n : Int)
  /-- Any other number, as it was written. -/
  | decimal (written : String)
  | str (s : String)
  /-- A string literal whose escapes do not form a text. No reader of texts accepts it. -/
  | badStr
  | arr (items : List Json)
  | obj (fields : List (String × Json))
  /-- An object with a key whose escapes do not form a text. No reader of records accepts it. -/
  | badObj
  deriving Repr, Inhabited

namespace Json

/-- An object of the fields that have a value. -/
def object (fields : List (Option (String × Json))) : Json := .obj (fields.filterMap id)

def entry (key : String) (value : Json) : Option (String × Json) := some (key, value)

/-- A field that is left out when it has no value. -/
def optional {α : Type} (key : String) (toJson : α → Json) (value : Option α) :
    Option (String × Json) :=
  value.map fun a => (key, toJson a)

def unlessEmpty {α : Type} (key : String) (toJson : α → Json) (items : List α) :
    Option (String × Json) :=
  if items.isEmpty then none else some (key, .arr (items.map toJson))

def get? (key : String) : Json → Option Json
  | .obj fields => fields.lookup key
  | _ => none

end Json

end PipeQuery
