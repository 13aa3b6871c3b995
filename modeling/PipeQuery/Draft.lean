import PipeQuery.Bindings
import PipeQuery.Error
import PipeQuery.Request
import PipeQuery.Scalar

/-!
Drafts: what is known of a request while the clauses of its query are read.
-/
namespace PipeQuery

/-- A name that a `having` clause refers to, with the place of the clause. -/
structure HavingField where
  name : String
  place : Place
  deriving DecidableEq, Repr

/-- What the clauses so far have given. -/
structure Draft where
  evals : Evals := {}
  /-- The clauses so far, in order. -/
  consumed : List Clause := []
  source : Option DocRef := none
  expression : Option Operator := none
  table : Table := {}
  /-- The table of a visualisation. -/
  visual : Option Table := none
  sorts : Bindings SortKey := {}
  groups : Bindings UInt32 := {}
  /-- The number of `group` clauses. -/
  depth : Nat := 0
  /-- The names that have a column. -/
  added : List String := []
  having : List HavingField := []
  deriving DecidableEq, Repr

namespace Draft

/-- Sorts by a field. Its rank is the number of fields that are sorted by so far, also when it is one
of them. -/
def addSort (d : Draft) (field : String) (direction : SortDirection) : Draft :=
  { d with sorts := d.sorts.insert field ⟨UInt32.ofNat d.sorts.size, direction⟩ }

def addSorts (d : Draft) (keys : List (String × SortDirection)) : Draft :=
  keys.foldl (fun d (field, direction) => d.addSort field direction) d

/-- Groups by fields, one level below the groups so far. -/
def addGroups (d : Draft) (fields : List String) : Draft :=
  { d with
    groups := fields.foldl (fun groups field => groups.insert field (UInt32.ofNat d.depth)) d.groups
    depth := d.depth + 1 }

/-- Notes that a name has a column. -/
def note (d : Draft) (name : String) : Draft :=
  if d.added.contains name then d else { d with added := d.added ++ [name] }

def addColumn (d : Draft) (c : Column) : Draft :=
  { d with table := { d.table with columns := d.table.columns ++ [c] } }

end Draft

end PipeQuery
