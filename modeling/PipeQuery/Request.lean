import PipeQuery.Filter
import PipeQuery.SortedMap

/-!
Search requests: what a query asks for, in the form that a search engine takes.
-/
namespace PipeQuery

inductive SortDirection where
  | ascending
  | descending
  deriving DecidableEq, Repr

/-- A direction as it is written in a query, in short or in full. The case does not matter. -/
def SortDirection.ofText? (text : String) : Option SortDirection :=
  let lower := text.toList.map Char.toLower
  if lower = "asc".toList ∨ lower = "ascending".toList then some .ascending
  else if lower = "desc".toList ∨ lower = "descending".toList then some .descending
  else none

structure SortKey where
  order : UInt32
  direction : SortDirection
  deriving DecidableEq, Repr

/-- What the values of a column have to match, and may not match. -/
structure ColumnFilter where
  includes : Option String := none
  excludes : Option String := none
  deriving DecidableEq, Repr

structure Column where
  id : String
  name : String
  expression : String
  sort : Option SortKey := none
  group : Option UInt32 := none
  filter : Option ColumnFilter := none
  visible : Bool
  /-- The column was not asked for by name. -/
  special : Bool
  deriving DecidableEq, Repr

structure Window where
  timeField : String
  size : String
  advance : String
  function : Option String := none
  deriving DecidableEq, Repr

/-- A visualisation with the columns that its parameters stand for. -/
structure Visual where
  type : String
  params : SortedMap
  deriving DecidableEq, Repr

structure Table where
  columns : List Column := []
  window : Option Window := none
  valueFilter : Option Operator := none
  aggregateFilter : Option Operator := none
  maxResults : List UInt64 := []
  extractValues : Bool := false
  visual : Option Visual := none
  deriving DecidableEq, Repr

namespace Table

def column? (t : Table) (name : String) : Option Column := t.columns.find? (·.name == name)

def visibleColumns (t : Table) : List Column := t.columns.filter (·.visible)

end Table

inductive ResultStyle where
  | table
  | visual
  deriving DecidableEq, Repr

structure ResultRequest where
  componentId : String
  mappings : List Table
  style : ResultStyle
  deriving DecidableEq, Repr

structure Param where
  key : String
  value : String
  deriving DecidableEq, Repr

structure TimeRange where
  name : Option String := none
  start : Option String := none
  stop : Option String := none
  deriving DecidableEq, Repr

structure Query where
  dataSource : DocRef
  expression : Operator := {}
  params : List Param := []
  timeRange : Option TimeRange := none
  deriving DecidableEq, Repr

/-- What the sender of a query adds to it. -/
structure BaseRequest where
  key : Option String := none
  params : List Param := []
  timeRange : Option TimeRange := none
  deriving DecidableEq, Repr

def BaseRequest.param? (r : BaseRequest) (key : String) : Option String :=
  (r.params.find? (·.key == key)).map (·.value)

structure SearchRequest where
  key : Option String := none
  query : Query
  results : List ResultRequest
  deriving DecidableEq, Repr

/-- The table of the first plain result. -/
def SearchRequest.table? (r : SearchRequest) : Option Table :=
  (r.results.find? (·.style == .table)).bind (·.mappings.head?)

end PipeQuery
