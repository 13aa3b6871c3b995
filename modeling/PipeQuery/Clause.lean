/-!
The clauses of a query and the clauses that may stand before each of them.
-/
namespace PipeQuery

inductive Clause where
  /-- `from` names the data source. -/
  | source
  /-- `where` restricts the rows that are searched. -/
  | restrict
  /-- `eval` names an expression. -/
  | eval
  /-- `window` cuts time into windows. -/
  | window
  /-- `filter` restricts the rows by computed values. -/
  | filter
  /-- `sort` orders the rows. -/
  | sort
  /-- `group` groups the rows. -/
  | group
  /-- `having` restricts the groups. -/
  | having
  /-- `select` picks the columns. -/
  | select
  /-- `limit` bounds the number of results. -/
  | limit
  /-- `show` picks a visualisation. -/
  | present
  deriving DecidableEq, Repr

namespace Clause

def all : List Clause :=
  [.source, .restrict, .eval, .window, .filter, .sort, .group, .having, .select, .limit, .present]

def name : Clause → String
  | .source => "from"
  | .restrict => "where"
  | .eval => "eval"
  | .window => "window"
  | .filter => "filter"
  | .sort => "sort"
  | .group => "group"
  | .having => "having"
  | .select => "select"
  | .limit => "limit"
  | .present => "show"

def ofName? (name : String) : Option Clause :=
  all.find? (·.name == name)

/-- The clauses that may have been read when this one is reached. -/
def validAfter : Clause → List Clause
  | .source => []
  | .restrict => [.source]
  | .eval => [.source, .restrict, .eval, .window]
  | .window => [.source, .restrict, .eval]
  | .filter => [.source, .restrict, .eval, .window]
  | .sort => [.source, .restrict, .eval, .window, .filter, .group, .having]
  | .group => [.source, .restrict, .eval, .window, .filter, .sort, .group, .having]
  | .having => [.source, .restrict, .eval, .window, .filter, .sort, .group]
  | .select => [.source, .restrict, .eval, .window, .filter, .sort, .group, .having]
  | .limit => [.source, .restrict, .eval, .window, .filter, .sort, .group, .having, .select]
  | .present =>
    [.source, .restrict, .eval, .window, .filter, .sort, .group, .having, .select, .limit]

end Clause

end PipeQuery
