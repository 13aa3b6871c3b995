import PipeQuery.Text.Character
import PipeQuery.Token.Kind

/-!
The commands that may follow a pipe, and the clauses that they stand for.
-/
namespace PipeQuery

inductive Command where
  /-- A command that starts a clause. -/
  | restrict
  | filter
  /-- A connective that goes on with the condition before it. -/
  | logic (op : Logic)
  | eval
  /-- `table` picks the columns. -/
  | table
  | limit
  | sort
  | group
  | having
  deriving DecidableEq, Repr

namespace Command

def all : List Command :=
  [.restrict, .filter, .logic .and, .logic .or, .logic .not, .eval, .table, .limit, .sort, .group,
    .having]

def name : Command → String
  | .restrict => "where"
  | .filter => "filter"
  | .logic op => op.keyword
  | .eval => "eval"
  | .table => "table"
  | .limit => "limit"
  | .sort => "sort"
  | .group => "group"
  | .having => "having"

def ofName? (name : String) : Option Command :=
  all.find? fun c => Text.sameIgnoringCase c.name name

def clause? : Command → Option Clause
  | .restrict => some .restrict
  | .filter => some .filter
  | .logic _ => none
  | .eval => some .eval
  | .table => some .select
  | .limit => some .limit
  | .sort => some .sort
  | .group => some .group
  | .having => some .having

end Command

end PipeQuery
