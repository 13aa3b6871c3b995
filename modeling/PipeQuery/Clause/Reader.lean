import PipeQuery.Clause.Entry
import PipeQuery.Filter.Reader
import PipeQuery.Request

/-!
What the clauses of a query say, one namespace for each kind of clause. The `from` clause names one
data source. The `eval` clause has a name, an equals sign and an expression, the `limit` clause
numbers with as many commas as one likes. The `sort` and `group` clauses have fields between commas,
after a `by` that may be left out, and fields to sort by may have a direction. In the `window` clause
what follows the field may come in any order. The conditions of `where`, `filter` and `having` go on
in the extensions after them.
-/
namespace PipeQuery

namespace SourceClause

def resolve (services : Services) (name : Node) : Except SyntaxError DocRef :=
  if name.isString then
    match services.resolveSource name.unescaped with
    | .ok doc => .ok doc
    | .error e => .error ⟨.resolve e, some name.place⟩
  else .error ⟨.notADataSource, some name.place⟩

/-- The data source of a clause, whatever stands after its name. -/
def readFirst (services : Services) (clause : Group) : Except SyntaxError DocRef :=
  match clause.children with
  | [] => .error ⟨.missingDataSource, some clause.place⟩
  | name :: _ => resolve services name

/-- The data source of a clause that holds only its name. -/
def read (services : Services) (clause : Group) : Except SyntaxError DocRef :=
  match clause.children with
  | name :: extra :: rest =>
    .error ⟨.extraDataSource ((name :: extra :: rest).map fun n => (n.kind, n.text)),
      some extra.place⟩
  | _ => readFirst services clause

end SourceClause

namespace EvalClause

def read (clause : Group) : Except SyntaxError (String × List Node) :=
  match clause.children with
  | [] => .error ⟨.missingVariable, some clause.place⟩
  | name :: rest =>
    if name.isString then
      match rest with
      | [] => .error ⟨.missingEquals, some name.place⟩
      | equals :: body =>
        if equals.kind ≠ .relation .equal then .error ⟨.missingEquals, some equals.place⟩
        else if body.isEmpty then .error ⟨.missingEvalExpression, some equals.place⟩
        else .ok (name.unescaped, body)
    else .error ⟨.notAVariable, some name.place⟩

end EvalClause

namespace LimitClause

def natOfDigits? (cs : List Char) : Option Nat :=
  if cs.isEmpty || !cs.all Char.isDigit then none
  else some (cs.foldl (fun n c => 10 * n + (c.toNat - '0'.toNat)) 0)

/-- A number below 2⁶⁴ in ASCII digits. A plus sign may stand before it. -/
def number? (text : String) : Option UInt64 :=
  let digits := match text.toList with
    | '+' :: cs => cs
    | cs => cs
  (natOfDigits? digits).bind fun n => if n < UInt64.size then some (UInt64.ofNat n) else none

def readNodes : List Node → Except SyntaxError (List UInt64)
  | [] => .ok []
  | n :: ns =>
    if n.isString || n.kind == .number then
      match number? n.unescaped with
      | some limit => do return limit :: (← readNodes ns)
      | none => .error ⟨.notALimit, some n.place⟩
    else if n.kind = .comma then readNodes ns
    else .error ⟨.notALimit, some n.place⟩

def read (clause : Group) : Except SyntaxError (List UInt64) := readNodes clause.children

end LimitClause

def dropBy : List Node → List Node
  | [] => []
  | n :: ns => if n.kind = .byWord then ns else n :: ns

namespace SortClause

inductive Progress where
  | nothing
  | field (name : String)
  | directed (name : String) (direction : SortDirection)

/-- The field that has been read. Without a direction it is ascending. -/
def Progress.finish? : Progress → Option (String × SortDirection)
  | .nothing => none
  | .field name => some (name, .ascending)
  | .directed name direction => some (name, direction)

def readNodes : Progress → List Node → Except SyntaxError (List (String × SortDirection))
  | p, [] => .ok p.finish?.toList
  | p, n :: ns =>
    if n.isString then
      match p with
      | .nothing => readNodes (.field n.unescaped) ns
      | .field name =>
        match SortDirection.ofText? n.unescaped with
        | some direction => readNodes (.directed name direction) ns
        | none => .error ⟨.notADirection, some n.place⟩
      | .directed .. => .error ⟨.missingSeparator, some n.place⟩
    else if n.kind = .comma then
      match p.finish? with
      | some key => do return key :: (← readNodes .nothing ns)
      | none => .error ⟨.missingFieldName, some n.place⟩
    else .error ⟨.notASortField, some n.place⟩

def read (clause : Group) : Except SyntaxError (List (String × SortDirection)) :=
  readNodes .nothing (dropBy clause.children)

end SortClause

namespace GroupClause

/-- Reads the fields. The first argument is a field that has no comma after it yet. -/
def readNodes : Option String → List Node → Except SyntaxError (List String)
  | field, [] => .ok field.toList
  | field, n :: ns =>
    if n.isString then
      match field with
      | none => readNodes (some n.unescaped) ns
      | some _ => .error ⟨.missingSeparator, some n.place⟩
    else
      match field with
      | some name =>
        if n.kind = .comma then do return name :: (← readNodes none ns)
        else .error ⟨.missingFieldName, some n.place⟩
      | none => .error ⟨.missingFieldName, some n.place⟩

def read (clause : Group) : Except SyntaxError (List String) :=
  readNodes none (dropBy clause.children)

end GroupClause

namespace WindowClause

def cutAt? {α : Type} (p : α → Bool) : List α → Option (List α × α × List α)
  | [] => none
  | a :: as =>
    if p a then some ([], a, as)
    else (cutAt? p as).map fun (before, found, after) => (a :: before, found, after)

/-- A word up to ASCII case, also in quotes. -/
def isWord (word : String) (n : Node) : Bool :=
  n.isString && Text.sameIgnoringCase n.unescaped word

/-- The duration after a word, and the nodes without both. -/
def takeDuration (part : WindowPart) (before : List Node) (word : Node) (after : List Node) :
    Except SyntaxError (String × List Node) :=
  match after with
  | [] => .error ⟨.missingDuration part, some word.place⟩
  | d :: rest =>
    if d.kind = .duration then .ok (d.unescaped, before ++ rest)
    else .error ⟨.notADuration part, some d.place⟩

def readSize (clause : Group) (nodes : List Node) : Except SyntaxError (String × List Node) :=
  match cutAt? (·.kind == .byWord) nodes with
  | none => .error ⟨.missingBy, some clause.place⟩
  | some (before, word, after) => takeDuration .size before word after

/-- Reads the advance, which is the size if it is not there. -/
def readAdvance (size : String) (nodes : List Node) : Except SyntaxError (String × List Node) :=
  match cutAt? (isWord "advance") nodes with
  | none => .ok (size, nodes)
  | some (before, word, after) => takeDuration .advance before word after

def readFunction (nodes : List Node) : Except SyntaxError (Option String × List Node) :=
  match cutAt? (isWord "using") nodes with
  | none => .ok (none, nodes)
  | some (_, word, []) => .error ⟨.missingWindowFunction, some word.place⟩
  | some (before, _, f :: rest) => .ok (some f.unescaped, before ++ rest)

def read (clause : Group) : Except SyntaxError Window :=
  match clause.children with
  | [] => .error ⟨.missingWindowField, some clause.place⟩
  | field :: nodes =>
    if field.isString then do
      let (size, nodes) ← readSize clause nodes
      let (advance, nodes) ← readAdvance size nodes
      let (function, nodes) ← readFunction nodes
      match nodes with
      | [] => return ⟨field.unescaped, size, advance, function⟩
      | extra :: _ => .error ⟨.unexpectedToken, some extra.place⟩
    else .error ⟨.notAWindowField, some field.place⟩

end WindowClause

namespace ConditionClause

open FilterReader (Reading)

/-- The connectives before the condition of an extension. A negated condition is one more that has
to hold. -/
def connectives (e : Extension) : List Part :=
  match e.op with
  | .or => [.logic .or e.command.place]
  | .and => [.logic .and e.command.place]
  | .not => [.logic .and e.command.place, .logic .not e.command.place]

def readExtension (ctx : Context) (note : Bool) (e : Extension) : Reading (List Part) := do
  let condition ← FilterReader.read ctx note e.group.children
  if condition.isEmpty then throw (.rejected ⟨.emptyExtension e.op, some e.group.place⟩)
  else return connectives e ++ [.item condition.toItem]

def readExtensions (ctx : Context) (note : Bool) : List Extension → Reading (List Part)
  | [] => return []
  | e :: es => do
    let parts ← readExtension ctx note e
    return parts ++ (← readExtensions ctx note es)

/-- The condition of a clause and its extensions. The names that its terms refer to are noted if
`note` holds. -/
def read (ctx : Context) (note : Bool) (clause : Group) (extensions : List Extension) :
    Reading Operator := do
  let condition ← FilterReader.read ctx note clause.children
  let parts ← readExtensions ctx note extensions
  match Part.combine (.item condition.toItem :: parts) with
  | .ok op => return op
  | .error e => throw (.rejected e)

end ConditionClause

end PipeQuery
