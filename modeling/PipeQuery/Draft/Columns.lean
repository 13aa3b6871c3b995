import PipeQuery.Clause.Select
import PipeQuery.Draft
import PipeQuery.Services

/-!
The columns of a draft: those that a `select` clause asks for, those that lead back from a row to
its event, and those that a `having` clause needs. The identifier of a selected column is its name in
lower case with `_` for everything else, and a number that counts the columns of this form.
-/
namespace PipeQuery

namespace ColumnId

/-- The lower case of a character, as far as it has letters of identifiers: those of ASCII, the
Kelvin sign, and the capital i with a dot. -/
def lower (c : Char) : List Char :=
  if c = '\u0130' then ['i', '\u0307']
  else if c = '\u212a' then ['k']
  else [c.toLower]

def isPlain (c : Char) : Bool := c.isLower || c.isDigit

/-- Replaces every run of other characters by one `_`. The flag says that the run has begun. -/
def squeeze : Bool → List Char → List Char
  | _, [] => []
  | inRun, c :: cs =>
    if isPlain c then c :: squeeze false cs
    else if inRun then squeeze true cs
    else '_' :: squeeze true cs

def clean (name : String) : String :=
  String.ofList (squeeze false ((Text.trimChars name.toList).flatMap lower))

abbrev Counts := Bindings Nat

def next (counts : Counts) (name : String) : String × Counts :=
  let form := clean name
  let count := (counts.get? form).getD 0 + 1
  (form ++ "-" ++ toString count, counts.insert form count)

end ColumnId

def isParamText (text : String) : Bool :=
  "$\x7b".toList.isPrefixOf text.toList && text.toList.getLast? == some '\x7d'

def Token.ofName (name : String) : Token :=
  ⟨if isParamText name then .param else .word, name, ⟨0, Text.byteLength name.toList⟩⟩

/-- The text in the braces of a parameter, or a text that is no parameter as it is. -/
def unbrace (text : String) : String :=
  match text.toList with
  | '$' :: '\x7b' :: inner =>
    if inner.getLast? = some '\x7d' then String.ofList inner.dropLast else text
  | _ => text

namespace Draft

/-- A column with the place in the order and in the groups that the key has. -/
def column (d : Draft) (id name key : String) (e : Expr) (visible special : Bool) : Column where
  id := id
  name := name
  expression := e.render
  sort := d.sorts.get? key
  group := d.groups.get? key
  visible := visible
  special := special

/-- The expression of a field: one with its name, or the field itself. -/
def fieldExpr (ctx : Context) (d : Draft) (place : Place) (field : String) :
    Except SyntaxError Expr :=
  match d.evals.get? field with
  | some e => .ok e
  | none =>
    match ctx.services.readScalar d.evals [.token (.ofName field)] with
    | .ok e => .ok e
    | .error e => .error ⟨.scalar e, some place⟩

def addField (ctx : Context) (d : Draft) (place : Place) (id field name : String)
    (visible special : Bool) : Except SyntaxError Draft := do
  let e ← d.fieldExpr ctx place field
  return (d.note field).addColumn (d.column id name field e visible special)

def addFields (ctx : Context) (place : Place) :
    Draft → ColumnId.Counts → List String → Except SyntaxError (Draft × ColumnId.Counts)
  | d, counts, [] => .ok (d, counts)
  | d, counts, field :: fields => do
    let (id, counts) := ColumnId.next counts field
    addFields ctx place (← d.addField ctx place id field field true false) counts fields

/-- Whether a field under a name stands for all fields that match it. -/
def isWildcard (field : Node) (name : String) : Bool :=
  name == "*" || (field.kind == .param && name.toList.contains '*')

def expand (ctx : Context) (d : Draft) (field : Node) : List String :=
  match d.source with
  | none => []
  | some source => ctx.services.findFields source (Pattern.ofWildcard? (unbrace field.unescaped))

def addSelection (ctx : Context) (d : Draft) (counts : ColumnId.Counts) (s : Selection) :
    Except SyntaxError (Draft × ColumnId.Counts) :=
  match s.chosen with
  | .field n =>
    if isWildcard n s.name then addFields ctx n.place d counts (d.expand ctx n)
    else do
      let (id, counts) := ColumnId.next counts s.name
      return (← d.addField ctx n.place id n.unescaped s.name true false, counts)
  | .expression e =>
    let (id, counts) := ColumnId.next counts s.name
    .ok ((d.note s.name).addColumn (d.column id s.name s.name e true false), counts)

def addSelections (ctx : Context) :
    Draft → ColumnId.Counts → List Selection → Except SyntaxError Draft
  | d, _, [] => .ok d
  | d, counts, s :: rest => do
    let (d, counts) ← d.addSelection ctx counts s
    addSelections ctx d counts rest

/-- The columns that lead back from a row to its event, by identifier and field. -/
def originColumns : List (String × String) :=
  [("__stream_id__", "StreamId"), ("__event_id__", "EventId")]

/-- Adds a hidden column for a field that leads back to the event, unless its name is taken. -/
def addOrigin (d : Draft) (id field : String) : Draft :=
  if d.added.contains id then d
  else (d.note id).addColumn {
    id := id
    name := id
    expression := (Expr.field field).render
    visible := false
    special := true }

/-- Adds the hidden columns that lead back to the event, if rows are not grouped. -/
def addOrigins (d : Draft) : Draft :=
  if d.depth = 0 then originColumns.foldl (fun d (id, field) => d.addOrigin id field) d else d

def hiddenId (name : String) : String :=
  "__" ++ String.ofList (name.toList.map fun c => if Text.isBlank c then '_' else c) ++ "__"

def addHidden (ctx : Context) : Draft → List HavingField → Except SyntaxError Draft
  | d, [] => .ok d
  | d, h :: rest =>
    if d.added.contains h.name then addHidden ctx d rest
    else do
      addHidden ctx (← d.addField ctx h.place (hiddenId h.name) h.name h.name false true) rest

end Draft

end PipeQuery
