import PipeQuery.Json.Record
import PipeQuery.Request

/-!
Requests as JSON. Every type has a writer `toJson` and a reader `ofJson?`.
-/
namespace PipeQuery

open Json (entry optional unlessEmpty object)

/-- The value of a list whose written form is the given text. The text may also be the only key of an
object, with nothing as its value. -/
def Json.choice {α : Type} (values : List α) (written : α → String) : Json → Option α
  | .str s => values.find? (written · == s)
  | .obj [(s, .null)] => values.find? (written · == s)
  | _ => none

/-- The value of a choice inside of an item. The object may also have an empty object as its value. -/
def Json.itemChoice {α : Type} (values : List α) (written : α → String) : Json → Option α
  | .obj [(s, .obj [])] => values.find? (written · == s)
  | j => Json.choice values written j

namespace DocRef

def toJson (d : DocRef) : Json :=
  object [entry "type" (.str d.type), entry "uuid" (.str d.uuid), entry "name" (.str d.name)]

def ofJson? (j : Json) : Option DocRef := do
  let fs ← j.record? ["type", "uuid", "name"]
  return {
    type := ← fs.required "type" Json.string
    uuid := ← fs.required "uuid" Json.string
    name := ← fs.required "name" Json.string }

end DocRef

namespace Logic

def toJson (op : Logic) : Json := .str op.symbol

def ofJson? : Json → Option Logic := Json.choice all symbol

def ofItemJson? : Json → Option Logic := Json.itemChoice all symbol

end Logic

namespace Condition

def code : Condition → String
  | .relation .equal => "EQUALS"
  | .relation .notEqual => "NOT_EQUALS"
  | .relation .greater => "GREATER_THAN"
  | .relation .greaterEqual => "GREATER_THAN_OR_EQUAL_TO"
  | .relation .less => "LESS_THAN"
  | .relation .lessEqual => "LESS_THAN_OR_EQUAL_TO"
  | .isNull => "IS_NULL"
  | .isNotNull => "IS_NOT_NULL"
  | .between => "BETWEEN"
  | .inList => "IN"
  | .inDictionary => "IN_DICTIONARY"

def toJson (c : Condition) : Json := .str c.code

def ofJson? : Json → Option Condition := Json.choice all code

def ofItemJson? : Json → Option Condition := Json.itemChoice all code

end Condition

namespace Term

def toFields (t : Term) : List (Option (String × Json)) :=
  [entry "field" (.str t.field), entry "condition" t.condition.toJson,
    optional "value" .str t.value, optional "docRef" DocRef.toJson t.docRef]

def toJson (t : Term) : Json := object t.toFields

def keys : List String := ["field", "condition", "value", "docRef"]

def ofFields? (condition : Json → Option Condition) (fs : Json.Fields) : Option Term := do
  return {
    field := ← fs.required "field" Json.string
    condition := ← fs.required "condition" condition
    value := ← fs.optional "value" Json.string
    docRef := ← fs.optional "docRef" DocRef.ofJson? }

def ofJson? (j : Json) : Option Term := do ofFields? Condition.ofJson? (← j.record? keys)

end Term

mutual

/-- An item is written with a field that says what it is. -/
def Item.toJson : Item → Json
  | .term t => object (entry "type" (.str "term") :: t.toFields)
  | .operator op children =>
    object [entry "type" (.str "operator"), entry "op" op.toJson,
      entry "children" (.arr (Item.listToJson children))]

def Item.listToJson : List Item → List Json
  | [] => []
  | i :: is => i.toJson :: Item.listToJson is

end

inductive ItemType where
  | term
  | operator
  deriving DecidableEq, Repr

namespace ItemType

/-- Reads the type of an item by its name. Inside of an item, the place of the type counts too. -/
def ofJson? (inside : Bool) : Json → Option ItemType
  | .str "term" => some .term
  | .str "operator" => some .operator
  | .int 0 => if inside then some .term else none
  | .int 1 => if inside then some .operator else none
  | _ => none

end ItemType

mutual

/-- Reads an item: an object with a field that says what it is, or an array of what it is and the
values of its fields in order. It may stand inside of an item. -/
def Item.read? (inside : Bool) : Json → Option Item
  | .obj fields =>
    match Json.Fields.required fields "type" (ItemType.ofJson? inside) with
    | some .term =>
      if Json.distinctKeys ("type" :: Term.keys) fields then
        (Term.ofFields? Condition.ofItemJson? fields).map .term
      else none
    | some .operator =>
      if Json.distinctKeys ["type", "op", "children"] fields then do
        let op ← Json.Fields.required fields "op" Logic.ofItemJson?
        return .operator op (← Item.childrenOfFields? fields)
      else none
    | none => none
  | .arr (type :: values) =>
    match ItemType.ofJson? inside type with
    | some .term =>
      if values.length ≤ Term.keys.length then
        (Term.ofFields? Condition.ofItemJson? (Term.keys.zip values)).map .term
      else none
    | some .operator => Item.operatorOfValues? values
    | none => none
  | _ => none

def Item.operatorOfValues? : List Json → Option Item
  | [op] => do return .operator (← Logic.ofItemJson? op) []
  | [op, children] => do
    return .operator (← Logic.ofItemJson? op) (← Item.childrenOfJson? children)
  | _ => none

def Item.childrenOfFields? : List (String × Json) → Option (List Item)
  | [] => some []
  | (key, value) :: rest =>
    if key = "children" then Item.childrenOfJson? value else Item.childrenOfFields? rest

def Item.childrenOfJson? : Json → Option (List Item)
  | .arr items => Item.listOfJson? items
  | _ => none

def Item.listOfJson? : List Json → Option (List Item)
  | [] => some []
  | j :: js => do return (← Item.read? true j) :: (← Item.listOfJson? js)

end

def Item.ofJson? (j : Json) : Option Item := Item.read? false j

namespace Operator

def toJson (o : Operator) : Json :=
  object [entry "op" o.op.toJson, entry "children" (.arr (Item.listToJson o.children))]

def ofJson? (j : Json) : Option Operator := do
  let fs ← j.record? ["op", "children"]
  return ⟨← fs.required "op" Logic.ofJson?, ← fs.listOrEmpty "children" Item.ofJson?⟩

end Operator

namespace SortDirection

def code : SortDirection → String
  | .ascending => "ASCENDING"
  | .descending => "DESCENDING"

def toJson (d : SortDirection) : Json := .str d.code

def ofJson? : Json → Option SortDirection := Json.choice [.ascending, .descending] code

end SortDirection

namespace SortKey

def toJson (s : SortKey) : Json :=
  object [entry "order" (.int s.order.toNat), entry "direction" s.direction.toJson]

def ofJson? (j : Json) : Option SortKey := do
  let fs ← j.record? ["order", "direction"]
  return {
    order := ← fs.required "order" Json.uint32
    direction := ← fs.required "direction" SortDirection.ofJson? }

end SortKey

namespace ColumnFilter

def toJson (f : ColumnFilter) : Json :=
  object [optional "includes" .str f.includes, optional "excludes" .str f.excludes]

def ofJson? (j : Json) : Option ColumnFilter := do
  let fs ← j.record? ["includes", "excludes"]
  return {
    includes := ← fs.optional "includes" Json.string
    excludes := ← fs.optional "excludes" Json.string }

end ColumnFilter

namespace Column

def toJson (c : Column) : Json :=
  object [entry "id" (.str c.id), entry "name" (.str c.name), entry "expression" (.str c.expression),
    optional "sort" SortKey.toJson c.sort, optional "group" (fun n => .int n.toNat) c.group,
    optional "filter" ColumnFilter.toJson c.filter, entry "visible" (.bool c.visible),
    entry "special" (.bool c.special)]

def ofJson? (j : Json) : Option Column := do
  let fs ← j.record?
    ["id", "name", "expression", "sort", "group", "filter", "visible", "special"]
  return {
    id := ← fs.required "id" Json.string
    name := ← fs.required "name" Json.string
    expression := ← fs.required "expression" Json.string
    sort := ← fs.optional "sort" SortKey.ofJson?
    group := ← fs.optional "group" Json.uint32
    filter := ← fs.optional "filter" ColumnFilter.ofJson?
    visible := ← fs.required "visible" Json.boolean
    special := ← fs.required "special" Json.boolean }

end Column

namespace Window

def toJson (w : Window) : Json :=
  object [entry "timeField" (.str w.timeField), entry "windowSize" (.str w.size),
    entry "advanceSize" (.str w.advance), optional "function" .str w.function]

def ofJson? (j : Json) : Option Window := do
  let fs ← j.record? ["timeField", "windowSize", "advanceSize", "function"]
  return {
    timeField := ← fs.required "timeField" Json.string
    size := ← fs.required "windowSize" Json.string
    advance := ← fs.required "advanceSize" Json.string
    function := ← fs.optional "function" Json.string }

end Window

namespace SortedMap

def toJson (m : SortedMap) : Json := .obj (m.entries.map fun (key, value) => (key, .str value))

/-- Reads the entries in order. The last value of a key counts. -/
def ofEntries? : SortedMap → Json.Fields → Option SortedMap
  | m, [] => some m
  | m, (key, .str value) :: rest => ofEntries? (m.insert key value) rest
  | _, _ :: _ => none

def ofJson? : Json → Option SortedMap
  | .obj fields => ofEntries? empty fields
  | _ => none

end SortedMap

namespace Visual

def toJson (v : Visual) : Json :=
  object [entry "visType" (.str v.type), entry "params" v.params.toJson]

def ofJson? (j : Json) : Option Visual := do
  let fs ← j.record? ["visType", "params"]
  return {
    type := ← fs.required "visType" Json.string
    params := ← fs.required "params" SortedMap.ofJson? }

end Visual

namespace Table

def toJson (t : Table) : Json :=
  object [entry "columns" (.arr (t.columns.map Column.toJson)),
    optional "window" Window.toJson t.window, optional "valueFilter" Operator.toJson t.valueFilter,
    optional "aggregateFilter" Operator.toJson t.aggregateFilter,
    unlessEmpty "maxResults" (fun n => .int n.toNat) t.maxResults,
    entry "extractValues" (.bool t.extractValues), optional "visSettings" Visual.toJson t.visual]

def ofJson? (j : Json) : Option Table := do
  let fs ← j.record? ["columns", "window", "valueFilter", "aggregateFilter", "maxResults",
    "extractValues", "visSettings"]
  return {
    columns := ← fs.required "columns" (Json.list Column.ofJson?)
    window := ← fs.optional "window" Window.ofJson?
    valueFilter := ← fs.optional "valueFilter" Operator.ofJson?
    aggregateFilter := ← fs.optional "aggregateFilter" Operator.ofJson?
    maxResults := ← fs.listOrEmpty "maxResults" Json.uint64
    extractValues := ← fs.required "extractValues" Json.boolean
    visual := ← fs.optional "visSettings" Visual.ofJson? }

end Table

namespace ResultStyle

def code : ResultStyle → String
  | .table => "TABLE"
  | .visual => "QL_VIS"

def toJson (s : ResultStyle) : Json := .str s.code

def ofJson? : Json → Option ResultStyle := Json.choice [.table, .visual] code

end ResultStyle

namespace ResultRequest

def toJson (r : ResultRequest) : Json :=
  object [entry "componentId" (.str r.componentId),
    entry "mappings" (.arr (r.mappings.map Table.toJson)), entry "resultStyle" r.style.toJson]

def ofJson? (j : Json) : Option ResultRequest := do
  let fs ← j.record? ["componentId", "mappings", "resultStyle"]
  return {
    componentId := ← fs.required "componentId" Json.string
    mappings := ← fs.required "mappings" (Json.list Table.ofJson?)
    style := ← fs.required "resultStyle" ResultStyle.ofJson? }

end ResultRequest

namespace Param

def toJson (p : Param) : Json := object [entry "key" (.str p.key), entry "value" (.str p.value)]

def ofJson? (j : Json) : Option Param := do
  let fs ← j.record? ["key", "value"]
  return {
    key := ← fs.required "key" Json.string
    value := ← fs.required "value" Json.string }

end Param

namespace TimeRange

def toJson (r : TimeRange) : Json :=
  object [optional "name" .str r.name, optional "from" .str r.start, optional "to" .str r.stop]

def ofJson? (j : Json) : Option TimeRange := do
  let fs ← j.record? ["name", "from", "to"]
  return {
    name := ← fs.optional "name" Json.string
    start := ← fs.optional "from" Json.string
    stop := ← fs.optional "to" Json.string }

end TimeRange

namespace Query

def toJson (q : Query) : Json :=
  object [entry "dataSource" q.dataSource.toJson, entry "expression" q.expression.toJson,
    unlessEmpty "params" Param.toJson q.params, optional "timeRange" TimeRange.toJson q.timeRange]

def ofJson? (j : Json) : Option Query := do
  let fs ← j.record? ["dataSource", "expression", "params", "timeRange"]
  return {
    dataSource := ← fs.required "dataSource" DocRef.ofJson?
    expression := ← fs.required "expression" Operator.ofJson?
    params := ← fs.listOrEmpty "params" Param.ofJson?
    timeRange := ← fs.optional "timeRange" TimeRange.ofJson? }

end Query

namespace BaseRequest

def toJson (r : BaseRequest) : Json :=
  object [optional "key" .str r.key, entry "params" (.arr (r.params.map Param.toJson)),
    optional "timeRange" TimeRange.toJson r.timeRange]

def ofJson? (j : Json) : Option BaseRequest := do
  let fs ← j.record? ["key", "params", "timeRange"]
  return {
    key := ← fs.optional "key" Json.string
    params := ← fs.listOrEmpty "params" Param.ofJson?
    timeRange := ← fs.optional "timeRange" TimeRange.ofJson? }

end BaseRequest

namespace SearchRequest

def toJson (r : SearchRequest) : Json :=
  object [optional "key" .str r.key, entry "query" r.query.toJson,
    entry "resultRequests" (.arr (r.results.map ResultRequest.toJson))]

def ofJson? (j : Json) : Option SearchRequest := do
  let fs ← j.record? ["key", "query", "resultRequests"]
  return {
    key := ← fs.optional "key" Json.string
    query := ← fs.required "query" Query.ofJson?
    results := ← fs.required "resultRequests" (Json.list ResultRequest.ofJson?) }

end SearchRequest

end PipeQuery
