import PipeQuery.Catalog
import PipeQuery.Proofs.Json.Record

/-!
Requests and catalogs survive JSON: reading what was written for a value gives the value again. The
reader of each record is put together from the readers of its fields, and so is the proof.
-/
namespace PipeQuery

open Json (Codec Keyed keyIf)

/-- Choices whose texts tell them apart. -/
theorem Json.Codec.choice {α : Type} {values : List α} {code : α → String}
    (h : ∀ a, values.find? (code · == code a) = some a) :
    Codec (fun a => .str (code a)) (Json.choice values code) :=
  ⟨h, fun a => .str (code a)⟩

namespace DocRef

private theorem codec : Codec toJson ofJson? := by
  refine .of_keyed (by decide) (fun d => ?_) fun d => ?_
  · exact .entry "type" (.str d.type) <| .entry "uuid" (.str d.uuid) <|
      .entry "name" (.str d.name) .nil
  · simp [Codec.string.read_write]

end DocRef

private theorem Logic.find?_symbol (op : Logic) : all.find? (·.symbol == op.symbol) = some op := by
  cases op <;> decide

private theorem Logic.codec : Codec toJson ofJson? := .choice find?_symbol

private theorem Condition.find?_code (c : Condition) : all.find? (·.code == c.code) = some c := by
  cases c with
  | relation r => cases r <;> decide
  | _ => decide

namespace Item

private theorem listToJson_eq (is : List Item) : listToJson is = is.map toJson := by
  induction is with
  | nil => rfl
  | cons i is ih => rw [listToJson, ih, List.map_cons]

/-- The field that says what an item is stands before the fields of a term. -/
theorem keyed_term (t : Term) :
    Keyed ("type" :: Term.keys) (Json.entry "type" (.str "term") :: t.toFields) :=
  .entry "type" (.str "term") <| .entry "field" (.str t.field) <|
    .entry "condition" (.str t.condition.code) <| Codec.string.keyed_optional "value" t.value <|
    DocRef.codec.keyed_optional "docRef" t.docRef .nil

private theorem childrenOfFields?_eq (fields : Json.Fields) :
    childrenOfFields? fields = ((fields.lookup "children").map childrenOfJson?).getD (some []) := by
  induction fields with
  | nil => rfl
  | cons p fields ih =>
    obtain ⟨key, value⟩ := p
    rw [childrenOfFields?, Bindings.lookup_cons_eq_ite, ih]
    by_cases h : key = "children"
    · rw [if_pos h, if_pos h.symm]
      rfl
    · rw [if_neg h, if_neg (Ne.symm h)]

/-- The fields of an operator that stands in a filter. -/
theorem keyed_operator (op : Logic) {children : List Json} (h : (Json.arr children).NullFree) :
    Keyed ["type", "op", "children"] [Json.entry "type" (.str "operator"),
      Json.entry "op" op.toJson, Json.entry "children" (.arr children)] :=
  .entry "type" (.str "operator") <| .entry "op" (.str op.symbol) <| .entry "children" h .nil

mutual

private theorem nullFree_toJson : (i : Item) → i.toJson.NullFree
  | .term t => (keyed_term t).nullFree_object
  | .operator op children =>
    (keyed_operator op (.arr (nullFree_listToJson children))).nullFree_object

private theorem nullFree_listToJson : (is : List Item) → ∀ j ∈ listToJson is, j.NullFree
  | [] => nofun
  | i :: is => List.forall_mem_cons.mpr ⟨nullFree_toJson i, nullFree_listToJson is⟩

end

private theorem ofFields?_term (t : Term) :
    Term.ofFields? Condition.ofItemJson?
      (Json.written (Json.entry "type" (.str "term") :: t.toFields)) = some t := by
  have hcondition : Condition.ofItemJson? t.condition.toJson = some t.condition :=
    Condition.find?_code t.condition
  simp [Term.ofFields?, Term.toFields, Codec.string.read_write, hcondition,
    Codec.string.orNone_map, DocRef.codec.orNone_map]

mutual

/-- An item is read as it was written, whether it stands on its own or inside of an item. -/
theorem read?_toJson (inside : Bool) : (i : Item) → read? inside i.toJson = some i
  | .term t => by
    have hdistinct := (keyed_term t).distinctKeys (by decide) ("type" :: Term.keys)
    have htype : Json.Fields.required
        (Json.written (Json.entry "type" (.str "term") :: t.toFields)) "type"
        (ItemType.ofJson? inside) = some .term := by
      simp [ItemType.ofJson?]
    rw [toJson, Json.object, ← Json.written, read?, htype]
    simp only [hdistinct, if_true, ofFields?_term, Option.map_some]
  | .operator op children => by
    have hchildren := listOfJson?_listToJson children
    have hdistinct := (keyed_operator op (.arr (nullFree_listToJson children))).distinctKeys
      (by decide) ["type", "op", "children"]
    have hop : Logic.ofItemJson? op.toJson = some op := Logic.find?_symbol op
    rw [toJson, Json.object, ← Json.written, read?]
    simp [ItemType.ofJson?, hdistinct, hop, childrenOfFields?_eq, childrenOfJson?, hchildren]

private theorem listOfJson?_listToJson : (is : List Item) → listOfJson? (listToJson is) = some is
  | [] => rfl
  | i :: is => by
    rw [listToJson, listOfJson?, read?_toJson true i, listOfJson?_listToJson is]
    rfl

end

private theorem codec : Codec toJson ofJson? := ⟨read?_toJson false, nullFree_toJson⟩

end Item

namespace Operator

private theorem codec : Codec toJson ofJson? := by
  refine .of_keyed (by decide) (fun o => ?_) fun o => ?_
  · exact .entry "op" (.str o.op.symbol) <|
      .entry "children" (.arr (Item.nullFree_listToJson o.children)) .nil
  · simp [Logic.codec.read_write, Item.listToJson_eq, Item.codec.orNil_some]

end Operator

private theorem SortDirection.codec : Codec toJson ofJson? :=
  .choice fun d => by cases d <;> decide

namespace SortKey

private theorem codec : Codec toJson ofJson? := by
  refine .of_keyed (by decide) (fun s => ?_) fun s => ?_
  · exact .entry "order" (.int s.order.toNat) <|
      .entry "direction" (.str s.direction.code) .nil
  · -- Rewriting under the bind keeps the bound of the integers from being computed.
    have horder := Codec.uint32.bind_write s.order
    have hdirection := SortDirection.codec.bind_write s.direction
    simp only [Json.Fields.required_eq, Json.lookup_written_entry, if_true, if_false,
      String.reduceEq, horder, hdirection]
    rfl

end SortKey

namespace ColumnFilter

private theorem codec : Codec toJson ofJson? := by
  refine .of_keyed (by decide) (fun f => ?_) fun f => ?_
  · exact Codec.string.keyed_optional "includes" f.includes <|
      Codec.string.keyed_optional "excludes" f.excludes .nil
  · simp [Codec.string.orNone_map]

end ColumnFilter

namespace Column

private theorem codec : Codec toJson ofJson? := by
  refine .of_keyed (by decide) (fun c => ?_) fun c => ?_
  · exact .entry "id" (.str c.id) <| .entry "name" (.str c.name) <|
      .entry "expression" (.str c.expression) <| SortKey.codec.keyed_optional "sort" c.sort <|
      Codec.uint32.keyed_optional "group" c.group <|
      ColumnFilter.codec.keyed_optional "filter" c.filter <|
      .entry "visible" (.bool c.visible) <| .entry "special" (.bool c.special) .nil
  · simp [Codec.string.read_write, Codec.boolean.read_write, SortKey.codec.orNone_map,
      Codec.uint32.orNone_map, ColumnFilter.codec.orNone_map]

end Column

namespace Window

private theorem codec : Codec toJson ofJson? := by
  refine .of_keyed (by decide) (fun w => ?_) fun w => ?_
  · exact .entry "timeField" (.str w.timeField) <| .entry "windowSize" (.str w.size) <|
      .entry "advanceSize" (.str w.advance) <|
      Codec.string.keyed_optional "function" w.function .nil
  · simp [Codec.string.read_write, Codec.string.orNone_map]

end Window

namespace SortedMap

/-- A key after all others goes to the end. -/
theorem put_of_lt {key value : String} {entries : List (String × String)}
    (h : ∀ e ∈ entries, e.1 < key) : put key value entries = entries ++ [(key, value)] := by
  induction entries with
  | nil => rfl
  | cons e entries ih =>
    obtain ⟨hlt, hrest⟩ := List.forall_mem_cons.mp h
    rw [put, if_neg (String.lt_asymm hlt), if_neg (String.ne_of_lt hlt), ih hrest]
    rfl

/-- Entries that are read in the order of their keys are the entries of the map. -/
theorem ofEntries?_map (rest : List (String × String)) (m : SortedMap)
    (h : (m.entries ++ rest).Pairwise (fun a b => a.1 < b.1)) :
    ofEntries? m (rest.map fun (key, value) => (key, .str value)) =
      some ⟨m.entries ++ rest, h⟩ := by
  induction rest generalizing m with
  | nil => simp [ofEntries?]
  | cons e rest ih =>
    obtain ⟨key, value⟩ := e
    have hlast : ∀ e ∈ m.entries, e.1 < key := fun e he =>
      (List.pairwise_append.mp h).2.2 e he (key, value) List.mem_cons_self
    have hput : (m.insert key value).entries = m.entries ++ [(key, value)] := put_of_lt hlast
    rw [List.map_cons, ofEntries?, ih (m.insert key value) (by simpa [hput] using h)]
    simp [hput]

private theorem codec : Codec toJson ofJson? := by
  refine ⟨fun m => ofEntries?_map m.entries empty m.sorted, fun m => .obj fun p hp => ?_⟩
  obtain ⟨e, -, rfl⟩ := List.mem_map.mp hp
  exact .str e.2

end SortedMap

namespace Visual

private theorem codec : Codec toJson ofJson? := by
  refine .of_keyed (by decide) (fun v => ?_) fun v => ?_
  · exact .entry "visType" (.str v.type) <|
      .entry "params" (SortedMap.codec.nullFree v.params) .nil
  · simp [Codec.string.read_write, SortedMap.codec.read_write]

end Visual

namespace Table

private theorem codec : Codec toJson ofJson? := by
  refine .of_keyed (by decide) (fun t => ?_) fun t => ?_
  · exact .entry "columns" (Column.codec.nullFree_items t.columns) <|
      Window.codec.keyed_optional "window" t.window <|
      Operator.codec.keyed_optional "valueFilter" t.valueFilter <|
      Operator.codec.keyed_optional "aggregateFilter" t.aggregateFilter <|
      Codec.uint64.keyed_unlessEmpty "maxResults" t.maxResults <|
      .entry "extractValues" (.bool t.extractValues) <|
      Visual.codec.keyed_optional "visSettings" t.visual .nil
  · simp [Column.codec.list.read_write, Window.codec.orNone_map, Operator.codec.orNone_map,
      Codec.uint64.orNil_itemsUnlessNil, Codec.boolean.read_write, Visual.codec.orNone_map]

end Table

private theorem ResultStyle.codec : Codec toJson ofJson? :=
  .choice fun s => by cases s <;> decide

namespace ResultRequest

private theorem codec : Codec toJson ofJson? := by
  refine .of_keyed (by decide) (fun r => ?_) fun r => ?_
  · exact .entry "componentId" (.str r.componentId) <|
      .entry "mappings" (Table.codec.nullFree_items r.mappings) <|
      .entry "resultStyle" (.str r.style.code) .nil
  · simp [Codec.string.read_write, Table.codec.list.read_write, ResultStyle.codec.read_write]

end ResultRequest

namespace Param

private theorem codec : Codec toJson ofJson? := by
  refine .of_keyed (by decide) (fun p => ?_) fun p => ?_
  · exact .entry "key" (.str p.key) <| .entry "value" (.str p.value) .nil
  · simp [Codec.string.read_write]

end Param

namespace TimeRange

private theorem codec : Codec toJson ofJson? := by
  refine .of_keyed (by decide) (fun r => ?_) fun r => ?_
  · exact Codec.string.keyed_optional "name" r.name <|
      Codec.string.keyed_optional "from" r.start <| Codec.string.keyed_optional "to" r.stop .nil
  · simp [Codec.string.orNone_map]

end TimeRange

namespace Query

private theorem codec : Codec toJson ofJson? := by
  refine .of_keyed (by decide) (fun q => ?_) fun q => ?_
  · exact .entry "dataSource" (DocRef.codec.nullFree q.dataSource) <|
      .entry "expression" (Operator.codec.nullFree q.expression) <|
      Param.codec.keyed_unlessEmpty "params" q.params <|
      TimeRange.codec.keyed_optional "timeRange" q.timeRange .nil
  · simp [DocRef.codec.read_write, Operator.codec.read_write, Param.codec.orNil_itemsUnlessNil,
      TimeRange.codec.orNone_map]

end Query

namespace BaseRequest

private theorem codec : Codec toJson ofJson? := by
  refine .of_keyed (by decide) (fun r => ?_) fun r => ?_
  · exact Codec.string.keyed_optional "key" r.key <|
      .entry "params" (Param.codec.nullFree_items r.params) <|
      TimeRange.codec.keyed_optional "timeRange" r.timeRange .nil
  · simp [Codec.string.orNone_map, Param.codec.orNil_some, TimeRange.codec.orNone_map]

end BaseRequest

namespace SearchRequest

private theorem codec : Codec toJson ofJson? := by
  refine .of_keyed (by decide) (fun r => ?_) fun r => ?_
  · exact Codec.string.keyed_optional "key" r.key <|
      .entry "query" (Query.codec.nullFree r.query) <|
      .entry "resultRequests" (ResultRequest.codec.nullFree_items r.results) .nil
  · simp [Codec.string.orNone_map, Query.codec.read_write, ResultRequest.codec.list.read_write]

end SearchRequest

namespace DataSource

private theorem codec : Codec toJson ofJson? := by
  refine .of_keyed (by decide) (fun d => ?_) fun d => ?_
  · exact .entry "type" (.str d.type) <| .entry "uuid" (.str d.uuid) <|
      .entry "name" (.str d.name) <| .entry "fields" (Codec.string.nullFree_items d.fields) .nil
  · simp [Codec.string.read_write, Codec.string.orNil_some]

end DataSource

namespace Catalog

private theorem codec : Codec toJson ofJson? := by
  refine .of_keyed (by decide) (fun c => ?_) fun c => ?_
  · exact .entry "dataSources" (DataSource.codec.nullFree_items c.dataSources) <|
      .entry "documents" (DocRef.codec.nullFree_items c.documents) .nil
  · simp [DataSource.codec.orNil_some, DocRef.codec.orNil_some]

end Catalog

/-- The written form of the records with parts that may be missing: under which keys they are
written, in which order. A value that is not there and a list without items have no key. -/
theorem json_written_keys :
    (∀ r : SearchRequest,
      r.toJson.keys = keyIf "key" r.key.isSome ++ ["query", "resultRequests"]) ∧
    (∀ r : BaseRequest,
      r.toJson.keys =
        keyIf "key" r.key.isSome ++ "params" :: keyIf "timeRange" r.timeRange.isSome) ∧
    (∀ q : Query,
      q.toJson.keys = ["dataSource", "expression"] ++ keyIf "params" (!q.params.isEmpty) ++
        keyIf "timeRange" q.timeRange.isSome) ∧
    (∀ r : TimeRange,
      r.toJson.keys =
        keyIf "name" r.name.isSome ++ keyIf "from" r.start.isSome ++ keyIf "to" r.stop.isSome) ∧
    (∀ t : Table,
      t.toJson.keys = "columns" :: keyIf "window" t.window.isSome ++
        keyIf "valueFilter" t.valueFilter.isSome ++
        keyIf "aggregateFilter" t.aggregateFilter.isSome ++
        keyIf "maxResults" (!t.maxResults.isEmpty) ++
        "extractValues" :: keyIf "visSettings" t.visual.isSome) ∧
    (∀ c : Column,
      c.toJson.keys = ["id", "name", "expression"] ++ keyIf "sort" c.sort.isSome ++
        keyIf "group" c.group.isSome ++ keyIf "filter" c.filter.isSome ++
        ["visible", "special"]) ∧
    (∀ f : ColumnFilter,
      f.toJson.keys = keyIf "includes" f.includes.isSome ++ keyIf "excludes" f.excludes.isSome) ∧
    (∀ w : Window,
      w.toJson.keys =
        ["timeField", "windowSize", "advanceSize"] ++ keyIf "function" w.function.isSome) ∧
    (∀ t : Term,
      (Item.term t).toJson.keys = ["type", "field", "condition"] ++ keyIf "value" t.value.isSome ++
        keyIf "docRef" t.docRef.isSome) ∧
    (∀ op children, (Item.operator op children).toJson.keys = ["type", "op", "children"]) := by
  simp [SearchRequest.toJson, BaseRequest.toJson, Query.toJson, TimeRange.toJson, Table.toJson,
    Column.toJson, ColumnFilter.toJson, Window.toJson, Item.toJson, Term.toFields]

/-- Every request, table, item and catalog is read from the JSON that is written for it, with all of
its parts, and what it does not have is left out there and not written as null. -/
theorem json_round_trip :
    (∀ r : SearchRequest, SearchRequest.ofJson? r.toJson = some r ∧ r.toJson.NullFree) ∧
    (∀ r : BaseRequest, BaseRequest.ofJson? r.toJson = some r ∧ r.toJson.NullFree) ∧
    (∀ t : Table, Table.ofJson? t.toJson = some t ∧ t.toJson.NullFree) ∧
    (∀ i : Item, Item.ofJson? i.toJson = some i ∧ i.toJson.NullFree) ∧
    (∀ c : Catalog, Catalog.ofJson? c.toJson = some c ∧ c.toJson.NullFree) := by
  have both {α : Type} {write : α → Json} {read : Json → Option α} (h : Codec write read) (a : α) :
      read (write a) = some a ∧ (write a).NullFree := ⟨h.read_write a, h.nullFree a⟩
  exact ⟨both SearchRequest.codec, both BaseRequest.codec, both Table.codec, both Item.codec,
    both Catalog.codec⟩

end PipeQuery
