import PipeQuery.Catalog.Pattern
import PipeQuery.Error
import PipeQuery.Json.Reader
import PipeQuery.Request.Json

/-!
Catalogs: the data sources and other documents that a query may name.
-/
namespace PipeQuery

structure DataSource where
  type : String
  uuid : String
  name : String
  fields : List String := []
  deriving DecidableEq, Repr

def DataSource.docRef (d : DataSource) : DocRef := ⟨d.type, d.uuid, d.name⟩

structure Catalog where
  dataSources : List DataSource := []
  documents : List DocRef := []
  deriving DecidableEq, Repr

/-- Finds a document by its identifier, or else by its name up to ASCII case if only one has it. -/
def resolveIn (candidates : List DocRef) (type name : String) : Except ResolveError DocRef :=
  match candidates.find? (·.uuid == name) with
  | some found => .ok found
  | none =>
    match candidates.filter fun d => Text.sameIgnoringCase d.name name with
    | [found] => .ok found
    | [] => .error (.notFound type name)
    | _ => .error (.ambiguous type name)

def dictionaryType : String := "Dictionary"

namespace Catalog

def resolveSource (c : Catalog) (name : String) : Except ResolveError DocRef :=
  resolveIn (c.dataSources.map (·.docRef)) "DataSource" name

def resolveDocument (c : Catalog) (type name : String) : Except ResolveError DocRef :=
  resolveIn (c.documents.filter (·.type == type)) type name

def dataSource? (c : Catalog) (uuid : String) : Option DataSource :=
  c.dataSources.find? (·.uuid == uuid)

/-- The fields of a data source that match the text of a pattern, all of them without a pattern and
none of them if the text is no pattern. -/
def findFields (c : Catalog) (source : DocRef) (filter : Option String) : List String :=
  match c.dataSource? source.uuid with
  | none => []
  | some d =>
    match filter with
    | none => d.fields
    | some text =>
      match Pattern.ofText? text with
      | none => []
      | some p => d.fields.filter p.accepts

end Catalog

namespace DataSource

def toJson (d : DataSource) : Json :=
  Json.object [Json.entry "type" (.str d.type), Json.entry "uuid" (.str d.uuid),
    Json.entry "name" (.str d.name), Json.entry "fields" (.arr (d.fields.map .str))]

def ofJson? (j : Json) : Option DataSource := do
  let fs ← j.record? ["type", "uuid", "name", "fields"]
  return {
    type := ← fs.required "type" Json.string
    uuid := ← fs.required "uuid" Json.string
    name := ← fs.required "name" Json.string
    fields := ← fs.listOrEmpty "fields" Json.string }

end DataSource

namespace Catalog

def toJson (c : Catalog) : Json :=
  Json.object [Json.entry "dataSources" (.arr (c.dataSources.map DataSource.toJson)),
    Json.entry "documents" (.arr (c.documents.map DocRef.toJson))]

def ofJson? (j : Json) : Option Catalog := do
  let fs ← j.record? ["dataSources", "documents"]
  return {
    dataSources := ← fs.listOrEmpty "dataSources" DataSource.ofJson?
    documents := ← fs.listOrEmpty "documents" DocRef.ofJson? }

def ofText? (text : String) : Option Catalog := (Json.parse? text).bind ofJson?

inductive File where
  | absent
  | unreadable
  | contents (bytes : ByteArray)

inductive LoadError where
  | missing (path : String)
  | unreadable (path : String)
  | malformed (path : String)
  deriving DecidableEq, Repr

def LoadError.message : LoadError → String
  | .missing path => "Config file does not exist: " ++ path
  | .unreadable path => "Unable to read config file " ++ path
  | .malformed path => "Unable to parse config " ++ path

/-- The catalog in a file, which has to be a JSON text in UTF-8. -/
def ofFile (path : String) : File → Except LoadError Catalog
  | .absent => .error (.missing path)
  | .unreadable => .error (.unreadable path)
  | .contents bytes =>
    match String.fromUTF8? bytes with
    | none => .error (.unreadable path)
    | some text =>
      match ofText? text with
      | some c => .ok c
      | none => .error (.malformed path)

end Catalog

end PipeQuery
