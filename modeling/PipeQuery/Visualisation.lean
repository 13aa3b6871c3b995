import PipeQuery.Group
import PipeQuery.Request

/-!
Visualisations: a name, or a name with parameters that stand for columns of the table.
-/
namespace PipeQuery

def splitWhen {α : Type} (p : α → Bool) : List α → List (List α)
  | [] => [[]]
  | a :: as =>
    if p a then [] :: splitWhen p as
    else
      match splitWhen p as with
      | part :: parts => (a :: part) :: parts
      | [] => [[a]]

namespace Visual

def splitCommas : List Node → List (List Node) := splitWhen (·.kind == .comma)

/-- Reads one parameter and the column that it stands for, which is named by name or identifier. -/
def readParam (table : Table) (function : Place) (params : SortedMap) :
    List Node → Except SyntaxError SortedMap
  | key :: equals :: column :: rest =>
    match rest with
    | extra :: _ => .error ⟨.unexpectedToken, some extra.place⟩
    | [] =>
      if !key.isString then .error ⟨.notAParameter, some key.place⟩
      else if equals.kind ≠ .relation .equal then .error ⟨.missingEquals, some equals.place⟩
      else if !column.isString && column.kind != .functionGroup then
        .error ⟨.notAColumn, some column.place⟩
      else
        let name := column.unescaped
        match table.columns.find? fun c => c.name == name || c.id == name with
        | some found => .ok (params.insert key.unescaped found.id)
        | none => .error ⟨.unknownColumn name, some column.place⟩
  | node :: _ => .error ⟨.incompleteParameter, some node.place⟩
  | [] => .error ⟨.missingParameter, some function⟩

def readParams (table : Table) (function : Group) : Except SyntaxError SortedMap :=
  if function.children.isEmpty then .ok .empty
  else (splitCommas function.children).foldlM (readParam table function.place) .empty

def read (clause : Group) (table : Table) : Except SyntaxError Visual :=
  match clause.children with
  | [] => .error ⟨.notAVisual, some clause.place⟩
  | _ :: extra :: _ => .error ⟨.unexpectedToken, some extra.place⟩
  | [node] =>
    match node.function? with
    | some g => do
      let params ← readParams table g
      return ⟨g.functionName?.getD "", params⟩
    | none =>
      if node.isString then .ok ⟨node.unescaped, .empty⟩
      else .error ⟨.notAVisual, some node.place⟩

def addTo (clause : Group) (table : Table) : Except SyntaxError Table := do
  return { table with visual := some (← read clause table) }

end Visual

end PipeQuery
