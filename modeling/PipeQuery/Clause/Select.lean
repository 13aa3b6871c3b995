import PipeQuery.Group
import PipeQuery.Scalar

/-!
The `select` clause: fields, wildcards and function calls between commas, each with a name of its
own after `as` if wanted.
-/
namespace PipeQuery

inductive Chosen where
  /-- A field, or a wildcard for fields. -/
  | field (node : Node)
  | expression (e : Expr)

structure Selection where
  chosen : Chosen
  name : String

namespace SelectClause

inductive Progress where
  | nothing
  | chosen (s : Selection)
  /-- After `as`. -/
  | naming (s : Selection)
  /-- After the name that follows `as`. -/
  | named (s : Selection)

/-- The selection that has been read. An `as` without a name changes nothing. -/
def Progress.finish? : Progress → Option Selection
  | .nothing => none
  | .chosen s | .naming s | .named s => some s

def isField (kind : TokenKind) : Bool :=
  kind.isString || kind == .arith .multiply || kind == .param

def readField (n : Node) : Progress → Except SyntaxError Progress
  | .nothing => .ok (.chosen ⟨.field n, n.unescaped⟩)
  | .chosen ⟨.field _, _⟩ => .error ⟨.missingAs, some n.place⟩
  | .chosen ⟨.expression _, _⟩ => .error ⟨.unexpectedField, some n.place⟩
  | .naming s => .ok (.named { s with name := n.unescaped })
  | .named _ => .error ⟨.unexpectedColumnName, some n.place⟩

def readAs (n : Node) : Progress → Except SyntaxError Progress
  | .nothing => .error ⟨.nothingToName, some n.place⟩
  | .chosen s => .ok (.naming s)
  | .naming _ | .named _ => .error ⟨.repeatedAs, some n.place⟩

/-- Reads a node other than a comma. Function calls are read by `scalar`. -/
def readNode (scalar : Node → Except SyntaxError Expr) (p : Progress) (n : Node) :
    Except SyntaxError Progress :=
  if n.kind = .functionGroup then
    match p with
    | .nothing => do return .chosen ⟨.expression (← scalar n), n.text⟩
    | _ => .error ⟨.unexpectedExpression, some n.place⟩
  else if isField n.kind then readField n p
  else if n.kind = .asWord then readAs n p
  else .error ⟨.unexpectedToken, some n.place⟩

/-- The selections up to the first fault, and the fault if there is one. -/
def readNodes (scalar : Node → Except SyntaxError Expr) :
    Progress → List Node → List Selection × Option SyntaxError
  | p, [] => (p.finish?.toList, none)
  | p, n :: ns =>
    if n.kind = .comma then
      match p.finish? with
      | some s =>
        let (rest, fault) := readNodes scalar .nothing ns
        (s :: rest, fault)
      | none => ([], some ⟨.missingFieldName, some n.place⟩)
    else
      match readNode scalar p n with
      | .ok p => readNodes scalar p ns
      | .error e => ([], some e)

def read (scalar : Node → Except SyntaxError Expr) (clause : Group) :
    List Selection × Option SyntaxError :=
  readNodes scalar .nothing clause.children

end SelectClause

end PipeQuery
