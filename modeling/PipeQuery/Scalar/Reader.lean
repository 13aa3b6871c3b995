import PipeQuery.Group
import PipeQuery.Scalar

/-!
Reading scalar expressions from nodes. The nodes of one level are read from left to right: operands
with their signs, and operators between them. Brackets and function calls are levels of their own.
The fields that are read go into the index, also when the reading fails later on.
-/
namespace PipeQuery.Scalar

abbrev Reading := ExceptT ScalarError (StateM FieldIndex)

/-- How far a level has been read. Signs before an operand are counted as they negate it. -/
inductive Progress where
  /-- The first operand is next. -/
  | start (negations : Nat)
  /-- The operand after an operator is next. -/
  | operand (before : Chain) (op : BinaryOp) (negations : Nat)
  /-- An operator or the end is next. -/
  | complete (chain : Chain)

def negated : Nat → Expr → Expr
  | 0, e => e
  | n + 1, e => .negate (negated n e)

namespace Progress

def put (e : Expr) : Progress → Progress
  | .start n => .complete ⟨negated n e, []⟩
  | .operand before op n => .complete (before.add op (negated n e))
  | .complete chain => .complete chain

def negate : Progress → Progress
  | .start n => .start (n + 1)
  | .operand before op n => .operand before op (n + 1)
  | .complete chain => .complete chain

def finish : Progress → Except ScalarError Expr
  | .complete chain => .ok chain.tree
  | _ => .error .missingOperand

end Progress

/-- A level that is being read, and the arguments before it if it is in a function call. -/
structure Level where
  inCall : Bool
  args : List Expr := []
  progress : Progress := .start 0

def Level.nextArgument (l : Level) : Except ScalarError Level := do
  let e ← l.progress.finish
  return { l with args := l.args ++ [e], progress := .start 0 }

/-- A name stands for the expression with this name, or for a field. -/
def reference (evals : Evals) (name : String) : Reading Expr := do
  match evals.get? name with
  | some e => return e
  | none =>
    modify (·.insert name)
    return .field name

/-- Drops leading dollar signs with braces, as often as they are there. -/
def dropParamStart : List Char → List Char
  | '$' :: '\x7b' :: cs => dropParamStart cs
  | cs => cs

def paramName (slice : String) : String :=
  String.ofList ((dropParamStart slice.toList).reverse.dropWhile (· == '\x7d')).reverse

/-- Some part between commas has no nodes. The flag says that the current part has none so far. -/
def hasGap : Bool → List Node → Bool
  | empty, [] => empty
  | empty, n :: ns => if n.kind = .comma then empty || hasGap true ns else hasGap false ns

def readOperand (evals : Evals) (l : Level) (t : Token) : Reading Level := do
  match t.kind with
  | .arith .subtract => return { l with progress := l.progress.negate }
  | .arith .add => return l
  | .number => return { l with progress := l.progress.put (.number t.slice) }
  | .singleQuoted | .doubleQuoted => return { l with progress := l.progress.put (.text t.unescaped) }
  | .duration | .dateTime => return { l with progress := l.progress.put (.text t.slice) }
  | .word => return { l with progress := l.progress.put (← reference evals t.slice) }
  | .param => return { l with progress := l.progress.put (← reference evals (paramName t.slice)) }
  | .comma => if l.inCall then throw .missingOperand else throw (.unexpected t.slice)
  | _ => throw (.unexpected t.slice)

def readOperator (l : Level) (chain : Chain) (n : Node) : Except ScalarError Level :=
  match BinaryOp.ofKind? n.kind with
  | some op => .ok { l with progress := .operand chain op 0 }
  | none => if l.inCall && n.kind == .comma then l.nextArgument else .error (.unexpected n.text)

mutual

def readNode (evals : Evals) (l : Level) : Node → Reading Level
  | .token t =>
    match l.progress with
    | .complete chain => readOperator l chain (.token t)
    | _ => readOperand evals l t
  | .group kind source span children =>
    match l.progress with
    | .complete chain => readOperator l chain (.group kind source span children)
    | _ =>
      match kind with
      | .function name .. => do
        if children.isEmpty then
          return { l with progress := l.progress.put (.call name.slice []) }
        else if hasGap true children then throw .missingArgument
        else
          let inner ← (← readNodes evals { inCall := true } children).nextArgument
          return { l with progress := l.progress.put (.call name.slice inner.args) }
      | .root | .bracket .. => do
        let inner ← readNodes evals { inCall := false } children
        return { l with progress := l.progress.put (← inner.progress.finish) }
      | _ => throw (.unexpected (Text.slice source span))

def readNodes (evals : Evals) (l : Level) : List Node → Reading Level
  | [] => return l
  | n :: ns => do readNodes evals (← readNode evals l n) ns

end

def read (evals : Evals) (nodes : List Node) : Reading Expr := do
  (← readNodes evals { inCall := false } nodes).progress.finish

/-- The expression that the nodes make up, or why they make up none, and the fields used by then. -/
def run (index : FieldIndex) (evals : Evals) (nodes : List Node) :
    Except ScalarError Expr × FieldIndex :=
  (read evals nodes).run index

end PipeQuery.Scalar
