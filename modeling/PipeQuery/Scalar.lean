import PipeQuery.Bindings
import PipeQuery.Token.Kind

/-!
Scalar expressions: fields, literals, function calls and operators, and the form in which columns
show them.
-/
namespace PipeQuery

inductive BinaryOp where
  | arith (op : Arith)
  | relation (r : Relation)
  deriving DecidableEq, Repr

namespace BinaryOp

def ofKind? : TokenKind → Option BinaryOp
  | .arith op => some (.arith op)
  | .relation r => some (.relation r)
  | _ => none

/-- Operators of a greater precedence bind tighter. -/
def precedence : BinaryOp → Nat
  | .relation _ => 1
  | .arith .add | .arith .subtract => 2
  | .arith .multiply | .arith .divide | .arith .modulo => 3
  | .arith .power => 4

def symbol : BinaryOp → String
  | .arith op => op.symbol
  | .relation r => r.symbol

end BinaryOp

inductive Expr where
  | field (name : String)
  | text (value : String)
  /-- A number, as it was written. -/
  | number (written : String)
  | call (name : String) (args : List Expr)
  | negate (e : Expr)
  | binary (op : BinaryOp) (left right : Expr)
  deriving Repr

mutual

def Expr.decEq : (a b : Expr) → Decidable (a = b)
  | .field a, .field b =>
    if h : a = b then isTrue (h ▸ rfl) else isFalse fun e => h (Expr.field.inj e)
  | .text a, .text b =>
    if h : a = b then isTrue (h ▸ rfl) else isFalse fun e => h (Expr.text.inj e)
  | .number a, .number b =>
    if h : a = b then isTrue (h ▸ rfl) else isFalse fun e => h (Expr.number.inj e)
  | .call n₁ a₁, .call n₂ a₂ =>
    if h : n₁ = n₂ then
      match Expr.decEqList a₁ a₂ with
      | isTrue ha => isTrue (by rw [h, ha])
      | isFalse ha => isFalse fun e => ha (Expr.call.inj e).2
    else isFalse fun e => h (Expr.call.inj e).1
  | .negate a, .negate b =>
    match Expr.decEq a b with
    | isTrue h => isTrue (by rw [h])
    | isFalse h => isFalse fun e => h (Expr.negate.inj e)
  | .binary o₁ l₁ r₁, .binary o₂ l₂ r₂ =>
    if h : o₁ = o₂ then
      match Expr.decEq l₁ l₂, Expr.decEq r₁ r₂ with
      | isTrue hl, isTrue hr => isTrue (by rw [h, hl, hr])
      | isFalse hl, _ => isFalse fun e => hl (Expr.binary.inj e).2.1
      | _, isFalse hr => isFalse fun e => hr (Expr.binary.inj e).2.2
    else isFalse fun e => h (Expr.binary.inj e).1
  | .field _, .text _ | .field _, .number _ | .field _, .call .. | .field _, .negate _
  | .field _, .binary .. | .text _, .field _ | .text _, .number _ | .text _, .call ..
  | .text _, .negate _ | .text _, .binary .. | .number _, .field _ | .number _, .text _
  | .number _, .call .. | .number _, .negate _ | .number _, .binary .. | .call .., .field _
  | .call .., .text _ | .call .., .number _ | .call .., .negate _ | .call .., .binary ..
  | .negate _, .field _ | .negate _, .text _ | .negate _, .number _ | .negate _, .call ..
  | .negate _, .binary .. | .binary .., .field _ | .binary .., .text _ | .binary .., .number _
  | .binary .., .call .. | .binary .., .negate _ => isFalse nofun

def Expr.decEqList : (a b : List Expr) → Decidable (a = b)
  | [], [] => isTrue rfl
  | a :: as, b :: bs =>
    match Expr.decEq a b, Expr.decEqList as bs with
    | isTrue h, isTrue hs => isTrue (by rw [h, hs])
    | isFalse h, _ => isFalse fun e => h (List.cons.inj e).1
    | _, isFalse hs => isFalse fun e => hs (List.cons.inj e).2
  | [], _ :: _ => isFalse nofun
  | _ :: _, [] => isFalse nofun

end

instance : DecidableEq Expr := Expr.decEq

namespace Expr

/-- Whether an expression needs brackets as an operand. -/
def isBinary : Expr → Bool
  | .binary .. => true
  | _ => false

def bracketIf (b : Bool) (s : String) : String :=
  if b then "(" ++ s ++ ")" else s

def escapeQuote (c : Char) : List Char :=
  if c = '\'' then ['\\', '\''] else [c]

mutual

def render : Expr → String
  | .field name => "$\x7b" ++ name ++ "\x7d"
  | .text value => "'" ++ String.ofList (value.toList.flatMap escapeQuote) ++ "'"
  | .number written => written
  | .call name args => name ++ "(" ++ ", ".intercalate (renderList args) ++ ")"
  | .negate e => "-" ++ bracketIf e.isBinary e.render
  | .binary op left right =>
    bracketIf left.isBinary left.render ++ " " ++ op.symbol ++ " " ++
      bracketIf right.isBinary right.render

def renderList : List Expr → List String
  | [] => []
  | e :: es => e.render :: renderList es

end

end Expr

/-- Operands with operators between them: a first operand, then operators with their right sides. -/
structure Chain where
  first : Expr
  rest : List (BinaryOp × Expr) := []
  deriving DecidableEq, Repr

namespace Chain

def add (c : Chain) (op : BinaryOp) (right : Expr) : Chain := ⟨c.first, c.rest ++ [(op, right)]⟩

/-- Joins the operands around operators of one precedence, from the left. -/
def joinLeft (p : Nat) : Expr → List (BinaryOp × Expr) → Chain
  | e, [] => ⟨e, []⟩
  | e, (op, right) :: rest =>
    if op.precedence = p then joinLeft p (.binary op e right) rest
    else
      let tail := joinLeft p right rest
      ⟨e, (op, tail.first) :: tail.rest⟩

def joinRight (p : Nat) : Expr → List (BinaryOp × Expr) → Chain
  | e, [] => ⟨e, []⟩
  | e, (op, right) :: rest =>
    let tail := joinRight p right rest
    if op.precedence = p then ⟨.binary op e tail.first, tail.rest⟩
    else ⟨e, (op, tail.first) :: tail.rest⟩

/-- The tree of a chain. Powers are joined first, from the right, then the other operators by
falling precedence, from the left. -/
def tree (c : Chain) : Expr :=
  let powers := joinRight 4 c.first c.rest
  let products := joinLeft 3 powers.first powers.rest
  let sums := joinLeft 2 products.first products.rest
  (joinLeft 1 sums.first sums.rest).first

end Chain

/-- The fields that expressions read, in the order of their first use, and where each of them is. -/
structure FieldIndex where
  names : List String := []
  positions : Bindings Nat := {}
  deriving Repr, DecidableEq

namespace FieldIndex

def get? (index : FieldIndex) (name : String) : Option Nat := index.positions.get? name

/-- The position of a field, which is added when it has not been used before. -/
def create (index : FieldIndex) (name : String) : Nat × FieldIndex :=
  match index.get? name with
  | some position => (position, index)
  | none =>
    let position := index.names.length
    (position, ⟨index.names ++ [name], index.positions.insert name position⟩)

def insert (index : FieldIndex) (name : String) : FieldIndex := (index.create name).2

end FieldIndex

/-- Expressions with names, to be put in the place of the names. -/
abbrev Evals := Bindings Expr

end PipeQuery
