import PipeQuery.Group
import PipeQuery.Text.Shown

/-!
What a session prints: the tokens of a query, its groups, and where an error is.
-/
namespace PipeQuery

def Relation.label : Relation → String
  | .equal => "Equals"
  | .notEqual => "NotEquals"
  | .greater => "GreaterThan"
  | .greaterEqual => "GreaterThanOrEqualTo"
  | .less => "LessThan"
  | .lessEqual => "LessThanOrEqualTo"

def Arith.label : Arith → String
  | .power => "Order"
  | .divide => "Division"
  | .multiply => "Multiplication"
  | .modulo => "Modulus"
  | .add => "Plus"
  | .subtract => "Minus"

def Logic.label : Logic → String
  | .and => "And"
  | .or => "Or"
  | .not => "Not"

def Clause.label : Clause → String
  | .source => "From"
  | .restrict => "Where"
  | .eval => "Eval"
  | .window => "Window"
  | .filter => "Filter"
  | .sort => "Sort"
  | .group => "Group"
  | .having => "Having"
  | .select => "Select"
  | .limit => "Limit"
  | .present => "Show"

def TokenKind.label : TokenKind → String
  | .unknown => "Unknown"
  | .pipe => "Pipe"
  | .command => "Command"
  | .functionName => "FunctionName"
  | .openBracket => "OpenBracket"
  | .closeBracket => "CloseBracket"
  | .pipeGroup => "PipeGroup"
  | .tokenGroup => "TokenGroup"
  | .functionGroup => "FunctionGroup"
  | .whitespace => "Whitespace"
  | .comment => "Comment"
  | .blockComment => "BlockComment"
  | .singleQuoted => "SingleQuotedString"
  | .doubleQuoted => "DoubleQuotedString"
  | .word => "String"
  | .number => "Number"
  | .duration => "Duration"
  | .dateTime => "DateTime"
  | .param => "Param"
  | .comma => "Comma"
  | .arith op => op.label
  | .relation r => r.label
  | .isNull => "IsNull"
  | .isNotNull => "IsNotNull"
  | .between => "Between"
  | .betweenAnd => "BetweenAnd"
  | .inList => "In"
  | .logic op => op.label
  | .byWord => "By"
  | .asWord => "As"
  | .clause c => c.label
  | .dictionary => "Dictionary"

namespace Listing

def token (t : Token) : String :=
  t.kind.label ++ "[" ++ toString t.span.start ++ ".." ++ toString t.span.stop ++ "] " ++
    Text.shown t.slice

def copies (n : Nat) (c : Char) : String := String.ofList (List.replicate n c)

def treeLine (depth : Nat) (kind : TokenKind) (text : String) : String :=
  copies (2 * depth) ' ' ++ kind.name ++ " " ++ Text.shown text

mutual

def tree (depth : Nat) : Node → List String
  | .token t => [treeLine depth t.kind t.slice]
  | .group kind source span children =>
    treeLine depth kind.tokenKind (Text.slice source span) :: treeList (depth + 1) children

def treeList (depth : Nat) : List Node → List String
  | [] => []
  | n :: ns => tree depth n ++ treeList depth ns

end

/-- The line of a query in which a span starts, and carets below the characters of the span that are
on this line, at least one. There are no lines if the span does not start in the query. -/
def carets (query : String) (span : Span) : List String :=
  match Text.cut? span.start query.toList with
  | none => []
  | some (before, after) =>
    let left := (before.reverse.takeWhile (· != '\n')).reverse
    let right := after.takeWhile (· != '\n')
    let width :=
      match Text.cut? (min (span.stop - span.start) (Text.byteLength right)) right with
      | some (under, _) => max 1 under.length
      | none => 1
    ["  " ++ String.ofList left ++ String.ofList right,
      "  " ++ copies left.length ' ' ++ copies width '^']

def error (query : String) (e : SyntaxError) : List String :=
  ("Error: " ++ e.message) ::
    match e.place with
    | none => []
    | some place => carets query place.span

end Listing

end PipeQuery
