import PipeQuery.Clause

/-!
The kinds of tokens, with the operators that are kinds of their own.
-/
namespace PipeQuery

inductive Relation where
  | equal
  | notEqual
  | greater
  | greaterEqual
  | less
  | lessEqual
  deriving DecidableEq, Repr

namespace Relation

def all : List Relation := [.equal, .notEqual, .greater, .greaterEqual, .less, .lessEqual]

def symbol : Relation → String
  | .equal => "="
  | .notEqual => "!="
  | .greater => ">"
  | .greaterEqual => ">="
  | .less => "<"
  | .lessEqual => "<="

end Relation

inductive Arith where
  | power
  | divide
  | multiply
  | modulo
  | add
  | subtract
  deriving DecidableEq, Repr

namespace Arith

def all : List Arith := [.power, .divide, .multiply, .modulo, .add, .subtract]

def symbol : Arith → String
  | .power => "^"
  | .divide => "/"
  | .multiply => "*"
  | .modulo => "%"
  | .add => "+"
  | .subtract => "-"

end Arith

inductive Logic where
  | and
  | or
  | not
  deriving DecidableEq, Repr

namespace Logic

def all : List Logic := [.and, .or, .not]

/-- The connective as it is written in a query. -/
def keyword : Logic → String
  | .and => "and"
  | .or => "or"
  | .not => "not"

/-- The connective as it is written in a filter. -/
def symbol : Logic → String
  | .and => "AND"
  | .or => "OR"
  | .not => "NOT"

end Logic

/-- What a token is. The kinds that end in `Group` are never the kind of a token: they are how a
group of tokens presents itself. -/
inductive TokenKind where
  /-- Text that no rule has classified yet. -/
  | unknown
  | pipe
  /-- The name after a pipe. -/
  | command
  /-- A name directly before an open bracket. -/
  | functionName
  | openBracket
  | closeBracket
  | pipeGroup
  | tokenGroup
  | functionGroup
  | whitespace
  /-- From two slashes to the end of the line. -/
  | comment
  /-- Between a slash with a star and a star with a slash. -/
  | blockComment
  | singleQuoted
  | doubleQuoted
  /-- Any other text without blanks. -/
  | word
  | number
  | duration
  | dateTime
  /-- A name in braces after a dollar sign. -/
  | param
  | comma
  | arith (op : Arith)
  | relation (r : Relation)
  | isNull
  | isNotNull
  | between
  /-- The `and` that separates the bounds of a `between`. -/
  | betweenAnd
  | inList
  | logic (op : Logic)
  | byWord
  | asWord
  | clause (c : Clause)
  | dictionary
  deriving DecidableEq, Repr

namespace TokenKind

def all : List TokenKind :=
  [.unknown, .pipe, .command, .functionName, .openBracket, .closeBracket, .pipeGroup, .tokenGroup,
    .functionGroup, .whitespace, .comment, .blockComment, .singleQuoted, .doubleQuoted, .word,
    .number, .duration, .dateTime, .param, .comma] ++
  Arith.all.map arith ++ Relation.all.map relation ++
  [.isNull, .isNotNull, .between, .betweenAnd, .inList] ++
  Logic.all.map logic ++ [.byWord, .asWord] ++ Clause.all.map clause ++ [.dictionary]

def name : TokenKind → String
  | .unknown => "unknown"
  | .pipe => "pipe"
  | .command => "command"
  | .functionName => "function name"
  | .openBracket => "open bracket"
  | .closeBracket => "close bracket"
  | .pipeGroup => "pipe group"
  | .tokenGroup => "token group"
  | .functionGroup => "function group"
  | .whitespace => "whitespace"
  | .comment => "comment"
  | .blockComment => "block comment"
  | .singleQuoted => "single quoted string"
  | .doubleQuoted => "double quoted string"
  | .word => "string"
  | .number => "number"
  | .duration => "duration"
  | .dateTime => "date time"
  | .param => "param"
  | .comma => "comma"
  | .arith op => op.symbol
  | .relation r => r.symbol
  | .isNull => "is null"
  | .isNotNull => "is not null"
  | .between => "between"
  | .betweenAnd => "between and"
  | .inList => "in"
  | .logic op => op.keyword
  | .byWord => "by"
  | .asWord => "as"
  | .clause c => c.name
  | .dictionary => "dictionary"

def ofName? (name : String) : Option TokenKind :=
  all.find? (·.name == name)

def isQuoted : TokenKind → Bool
  | .singleQuoted | .doubleQuoted => true
  | _ => false

/-- A word or a quoted literal. -/
def isString : TokenKind → Bool
  | .word | .singleQuoted | .doubleQuoted => true
  | _ => false

/-- Tokens that mean nothing to the structure of a query. -/
def isIgnorable : TokenKind → Bool
  | .whitespace | .comment | .blockComment => true
  | _ => false

def isLogic : TokenKind → Bool
  | .logic _ => true
  | _ => false

def isClause : TokenKind → Bool
  | .clause _ => true
  | _ => false

def clause? : TokenKind → Option Clause
  | .clause c => some c
  | _ => none

end TokenKind

end PipeQuery
