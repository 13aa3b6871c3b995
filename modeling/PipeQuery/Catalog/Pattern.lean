import PipeQuery.Text.Character

/-!
Patterns of field names: literals, any character, repetition, choice and groups. A pattern has to
match a whole name, and the case of letters does not matter. A name is matched one character at a
time, with the list of the patterns that may match what is left of it.
-/
namespace PipeQuery

inductive Pattern where
  /-- Matches no name. -/
  | none
  /-- Matches the empty name. -/
  | empty
  /-- Matches one letter up to case. -/
  | char (c : Char)
  /-- Matches one character other than a line end. -/
  | any
  | seq (first second : Pattern)
  | alt (left right : Pattern)
  | star (p : Pattern)
  deriving DecidableEq, Repr

namespace Pattern

/-- A sequence, without parts that do nothing. -/
def andThen : Pattern → Pattern → Pattern
  | .none, _ => .none
  | _, .none => .none
  | .empty, q => q
  | p, .empty => p
  | p, q => .seq p q

def optional (p : Pattern) : Pattern := .alt p .empty

def plus (p : Pattern) : Pattern := .seq p (.star p)

def nullable : Pattern → Bool
  | .none => false
  | .empty => true
  | .char _ => false
  | .any => false
  | .seq p q => p.nullable && q.nullable
  | .alt p q => p.nullable || q.nullable
  | .star _ => true

/-- The patterns of which one has to match after a character. -/
def partials (c : Char) : Pattern → List Pattern
  | .none => []
  | .empty => []
  | .char d => if Text.sameLetter d c then [.empty] else []
  | .any => if c = '\n' then [] else [.empty]
  | .seq p q =>
    let first := (p.partials c).map (·.andThen q)
    if p.nullable then first ++ q.partials c else first
  | .alt p q => p.partials c ++ q.partials c
  | .star p => (p.partials c).map (·.andThen (.star p))

/-- The patterns that are left of several ones after a character, each of them once. -/
def step (patterns : List Pattern) (c : Char) : List Pattern :=
  (patterns.flatMap (partials c)).eraseDups

def acceptsChars (p : Pattern) (cs : List Char) : Bool := (cs.foldl step [p]).any nullable

def accepts (p : Pattern) (name : String) : Bool := p.acceptsChars name.toList

/-- The characters that mean something in the text of a pattern. They stand for themselves after a
backslash. -/
def special : List Char := "\\.+*?()|[]\x7b\x7d^$#&-~".toList

/-- A group that is being read: the choices before the current one, and the parts of the current
one, latest first. -/
structure Choice where
  before : Pattern := .none
  parts : List Pattern := []

namespace Choice

def current (c : Choice) : Pattern := c.parts.foldl (fun rest p => p.andThen rest) .empty

def close (c : Choice) : Pattern := if c.before = .none then c.current else .alt c.before c.current

def add (c : Choice) (p : Pattern) : Choice := { c with parts := p :: c.parts }

def modify? (c : Choice) (f : Pattern → Pattern) : Option Choice :=
  match c.parts with
  | [] => Option.none
  | p :: ps => some { c with parts := f p :: ps }

end Choice

/-- Reads the text of a pattern into the innermost group. Texts that are no pattern, and texts with
character classes, counted repetitions or anchors, give none. -/
def readChars : List Choice → Choice → List Char → Option Pattern
  | [], group, [] => some group.close
  | _ :: _, _, [] => Option.none
  | outer, group, '\\' :: c :: cs =>
    if special.contains c then readChars outer (group.add (.char c)) cs else Option.none
  | outer, group, c :: cs =>
    match c with
    | '(' => readChars (group :: outer) {} cs
    | ')' =>
      match outer with
      | [] => Option.none
      | around :: outer => readChars outer (around.add group.close) cs
    | '|' => readChars outer { before := group.close } cs
    | '*' => (group.modify? .star).bind fun group => readChars outer group cs
    | '+' => (group.modify? plus).bind fun group => readChars outer group cs
    | '?' => (group.modify? optional).bind fun group => readChars outer group cs
    | '.' => readChars outer (group.add .any) cs
    | '\\' | '[' | '\x7b' | '^' | '$' => Option.none
    | c => readChars outer (group.add (.char c)) cs

def ofText? (text : String) : Option Pattern := readChars [] {} text.toList

def wildcardChar (c : Char) : List Char :=
  if c = '*' then ['.', '*']
  else if c = '?' then ['.', '?']
  else if special.contains c then ['\\', c]
  else [c]

/-- The text of the pattern for a wildcard, in which a star stands for any run of characters and a
question mark for at most one. A star alone needs no pattern. -/
def ofWildcard? (wildcard : String) : Option String :=
  if wildcard = "*" then Option.none
  else some (String.ofList (wildcard.toList.flatMap wildcardChar))

end Pattern

end PipeQuery
