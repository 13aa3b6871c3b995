import PipeQuery.Group

/-!
From tokens to groups. The tokens are read once from left to right. Every open bracket starts a
level, and its close bracket makes the level a node of the level around it. Within a level, a pipe
or a clause keyword starts a group that takes all nodes up to the next of them. Clause keywords do
so only outside of brackets.
-/
namespace PipeQuery

/-- What opened a level: an open bracket, with the name of the function that it belongs to. -/
inductive Opening where
  | bracket (opening : Token)
  | function (name opening : Token)

namespace Opening

def token : Opening → Token
  | .bracket opening => opening
  | .function _ opening => opening

def close (o : Opening) (closing : Token) (children : List Node) : Node :=
  match o with
  | .bracket opening =>
    (Group.cover (.bracket opening closing) opening.source (opening.span.join closing.span)
      children).toNode
  | .function name opening =>
    (Group.cover (.function name opening closing) name.source (name.span.join closing.span)
      children).toNode

end Opening

structure OpenClause where
  kind : GroupKind
  source : String
  span : Span
  children : List Node := []

def OpenClause.close (c : OpenClause) : Node :=
  (Group.cover c.kind c.source c.span c.children).toNode

structure Level where
  done : List Node := []
  current : Option OpenClause := none

namespace Level

def add (l : Level) (n : Node) : Level :=
  match l.current with
  | some c => { l with current := some { c with children := c.children ++ [n] } }
  | none => { l with done := l.done ++ [n] }

def nodes (l : Level) : List Node :=
  match l.current with
  | some c => l.done ++ [c.close]
  | none => l.done

def start (l : Level) (c : OpenClause) : Level := ⟨l.nodes, some c⟩

end Level

/-- Reads tokens into the innermost level. The levels around it stand in the list, each with what
opened the level inside of it. -/
def Level.read : List (Opening × Level) → Level → List Token → Except SyntaxError (List Node)
  | [], level, [] => .ok level.nodes
  | (opening, _) :: _, _, [] => .error ⟨.unclosedBracket, some opening.token.place⟩
  | outer, level, t :: ts =>
    match t.kind with
    | .closeBracket =>
      match outer with
      | [] => .error ⟨.closeWithoutOpen, some t.place⟩
      | (opening, around) :: outer => read outer (around.add (opening.close t level.nodes)) ts
    | .pipe =>
      match ts with
      | [] => .error ⟨.missingCommand, some t.place⟩
      | c :: ts =>
        if c.kind = .command then
          read outer (level.start ⟨.pipe t c, t.source, t.span.join c.span, []⟩) ts
        else .error ⟨.missingCommand, some t.place⟩
    | .functionName =>
      match ts with
      | [] => .error ⟨.missingOpenBracket, some t.place⟩
      | b :: ts =>
        if b.kind = .openBracket then read ((.function t b, level) :: outer) {} ts
        else .error ⟨.missingOpenBracket, some t.place⟩
    | .openBracket => read ((.bracket t, level) :: outer) {} ts
    | .clause _ =>
      match outer with
      | [] => read [] (level.start ⟨.clause t, t.source, t.span, []⟩) ts
      | _ :: _ => read outer (level.add (.token t)) ts
    | _ => read outer (level.add (.token t)) ts

/-- The span from the first token to the last, empty at the start of the text without tokens. -/
def Token.extent : List Token → Span
  | [] => ⟨0, 0⟩
  | t :: ts => t.span.join ((ts.getLast?.getD t).span)

/-- The root group of a list of tokens, which are taken from the text of the first of them. Blanks
and comments are left out. -/
def Group.ofTokens (tokens : List Token) : Except SyntaxError Group := do
  let source := (tokens.head?.map (·.source)).getD ""
  let meaningful := tokens.filter fun t => !t.kind.isIgnorable
  let children ← Level.read [] {} meaningful
  return .cover .root source (Token.extent meaningful) children

end PipeQuery
