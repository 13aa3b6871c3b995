import PipeQuery.Error

/-!
Groups of tokens: brackets, function calls, pipes and clauses, each with what it holds.
-/
namespace PipeQuery

/-- What a group was made from, with the tokens that frame it. -/
inductive GroupKind where
  | root
  | bracket (opening closing : Token)
  | function (name opening closing : Token)
  | pipe (bar command : Token)
  | clause (keyword : Token)
  deriving DecidableEq, Repr

/-- The kind that a group presents. A clause presents the kind of its keyword. -/
def GroupKind.tokenKind : GroupKind → TokenKind
  | .root | .bracket .. => .tokenGroup
  | .function .. => .functionGroup
  | .pipe .. => .pipeGroup
  | .clause keyword => keyword.kind

inductive Node where
  | token (t : Token)
  | group (kind : GroupKind) (source : String) (span : Span) (children : List Node)
  deriving Repr

structure Group where
  kind : GroupKind
  source : String
  span : Span
  children : List Node
  deriving Repr

mutual

def Node.decEq : (a b : Node) → Decidable (a = b)
  | .token a, .token b =>
    if h : a = b then isTrue (h ▸ rfl) else isFalse fun e => h (Node.token.inj e)
  | .group k₁ s₁ p₁ c₁, .group k₂ s₂ p₂ c₂ =>
    if h : k₁ = k₂ ∧ s₁ = s₂ ∧ p₁ = p₂ then
      match Node.decEqList c₁ c₂ with
      | isTrue hc => isTrue (by rw [h.1, h.2.1, h.2.2, hc])
      | isFalse hc => isFalse fun e => hc (Node.group.inj e).2.2.2
    else isFalse fun e => h ⟨(Node.group.inj e).1, (Node.group.inj e).2.1, (Node.group.inj e).2.2.1⟩
  | .token _, .group .. => isFalse nofun
  | .group .., .token _ => isFalse nofun

def Node.decEqList : (a b : List Node) → Decidable (a = b)
  | [], [] => isTrue rfl
  | a :: as, b :: bs =>
    match Node.decEq a b, Node.decEqList as bs with
    | isTrue h, isTrue hs => isTrue (by rw [h, hs])
    | isFalse h, _ => isFalse fun e => h (List.cons.inj e).1
    | _, isFalse hs => isFalse fun e => hs (List.cons.inj e).2
  | [], _ :: _ => isFalse nofun
  | _ :: _, [] => isFalse nofun

end

instance : DecidableEq Node := Node.decEq

deriving instance DecidableEq for Group

namespace Group

def toNode (g : Group) : Node := .group g.kind g.source g.span g.children

/-- The text from the first to the last byte of the group. -/
def text (g : Group) : String := Text.slice g.source g.span

def place (g : Group) : Place := ⟨g.span, g.text⟩

def tokenKind (g : Group) : TokenKind := g.kind.tokenKind

def functionName? (g : Group) : Option String :=
  match g.kind with
  | .function name .. => some name.slice
  | _ => none

def clauseToken? (g : Group) : Option Token :=
  match g.kind with
  | .pipe _ command => some command
  | .clause keyword => some keyword
  | _ => none

def command (g : Group) : Except SyntaxError Command :=
  match g.kind with
  | .pipe _ command =>
    match Command.ofName? command.slice with
    | some c => .ok c
    | none => .error ⟨.unknownCommand command.slice, some command.place⟩
  | _ => .error ⟨.notAPipe, some g.place⟩

end Group

namespace Node

def kind : Node → TokenKind
  | .token t => t.kind
  | .group k .. => k.tokenKind

def span : Node → Span
  | .token t => t.span
  | .group _ _ span _ => span

def text : Node → String
  | .token t => t.text
  | .group _ source span _ => Text.slice source span

def unescaped : Node → String
  | .token t => t.unescaped
  | .group _ source span _ => Text.slice source span

def place : Node → Place
  | .token t => t.place
  | .group _ source span _ => ⟨span, Text.slice source span⟩

def isString (n : Node) : Bool := n.kind.isString

def group? : Node → Option Group
  | .group kind source span children => some ⟨kind, source, span, children⟩
  | .token _ => none

def bracket? : Node → Option Group
  | .group (.bracket o c) source span children => some ⟨.bracket o c, source, span, children⟩
  | _ => none

def function? : Node → Option Group
  | .group (.function n o c) source span children => some ⟨.function n o c, source, span, children⟩
  | _ => none

end Node

/-- The group of the children, with its first span widened to cover them. -/
def Group.cover (kind : GroupKind) (source : String) (span : Span) (children : List Node) : Group :=
  ⟨kind, source, span.joinAll (children.map (·.span)), children⟩

/-- The tokens of a group with the given tokens inside. -/
def GroupKind.wrap (inside : List Token) : GroupKind → List Token
  | .root => inside
  | .bracket opening closing => opening :: inside ++ [closing]
  | .function name opening closing => name :: opening :: inside ++ [closing]
  | .pipe bar command => bar :: command :: inside
  | .clause keyword => keyword :: inside

mutual

def Node.flatten : Node → List Token
  | .token t => [t]
  | .group kind _ _ children => kind.wrap (Node.flattenList children)

def Node.flattenList : List Node → List Token
  | [] => []
  | n :: ns => n.flatten ++ Node.flattenList ns

end

def Group.flatten (g : Group) : List Token := g.kind.wrap (Node.flattenList g.children)

end PipeQuery
