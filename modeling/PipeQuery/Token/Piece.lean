import PipeQuery.Token.Kind

/-!
Pieces of a text, and scanning. A text is one unclassified piece at first. A rule looks at a
position of such a piece and either leaves the characters there or marks them as a lexeme; scanning
applies a rule from left to right. Whatever the rule, the pieces spell the characters scanned.
-/
namespace PipeQuery

structure Piece where
  kind : TokenKind
  chars : List Char
  deriving DecidableEq, Repr

namespace Piece

def spell (pieces : List Piece) : List Char := pieces.flatMap (·.chars)

/-- Puts unclassified characters in front, in one piece with those that follow. -/
def prepend (cs : List Char) : List Piece → List Piece
  | ⟨.unknown, rest⟩ :: pieces => ⟨.unknown, cs ++ rest⟩ :: pieces
  | pieces => ⟨.unknown, cs⟩ :: pieces

def refine (split : List Char → List Piece) (pieces : List Piece) : List Piece :=
  pieces.flatMap fun p => if p.kind = .unknown then split p.chars else [p]

def classify (kindOf? : List Char → Option TokenKind) (pieces : List Piece) : List Piece :=
  pieces.map fun p =>
    if p.kind = .unknown then
      match kindOf? p.chars with
      | some kind => ⟨kind, p.chars⟩
      | none => p
    else p

end Piece

/-- What a rule does at a position. The counts do not include the first character. -/
inductive Cut where
  /-- The first character and `more` further ones stay unclassified. -/
  | leave (more : Nat)
  /-- The first character and `more` further ones are a lexeme. -/
  | mark (kind : TokenKind) (more : Nat)

/-- A rule sees the characters before a position, nearest first, and those from it on. -/
abbrev Rule := List Char → List Char → Cut

/-- Applies a rule from left to right, after `skip` characters that have been dealt with. -/
def Rule.scan (rule : Rule) : Nat → List Char → List Char → List Piece
  | _, _, [] => []
  | skip + 1, before, c :: cs => scan rule skip (c :: before) cs
  | 0, before, c :: cs =>
    match rule before (c :: cs) with
    | .leave more => Piece.prepend (c :: cs.take more) (scan rule more (c :: before) cs)
    | .mark kind more => ⟨kind, c :: cs.take more⟩ :: scan rule more (c :: before) cs

def Rule.split (rule : Rule) (cs : List Char) : List Piece := rule.scan 0 [] cs

def Rule.single (kind : TokenKind) (p : Char → Bool) : Rule
  | _, c :: _ => if p c then .mark kind 0 else .leave 0
  | _, [] => .leave 0

end PipeQuery
