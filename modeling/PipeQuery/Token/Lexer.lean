import PipeQuery.Token.Basic
import PipeQuery.Token.Rules

/-!
The lexer: an ordered list of stages. Each stage works on the pieces that are still unclassified and
leaves the others alone, so the order of the stages is the precedence of the language. No text is
refused, since what is left at the end is a word.
-/
namespace PipeQuery.Lexer

/-- The first `and` after a `between` separates its bounds. A pipe or a close bracket ends the
wait for it. -/
def markBetween : Bool → List Piece → List Piece
  | _, [] => []
  | waiting, p :: ps =>
    match p.kind with
    | .between => p :: markBetween true ps
    | .logic .and =>
      if waiting then ⟨.betweenAnd, p.chars⟩ :: markBetween false ps else p :: markBetween false ps
    | .pipe | .closeBracket => p :: markBetween false ps
    | _ => p :: markBetween waiting ps

/-- Stages that cut pieces, while blanks are still in them. -/
def cutting : List Rule :=
  [Literal.quotesAndComments, Literal.params, Words.commands, Words.functionNames,
    .single .openBracket (· == '('), .single .closeBracket (· == ')'),
    Words.phrase .isNotNull ["is", "not", "null"], Words.phrase .isNull ["is", "null"],
    Words.blanks, .single .pipe (· == '|'), .single .comma (· == ',')]

/-- Stages that name whole pieces: keywords, date-times, durations and arithmetic operators. -/
def naming : List (List Char → Option TokenKind) :=
  [Words.keyword?, fun cs => if Shape.isDateTime cs then some .dateTime else none,
    fun cs => if Shape.isDuration cs then some .duration else none, Words.arith?]

/-- The kind of a piece that relations do not cut any more. -/
def remaining (cs : List Char) : Option TokenKind :=
  if Shape.isNumber cs then some .number else none

def pieces (cs : List Char) : List Piece :=
  let start : List Piece := if cs.isEmpty then [] else [⟨.unknown, cs⟩]
  let cut := cutting.foldl (fun ps rule => Piece.refine rule.split ps) start
  let named := naming.foldl (fun ps kindOf? => Piece.classify kindOf? ps) cut
  let numbered := Piece.classify remaining (Piece.refine Words.relations.split named)
  Piece.classify (fun _ => some .word) (markBetween false numbered)

/-- Places pieces one after the other in the source, from byte `start` on. -/
def layout (source : String) : Nat → List Piece → List Token
  | _, [] => []
  | start, p :: ps =>
    let stop := start + Text.byteLength p.chars
    ⟨p.kind, source, ⟨start, stop⟩⟩ :: layout source stop ps

def tokens (text : String) : List Token := layout text 0 (pieces text.toList)

end PipeQuery.Lexer
