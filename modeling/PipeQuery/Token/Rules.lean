import PipeQuery.Text.Character
import PipeQuery.Token.Basic
import PipeQuery.Token.Piece

/-!
The rules of the lexer: text that hides other text (quoted literals, comments and parameters), words
(keywords, command names, function names, null tests and operators), and the shapes of number,
duration and date-time literals.
-/
namespace PipeQuery

namespace Literal

/-- The number of characters up to the end of a block comment, all of them if it does not end. -/
def blockTail : List Char → Nat
  | [] => 0
  | '*' :: '/' :: _ => 2
  | _ :: cs => 1 + blockTail cs

/-- Quoted literals and comments. One scan finds both, since a quote in a comment opens no literal
and a comment mark in a literal opens no comment. -/
def quotesAndComments : Rule
  | _, '"' :: cs => .mark .doubleQuoted (Quoted.tailLength '"' cs)
  | _, '\'' :: cs => .mark .singleQuoted (Quoted.tailLength '\'' cs)
  | _, '/' :: '/' :: cs => .mark .comment (1 + (cs.takeWhile (· != '\n')).length)
  | _, '/' :: '*' :: cs => .mark .blockComment (1 + blockTail cs)
  | _, _ => .leave 0

/-- A dollar sign and everything up to the brace that closes the one after it. -/
def params : Rule
  | _, '$' :: '\x7b' :: cs =>
    let name := cs.takeWhile (· != '\x7d')
    if name.length < cs.length then .mark .param (2 + name.length) else .leave 0
  | _, _ => .leave 0

end Literal

namespace Words

def keywords : List (String × TokenKind) :=
  [("and", .logic .and), ("or", .logic .or), ("not", .logic .not), ("by", .byWord), ("as", .asWord),
    ("between", .between), ("in", .inList), ("dictionary", .dictionary)] ++
  Clause.all.map fun c => (c.name, .clause c)

def keyword? (cs : List Char) : Option TokenKind :=
  (keywords.find? fun (word, _) => Text.sameIgnoringCaseChars word.toList cs).map (·.2)

def arith? (cs : List Char) : Option TokenKind :=
  (Arith.all.find? fun op => op.symbol.toList == cs).map .arith

/-- A command name is an identifier after a pipe and blanks. -/
def commands : Rule
  | before, c :: cs =>
    if Text.isIdentifierStart c && (before.dropWhile Text.isBlank).head? == some '|' then
      .mark .command (cs.takeWhile Text.isIdentifierRest).length
    else .leave 0
  | _, [] => .leave 0

/-- A function name is an identifier directly before an open bracket, unless it is a keyword. -/
def functionNames : Rule
  | _, c :: cs =>
    if Text.isIdentifierStart c then
      let more := (cs.takeWhile Text.isIdentifierRest).length
      if (cs.drop more).head? == some '(' && (keyword? (c :: cs.take more)).isNone then
        .mark .functionName more
      else .leave more
    else .leave 0
  | _, [] => .leave 0

def afterWord? : List Char → List Char → Option (List Char)
  | [], cs => some cs
  | w :: ws, c :: cs => if Text.sameLetter w c then afterWord? ws cs else none
  | _ :: _, [] => none

def afterBlanks? (cs : List Char) : Option (List Char) :=
  if (cs.head?.any Text.isBlank) then some (cs.dropWhile Text.isBlank) else none

/-- What follows the words, which have blanks between them and a blank or the end after them. -/
def afterPhrase? : List String → List Char → Option (List Char)
  | [], cs => some cs
  | [word], cs => do
    let rest ← afterWord? word.toList cs
    if rest.head?.all Text.isBlank then some rest else none
  | word :: words, cs => do
    afterPhrase? words (← afterBlanks? (← afterWord? word.toList cs))

def phrase (kind : TokenKind) (words : List String) : Rule
  | before, cs =>
    if before.head?.all Text.isBlank then
      match afterPhrase? words cs with
      | some rest => .mark kind (cs.length - rest.length - 1)
      | none => .leave 0
    else .leave 0

def blanks : Rule
  | _, c :: cs =>
    if Text.isBlank c then .mark .whitespace (cs.takeWhile Text.isBlank).length else .leave 0
  | _, [] => .leave 0

/-- Relations need no blanks around them. The longer of two relations is taken. -/
def relations : Rule
  | _, '!' :: '=' :: _ => .mark (.relation .notEqual) 1
  | _, '<' :: '=' :: _ => .mark (.relation .lessEqual) 1
  | _, '>' :: '=' :: _ => .mark (.relation .greaterEqual) 1
  | _, '<' :: _ => .mark (.relation .less) 0
  | _, '>' :: _ => .mark (.relation .greater) 0
  | _, '=' :: _ => .mark (.relation .equal) 0
  | _, _ => .leave 0

end Words

namespace Shape

def afterDigits? (cs : List Char) : Option (List Char) :=
  if cs.head?.any Text.isDecimal then some (cs.dropWhile Text.isDecimal) else none

def afterOneOf? (allowed : List Char) : List Char → Option (List Char)
  | c :: cs => if allowed.contains c then some cs else none
  | [] => none

def afterExactly? : Nat → List Char → Option (List Char)
  | 0, cs => some cs
  | n + 1, c :: cs => if Text.isDecimal c then afterExactly? n cs else none
  | _ + 1, [] => none

def afterExponent? (cs : List Char) : Option (List Char) :=
  match afterOneOf? ['e', 'E'] cs with
  | none => some cs
  | some rest => afterDigits? ((afterOneOf? ['+', '-'] rest).getD rest)

def afterFraction? : List Char → Option (List Char)
  | '.' :: cs => afterDigits? cs
  | cs => some cs

/-- An optional minus sign, digits, an optional fraction and an optional exponent. -/
def isNumber (cs : List Char) : Bool :=
  (do
    let whole ← afterDigits? ((afterOneOf? ['-'] cs).getD cs)
    afterExponent? (← afterFraction? whole)) == some []

def units : List String := ["ns", "ms", "s", "m", "h", "d", "w", "M", "y"]

def isDuration (cs : List Char) : Bool :=
  match afterDigits? cs with
  | some unit => units.any fun u => u.toList == unit
  | none => false

def afterSeconds? (cs : List Char) : Option (List Char) := do
  let cs ← afterOneOf? ['-'] (← afterExactly? 4 cs)
  let cs ← afterOneOf? ['-'] (← afterExactly? 2 cs)
  let cs ← afterOneOf? ['T'] (← afterExactly? 2 cs)
  let cs ← afterOneOf? [':'] (← afterExactly? 2 cs)
  let cs ← afterOneOf? [':'] (← afterExactly? 2 cs)
  afterExactly? 2 cs

/-- What follows an optional fraction of a second with one to nine digits. -/
def afterSubseconds? : List Char → Option (List Char)
  | '.' :: cs =>
    let digits := (cs.takeWhile Text.isDecimal).length
    if 1 ≤ digits && digits ≤ 9 then some (cs.drop digits) else none
  | cs => some cs

/-- The end of a date-time: nothing, a `Z`, or hours and minutes with a sign. -/
def isZone : List Char → Bool
  | [] => true
  | ['Z'] => true
  | cs =>
    (do
      let cs ← afterOneOf? [':'] (← afterExactly? 2 (← afterOneOf? ['+', '-'] cs))
      afterExactly? 2 cs) == some []

def isDateTime (cs : List Char) : Bool :=
  match (afterSeconds? cs).bind afterSubseconds? with
  | some zone => isZone zone
  | none => false

end Shape

end PipeQuery
