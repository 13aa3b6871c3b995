import PipeQuery.Token.Kind

/-!
Tokens: classified spans of a query text. Spans count the bytes of the UTF-8 form, and a cut is
possible only between two characters. In a quoted literal a backslash hides the character after it,
so that a quote can stand there; a literal without its closing quote runs to the end of the text.
-/
namespace PipeQuery

/-- The bytes from `start` up to, and not including, `stop`. -/
structure Span where
  start : Nat
  stop : Nat
  deriving DecidableEq, Repr, Inhabited

namespace Span

def length (s : Span) : Nat := s.stop - s.start

def isEmpty (s : Span) : Bool := s.start == s.stop

def join (a b : Span) : Span := ⟨min a.start b.start, max a.stop b.stop⟩

def joinAll (s : Span) (others : List Span) : Span := others.foldl join s

end Span

namespace Text

def byteLength : List Char → Nat
  | [] => 0
  | c :: cs => c.utf8Size + byteLength cs

/-- Splits the characters after `n` bytes. There is no split inside a character or past the end. -/
def cut? : Nat → List Char → Option (List Char × List Char)
  | 0, cs => some ([], cs)
  | _ + 1, [] => none
  | n + 1, c :: cs =>
    if n + 1 < c.utf8Size then none
    else (cut? (n + 1 - c.utf8Size) cs).map fun (front, back) => (c :: front, back)

def sliceChars? (cs : List Char) (span : Span) : Option (List Char) := do
  let (_, back) ← cut? span.start cs
  let (front, _) ← cut? (span.stop - span.start) back
  return front

/-- The text that a span covers, empty when the span does not fit. -/
def slice (source : String) (span : Span) : String :=
  String.ofList ((sliceChars? source.toList span).getD [])

end Text

namespace Quoted

def tailLength (quote : Char) : List Char → Nat
  | [] => 0
  | ['\\'] => 1
  | '\\' :: _ :: cs => 2 + tailLength quote cs
  | c :: cs => if c = quote then 1 else 1 + tailLength quote cs

def unescapeBody (quote : Char) : List Char → List Char
  | [] => []
  | ['\\'] => []
  | '\\' :: c :: cs => c :: unescapeBody quote cs
  | c :: cs => if c = quote then [] else c :: unescapeBody quote cs

/-- The characters that a literal stands for. Its first character is the quote. -/
def unescape : List Char → List Char
  | [] => []
  | quote :: body => unescapeBody quote body

end Quoted

structure Place where
  span : Span
  text : String
  deriving DecidableEq, Repr

structure Token where
  kind : TokenKind
  source : String
  span : Span
  deriving DecidableEq, Repr

namespace Token

/-- The token of a span, when the span is in order and its ends lie between characters of the
text. -/
def ofSpan? (kind : TokenKind) (source : String) (span : Span) : Option Token :=
  if span.start ≤ span.stop && (Text.sliceChars? source.toList span).isSome then
    some ⟨kind, source, span⟩
  else none

def slice (t : Token) : String := Text.slice t.source t.span

/-- The token as it is shown: blanks are shown as nothing. -/
def text (t : Token) : String :=
  if t.kind = .whitespace then "" else t.slice

def unescaped (t : Token) : String :=
  if t.kind.isQuoted then String.ofList (Quoted.unescape t.slice.toList) else t.slice

def place (t : Token) : Place := ⟨t.span, t.slice⟩

end Token

end PipeQuery
