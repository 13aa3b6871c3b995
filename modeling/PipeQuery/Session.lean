import PipeQuery.Compile
import PipeQuery.Json.Writer
import PipeQuery.Listing
import PipeQuery.Request.Json

/-!
Sessions: queries and commands, line by line, and what is printed for them.
-/
namespace PipeQuery.Session

def banner : String := "searchql 0.1.0 (.help for commands)"

def help : List String := [
  "Enter a query, e.g. `from Events where UserId = jbloggs | table UserId, EventTime`.",
  "End a line with `\\` to continue the query on the next line.",
  "",
  "  .tokens <query>   show the tokens of a query",
  "  .tree <query>     show the structure of a query",
  "  .help             show this message",
  "  .quit             exit"]

inductive Reply where
  /-- The line goes on, after what has been read so far. -/
  | unfinished (pending : String)
  /-- Something is printed, and the session goes on. -/
  | printed (lines : List String)
  /-- The session ends as asked. -/
  | ended
  /-- The session breaks off. -/
  | aborted
  deriving DecidableEq, Repr

def after? (command text : String) : Option String :=
  if command.toList.isPrefixOf text.toList then
    some (String.ofList (text.toList.drop command.toList.length))
  else none

def tokens (query : String) : Reply := .printed ((Lexer.tokens query).map Listing.token)

def tree (query : String) : Reply :=
  match Group.ofTokens (Lexer.tokens query) with
  | .ok root => .printed (Listing.tree 0 root.toNode)
  | .error e => .printed (Listing.error query e)

def request (ctx : Context) (query : String) : Reply :=
  match compile ctx query with
  | .ok r => .printed [r.toJson.pretty]
  | .error (.rejected e) => .printed (Listing.error query e)
  | .error .overflow => .aborted

def answer (ctx : Context) (input : String) : Reply :=
  if input.isEmpty then .printed []
  else if input = ".quit" ∨ input = ".exit" then .ended
  else if input = ".help" then .printed help
  else
    match after? ".tokens" input with
    | some query => tokens (Text.trim query)
    | none =>
      match after? ".tree" input with
      | some query => tree (Text.trim query)
      | none => request ctx input

/-- Answers a line after what is pending. A line that ends in a backslash goes on. -/
def step (ctx : Context) (pending line : String) : Reply :=
  match line.toList.reverse with
  | '\\' :: rest => .unfinished (pending ++ String.ofList rest.reverse ++ "\n")
  | _ => answer ctx (Text.trim (pending ++ line))

/-- What is printed for lines, and whether the session ends as it should. -/
def runLines (ctx : Context) (pending : String) : List String → List String × Bool
  | [] => ([], true)
  | line :: lines =>
    match step ctx pending line with
    | .unfinished pending => runLines ctx pending lines
    | .printed shown =>
      let (rest, ok) := runLines ctx "" lines
      (shown ++ rest, ok)
    | .ended => ([], true)
    | .aborted => ([], false)

def rawLines : List Char → List (List Char)
  | [] => []
  | c :: cs =>
    if c = '\n' then [c] :: rawLines cs
    else
      match rawLines cs with
      | [] => [[c]]
      | line :: lines => (c :: line) :: lines

/-- A line without the line feed that ends it, and without a carriage return before that. -/
def lineOf (raw : List Char) : String :=
  match raw.reverse with
  | '\n' :: '\r' :: rest => String.ofList rest.reverse
  | '\n' :: rest => String.ofList rest.reverse
  | _ => String.ofList raw

def run (ctx : Context) (input : String) : List String × Bool :=
  let (shown, ok) := runLines ctx "" ((rawLines input.toList).map lineOf)
  (banner :: shown, ok)

end PipeQuery.Session
