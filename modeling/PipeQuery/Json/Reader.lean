import PipeQuery.Json

/-!
Reading JSON text. The whole text is one value with blanks around it.
-/
namespace PipeQuery.Json

def isSpace (c : Char) : Bool :=
  c == ' ' || c == '\t' || c == '\n' || c == '\r'

def skipSpace (cs : List Char) : List Char := cs.dropWhile isSpace

def hexDigit? (c : Char) : Option Nat :=
  if '0' ≤ c && c ≤ '9' then some (c.toNat - '0'.toNat)
  else if 'a' ≤ c && c ≤ 'f' then some (c.toNat - 'a'.toNat + 10)
  else if 'A' ≤ c && c ≤ 'F' then some (c.toNat - 'A'.toNat + 10)
  else none

def hex4? : List Char → Option (Nat × List Char)
  | a :: b :: c :: d :: cs => do
    let n := (← hexDigit? a) * 4096 + (← hexDigit? b) * 256 + (← hexDigit? c) * 16 + (← hexDigit? d)
    return (n, cs)
  | _ => none

def shortEscape? : Char → Option Char
  | '"' => some '"'
  | '\\' => some '\\'
  | '/' => some '/'
  | 'b' => some '\x08'
  | 'f' => some '\x0c'
  | 'n' => some '\n'
  | 'r' => some '\r'
  | 't' => some '\t'
  | _ => none

/-- The units of a string literal: characters, and halves of surrogate pairs written as escapes. -/
inductive Unit16 where
  | char (c : Char)
  | high (n : Nat)
  | low (n : Nat)

def Unit16.ofNat (n : Nat) : Unit16 :=
  if 0xD800 ≤ n && n < 0xDC00 then .high n
  else if 0xDC00 ≤ n && n < 0xE000 then .low n
  else .char (Char.ofNat n)

/-- The units of a string literal up to its closing quote, and what follows it. The count bounds
the number of units. -/
def units? : Nat → List Char → Option (List Unit16 × List Char)
  | 0, _ => none
  | _ + 1, [] => none
  | _ + 1, '"' :: cs => some ([], cs)
  | n + 1, '\\' :: 'u' :: cs => do
    let (code, cs) ← hex4? cs
    let (units, cs) ← units? n cs
    return (.ofNat code :: units, cs)
  | n + 1, '\\' :: e :: cs => do
    let c ← shortEscape? e
    let (units, cs) ← units? n cs
    return (.char c :: units, cs)
  | n + 1, c :: cs =>
    if c == '\\' || c.toNat < 0x20 then none
    else do
      let (units, cs) ← units? n cs
      return (.char c :: units, cs)

/-- The text that the units spell, when every half of a pair has its other half. -/
def joinUnits? : List Unit16 → Option (List Char)
  | [] => some []
  | .char c :: us => (joinUnits? us).map (c :: ·)
  | .high h :: .low l :: us =>
    (joinUnits? us).map (Char.ofNat (0x10000 + (h - 0xD800) * 0x400 + (l - 0xDC00)) :: ·)
  | .high _ :: _ => none
  | .low _ :: _ => none

/-- A string literal after its opening quote. Its text is none when the escapes do not form one. -/
def literal? (cs : List Char) : Option (Option String × List Char) := do
  let (units, cs) ← units? (cs.length + 1) cs
  return ((joinUnits? units).map String.ofList, cs)

def ofLiteral : Option String → Json
  | some text => .str text
  | none => .badStr

/-- An object of fields, whose keys may be literals without a text. -/
def ofFields (fields : List (Option String × Json)) : Json :=
  match fields.mapM fun (key, value) => key.map (·, value) with
  | some fields => .obj fields
  | none => .badObj

def natOfDigits (cs : List Char) : Nat :=
  cs.foldl (fun n c => n * 10 + (c.toNat - '0'.toNat)) 0

/-- Digits without a superfluous leading zero. -/
def wholeDigits? (cs : List Char) : Option (List Char × List Char) :=
  match cs.takeWhile Char.isDigit with
  | [] => none
  | '0' :: _ :: _ => none
  | digits => some (digits, cs.drop digits.length)

def digits? (cs : List Char) : Option (List Char × List Char) :=
  match cs.takeWhile Char.isDigit with
  | [] => none
  | digits => some (digits, cs.drop digits.length)

def fraction? : List Char → Option (List Char × List Char)
  | '.' :: cs => do
    let (digits, cs) ← digits? cs
    return ('.' :: digits, cs)
  | cs => some ([], cs)

def exponent? : List Char → Option (List Char × List Char)
  | e :: cs =>
    if e == 'e' || e == 'E' then
      match cs with
      | s :: rest =>
        if s == '+' || s == '-' then do
          let (digits, rest) ← digits? rest
          return (e :: s :: digits, rest)
        else do
          let (digits, cs) ← digits? cs
          return (e :: digits, cs)
      | [] => none
    else some ([], e :: cs)
  | [] => some ([], [])

/-- A number. A zero with a sign is no integer. -/
def number? (cs : List Char) : Option (Json × List Char) := do
  let negative := cs.head? == some '-'
  let (whole, cs) ← wholeDigits? (if negative then cs.drop 1 else cs)
  let (fraction, cs) ← fraction? cs
  let (exponent, cs) ← exponent? cs
  let n := natOfDigits whole
  if fraction.isEmpty && exponent.isEmpty && !(negative && n == 0) then
    return (.int (if negative then -(n : Int) else n), cs)
  else
    let sign := if negative then ['-'] else []
    return (.decimal (String.ofList (sign ++ whole ++ fraction ++ exponent)), cs)

def after? (word : String) (cs : List Char) : Option (List Char) :=
  if word.toList.isPrefixOf cs then some (cs.drop word.length) else none

mutual

/-- A value at the start of a text. The count bounds the depth of the reading. -/
def value? : Nat → List Char → Option (Json × List Char)
  | 0, _ => none
  | n + 1, cs =>
    match skipSpace cs with
    | '\x7b' :: cs =>
      match skipSpace cs with
      | '\x7d' :: cs => some (.obj [], cs)
      | cs => do
        let (fields, cs) ← fields? n cs
        return (ofFields fields, cs)
    | '[' :: cs =>
      match skipSpace cs with
      | ']' :: cs => some (.arr [], cs)
      | cs => do
        let (items, cs) ← items? n cs
        return (.arr items, cs)
    | '"' :: cs => (literal? cs).map fun (text, cs) => (ofLiteral text, cs)
    | 'n' :: cs => (after? "ull" cs).map fun cs => (.null, cs)
    | 't' :: cs => (after? "rue" cs).map fun cs => (.bool true, cs)
    | 'f' :: cs => (after? "alse" cs).map fun cs => (.bool false, cs)
    | cs => number? cs

def items? : Nat → List Char → Option (List Json × List Char)
  | 0, _ => none
  | n + 1, cs => do
    let (item, cs) ← value? n cs
    match skipSpace cs with
    | ',' :: cs => do
      let (items, cs) ← items? n cs
      return (item :: items, cs)
    | ']' :: cs => return ([item], cs)
    | _ => none

def fields? : Nat → List Char → Option (List (Option String × Json) × List Char)
  | 0, _ => none
  | n + 1, cs => do
    match skipSpace cs with
    | '"' :: cs =>
      let (key, cs) ← literal? cs
      let ':' :: cs := skipSpace cs | none
      let (value, cs) ← value? n cs
      match skipSpace cs with
      | ',' :: cs => do
        let (fields, cs) ← fields? n cs
        return ((key, value) :: fields, cs)
      | '\x7d' :: cs => return ([(key, value)], cs)
      | _ => none
    | _ => none

end

def parse? (text : String) : Option Json := do
  let cs := text.toList
  let (value, rest) ← value? (2 * cs.length + 2) cs
  if (skipSpace rest).isEmpty then some value else none

end PipeQuery.Json
