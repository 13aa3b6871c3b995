import PipeQuery.Filter.Combine
import PipeQuery.Services
import PipeQuery.Text.Character

/-!
Reading conditions from nodes. Terms stand between connectives and brackets. A term is a field, a
condition and its values.
-/
namespace PipeQuery

namespace TermReader

/-- The name of a parameter in a call, and its value in the request. A parameter without a value is
empty. -/
def readParam (ctx : Context) (call : Group) : Result String :=
  match call.children with
  | [] => call.place.reject .missingParamName
  | [name] =>
    if name.kind = .word then .ok ((ctx.request.param? name.unescaped).getD "")
    else name.place.reject .missingParamName
  | _ :: extra :: _ => extra.place.reject .unexpectedToken

def isParamCall (g : Group) : Bool :=
  g.functionName?.any fun name => Text.sameIgnoringCase name "param"

/-- A call that names no point in time: it has to be a parameter, or it is out of place. -/
def undatedCall? (n : Node) : Option Group :=
  n.function?.filter fun g => isParamCall g || (DatePoint.ofFunction? g.text).isNone

def isDated (n : Node) : Bool :=
  n.function?.isSome || n.kind == .duration || n.kind == .dateTime

/-- Refuses nodes that are not one number with at most one sign before it. -/
def checkNumber (signed : Bool) (seen : Bool) : List Node → Result Unit
  | [] => .ok ()
  | n :: ns =>
    match n.kind with
    | .number => if seen then n.place.reject .unexpectedToken else checkNumber signed true ns
    | .arith .add | .arith .subtract =>
      if signed || seen then n.place.reject .unexpectedToken else checkNumber true seen ns
    | _ => n.place.reject .unexpectedToken

/-- Refuses nodes that are neither one date expression, nor one number, nor a single node. -/
def checkLiteral (ctx : Context) (nodes : List Node) : Result Unit :=
  if nodes.any isDated then
    match ctx.services.readDate ctx.reference nodes with
    | .ok _ => .ok ()
    | .error e =>
      .error (e.map fun e => ⟨.date e, nodes.head?.map (·.place)⟩)
  else if nodes.any (·.kind == .number) then checkNumber false false nodes
  else
    match nodes with
    | _ :: extra :: _ => extra.place.reject .unexpectedToken
    | _ => .ok ()

def readValue (ctx : Context) (nodes : List Node) : Result String :=
  match nodes.findSome? fun n => (undatedCall? n).map fun g => (n, g) with
  | some (n, g) =>
    if isParamCall g then
      match nodes with
      | _ :: extra :: _ => extra.place.reject .unexpectedToken
      | _ => readParam ctx g
    else n.place.reject .functionInValue
  | none => do
    checkLiteral ctx nodes
    return nodes.foldl (fun text n => text ++ n.unescaped) ""

def isListValue : TokenKind → Bool
  | .singleQuoted | .doubleQuoted | .word | .number | .dateTime => true
  | _ => false

inductive ListBefore where
  | nothing
  | comma (n : Node)
  | value

def readList : ListBefore → List Node → Result (List String)
  | .comma n, [] => n.place.reject .trailingComma
  | _, [] => .ok []
  | before, n :: ns =>
    if n.kind = .comma then
      match before with
      | .nothing => n.place.reject .leadingComma
      | .comma _ => n.place.reject .doubledComma
      | .value => readList (.comma n) ns
    else if isListValue n.kind then
      match before with
      | .value => n.place.reject .missingComma
      | _ => do return n.unescaped :: (← readList .value ns)
    else n.place.reject .unexpectedToken

def readDictionary (ctx : Context) (field : String) (word : Node) : List Node → Result Term
  | [] => word.place.reject .missingDictionary
  | _ :: extra :: _ => extra.place.reject .unexpectedToken
  | [name] =>
    if name.isString then
      match ctx.services.resolveDocument dictionaryType (Text.trim name.unescaped) with
      | .ok doc => .ok ⟨field, .inDictionary, none, some doc⟩
      | .error e => name.place.reject (.resolve e)
    else name.place.reject (.notADictionaryName name.kind)

def readMembership (ctx : Context) (field : String) (value : Node) (rest : List Node) :
    Result Term :=
  if value.kind = .dictionary then readDictionary ctx field value rest
  else
    match value.bracket? with
    | none => value.place.reject .notAList
    | some g =>
      match rest with
      | extra :: _ => extra.place.reject .unexpectedToken
      | [] => do
        let values ← readList .nothing g.children
        return ⟨field, .inList, some (", ".intercalate values), none⟩

def isSeparator (n : Node) : Bool := n.kind == .betweenAnd

def readComparison (ctx : Context) (nodes : List Node) : Result String := do
  let value ← readValue ctx (nodes.takeWhile (!isSeparator ·))
  match nodes.dropWhile (!isSeparator ·) with
  | extra :: _ => extra.place.reject .unexpectedToken
  | [] => return value

/-- The two bounds of a `between`. The last node before the values is given for the message. -/
def readBounds (ctx : Context) (condition : Node) (nodes : List Node) : Result String := do
  let lower ← readValue ctx (nodes.takeWhile (!isSeparator ·))
  match nodes.dropWhile (!isSeparator ·) with
  | [] => (nodes.getLast?.getD condition).place.reject .missingBetweenAnd
  | separator :: rest =>
    let bound := rest.takeWhile (!isSeparator ·)
    let upper ← readValue ctx bound
    if bound.isEmpty then separator.place.reject .missingUpperBound
    else
      match rest.dropWhile (!isSeparator ·) with
      | extra :: _ => extra.place.reject .unexpectedToken
      | [] => return lower ++ ", " ++ upper

def readValues (ctx : Context) (fieldNode conditionNode : Node) (condition : Condition)
    (values : List Node) : Result Term :=
  let field := fieldNode.unescaped
  match condition, values with
  | .isNull, [] | .isNotNull, [] => .ok ⟨field, condition, none, none⟩
  | .isNull, extra :: _ | .isNotNull, extra :: _ => extra.place.reject .unexpectedToken
  | _, [] => fieldNode.place.reject .incompleteTerm
  | .inList, value :: rest => readMembership ctx field value rest
  | .between, values => do
    return ⟨field, .between, some (Text.trim (← readBounds ctx conditionNode values)), none⟩
  | _, values => do
    return ⟨field, condition, some (Text.trim (← readComparison ctx values)), none⟩

def read (ctx : Context) : List Node → Result Term
  | [] => .error (.rejected ⟨.incompleteTerm, none⟩)
  | field :: rest =>
    if !field.isString && field.kind != .param then field.place.reject .notAField
    else
      match rest with
      | [] => field.place.reject .incompleteTerm
      | condition :: values =>
        match Condition.ofKind? condition.kind with
        | none => condition.place.reject .notACondition
        | some c => readValues ctx field condition c values

/-- The names that a term refers to: its field, and a first value that is a bare name. -/
def referredNames : List Node → List String
  | field :: _ :: value :: _ =>
    if value.kind = .word ∨ value.kind = .param then [field.unescaped, value.unescaped]
    else [field.unescaped]
  | field :: _ => [field.unescaped]
  | [] => []

end TermReader

namespace FilterReader

/-- Readings that note the names that terms refer to, in the order of the terms. -/
abbrev Reading := ExceptT (Failure SyntaxError) (StateM (List String))

/-- Parts that have been read, and the nodes of the term that is being read. -/
structure Progress where
  parts : List Part := []
  term : List Node := []

/-- Ends the term that is being read, if there is one. Its names are noted if `note` holds. -/
def Progress.endTerm (ctx : Context) (note : Bool) (p : Progress) : Reading Progress := do
  if p.term.isEmpty then return p
  else
    let t ← TermReader.read ctx p.term
    if note then modify (· ++ TermReader.referredNames p.term)
    return ⟨p.parts ++ [.item (.term t)], []⟩

/-- The node after an `in` belongs to its term, whatever it is. -/
def Progress.afterIn (p : Progress) : Bool := p.term.getLast?.any (·.kind == .inList)

def Progress.push (p : Progress) (n : Node) : Progress := { p with term := p.term ++ [n] }

def Progress.finish (ctx : Context) (note : Bool) (p : Progress) : Reading Operator := do
  let p ← p.endTerm ctx note
  match Part.combine p.parts with
  | .ok op => return op
  | .error e => throw (.rejected e)

mutual

/-- Reads one node. A bracket where a term may start is a condition of its own. -/
def readNode (ctx : Context) (note : Bool) (p : Progress) : Node → Reading Progress
  | .token t =>
    if p.afterIn then return p.push (.token t)
    else
      match t.kind with
      | .logic op => do
        let p ← p.endTerm ctx note
        return { p with parts := p.parts ++ [.logic op t.place] }
      | _ => return p.push (.token t)
  | .group kind source span children =>
    match kind with
    | .bracket .. =>
      if p.term.isEmpty then do
        let inner ← (← readNodes ctx note {} children).finish ctx note
        return { p with parts := p.parts ++ [.item inner.toItem] }
      else return p.push (.group kind source span children)
    | _ => return p.push (.group kind source span children)

def readNodes (ctx : Context) (note : Bool) (p : Progress) : List Node → Reading Progress
  | [] => return p
  | n :: ns => do readNodes ctx note (← readNode ctx note p n) ns

end

def read (ctx : Context) (note : Bool) (nodes : List Node) : Reading Operator := do
  (← readNodes ctx note {} nodes).finish ctx note

end FilterReader

end PipeQuery
