import PipeQuery.Group

/-!
The clauses of a query, each with the connective pipes after it, and their order. A clause may come
after those that its rule names, and all but `from` need a `from` before them.
-/
namespace PipeQuery

/-- A pipe with a connective, which goes on with the condition before it. -/
structure Extension where
  op : Logic
  command : Token
  group : Group
  deriving DecidableEq, Repr

def Node.extension? : Node → Option Extension
  | .group (.pipe bar command) source span children =>
    match Command.ofName? command.slice with
    | some (.logic op) => some ⟨op, command, ⟨.pipe bar command, source, span, children⟩⟩
    | _ => none
  | _ => none

/-- Gives every other node the extensions that directly follow it. The extensions before the first
such node come apart. -/
def attachExtensions : List Node → List Extension × List (Node × List Extension)
  | [] => ([], [])
  | n :: ns =>
    let (leading, entries) := attachExtensions ns
    match n.extension? with
    | some e => (e :: leading, entries)
    | none => ([], (n, leading) :: entries)

structure ClauseGroup where
  clause : Clause
  place : Place
  group : Group
  deriving DecidableEq, Repr

def Extension.stray (e : Extension) : SyntaxError := ⟨.strayLogic e.op, some e.command.place⟩

def Node.clauseGroup (n : Node) : Except SyntaxError ClauseGroup :=
  match n.group? with
  | none => .error ⟨.unexpectedToken, some n.place⟩
  | some g =>
    match g.kind with
    | .clause keyword =>
      match keyword.kind.clause? with
      | some c => .ok ⟨c, keyword.place, g⟩
      | none => .error ⟨.unexpectedToken, some n.place⟩
    | .pipe _ word =>
      match g.command with
      | .error e => .error e
      | .ok (.logic op) => (Extension.stray ⟨op, word, g⟩ |> .error)
      | .ok command =>
        match command.clause? with
        | some c => .ok ⟨c, word.place, g⟩
        | none => .error ⟨.unexpectedToken, some n.place⟩
    | _ => .error ⟨.unexpectedToken, some n.place⟩

namespace Clause

/-- The clauses before which the given one may not be read, each once, in the order of reading. -/
def conflicts (clause : Clause) (consumed : List Clause) : List Clause :=
  (consumed.foldl (fun found seen =>
    if clause.validAfter.contains seen || found.contains seen then found else found ++ [seen]) [])

def orderFault? (clause : Clause) (consumed : List Clause) : Option Fault :=
  if clause ≠ .source ∧ !consumed.contains .source then some (.missingSource clause)
  else
    match clause.conflicts consumed with
    | [] => none
    | after => some (.clauseOrder clause after)

def checkOrder (place : Place) (clause : Clause) (consumed : List Clause) :
    Except SyntaxError Unit :=
  match clause.orderFault? consumed with
  | some fault => .error ⟨fault, some place⟩
  | none => .ok ()

end Clause

end PipeQuery
