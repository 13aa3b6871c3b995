import PipeQuery.Clause.Reader
import PipeQuery.Draft.Columns
import PipeQuery.Group.Structure
import PipeQuery.Token.Lexer

/-!
From queries to search requests. The clauses of a query are read in order, each one changes the
draft of a request, and hidden columns complete it.
-/
namespace PipeQuery

namespace Draft

/-- Reads an expression. Faults are shown at the clause that it stands in. -/
def readScalar (ctx : Context) (d : Draft) (clause : Group) (nodes : List Node) :
    Except SyntaxError Expr :=
  match ctx.services.readScalar d.evals nodes with
  | .ok e => .ok e
  | .error e => .error ⟨.scalar e, some clause.place⟩

def readEval (ctx : Context) (d : Draft) (clause : Group) : Except SyntaxError Draft := do
  let (name, nodes) ← EvalClause.read clause
  let e ← d.readScalar ctx clause nodes
  return { d with evals := d.evals.insert name e }

/-- Reads a `select` clause. The columns before a fault are added before it is seen. -/
def readSelect (ctx : Context) (d : Draft) (clause : Group) : Except SyntaxError Draft := do
  let (selections, fault) := SelectClause.read (fun n => d.readScalar ctx clause [n]) clause
  let d ← d.addSelections ctx {} selections
  match fault with
  | none => return d
  | some e => .error e

def readCondition (ctx : Context) (note : Bool) (clause : Group) (extensions : List Extension) :
    Result (Operator × List HavingField) :=
  match (ConditionClause.read ctx note clause extensions).run [] with
  | (.ok op, names) => .ok (op, names.map (⟨·, clause.place⟩))
  | (.error e, _) => .error e

def readPlain (ctx : Context) (d : Draft) (clause : Clause) (g : Group) :
    Except SyntaxError Draft := do
  match clause with
  | .source => return { d with source := some (← SourceClause.read ctx.services g) }
  | .eval => d.readEval ctx g
  | .window => return { d with table := { d.table with window := some (← WindowClause.read g) } }
  | .sort => return d.addSorts (← SortClause.read g)
  | .group => return d.addGroups (← GroupClause.read g)
  | .select => d.readSelect ctx g
  | .limit =>
    let limits ← LimitClause.read g
    return { d with table := { d.table with maxResults := d.table.maxResults ++ limits } }
  | .present => return { d with visual := some (← ctx.services.readVisual g d.table) }
  | .restrict | .filter | .having => return d

/-- Reads a clause that takes no extensions, and refuses those that follow it. -/
def readAlone (ctx : Context) (d : Draft) (c : ClauseGroup) (extensions : List Extension) :
    Result Draft := do
  let d ← Result.ofExcept (d.readPlain ctx c.clause c.group)
  match extensions with
  | [] => return d
  | e :: _ => .error (.rejected e.stray)

def readClause (ctx : Context) (d : Draft) (c : ClauseGroup) (extensions : List Extension) :
    Result Draft :=
  match c.clause with
  | .restrict => do
    let (op, _) ← readCondition ctx false c.group extensions
    return { d with expression := some op }
  | .filter => do
    let (op, _) ← readCondition ctx false c.group extensions
    return { d with table := { d.table with valueFilter := some op } }
  | .having => do
    let (op, fields) ← readCondition ctx true c.group extensions
    return { d with
      table := { d.table with aggregateFilter := some op }
      having := d.having ++ fields }
  | _ => d.readAlone ctx c extensions

def readEntry (ctx : Context) (d : Draft) (entry : Node × List Extension) : Result Draft := do
  let c ← Result.ofExcept entry.1.clauseGroup
  Result.ofExcept (Clause.checkOrder c.place c.clause d.consumed)
  let d ← d.readClause ctx c entry.2
  return { d with consumed := d.consumed ++ [c.clause] }

def readEntries (ctx : Context) : Draft → List (Node × List Extension) → Result Draft
  | d, [] => .ok d
  | d, entry :: entries => do readEntries ctx (← d.readEntry ctx entry) entries

def ofRoot (ctx : Context) (root : Group) : Result Draft :=
  match attachExtensions root.children with
  | (e :: _, _) => .error (.rejected e.stray)
  | ([], entries) => readEntries ctx {} entries

/-- The identifiers of the components that results are for. -/
def tableId : String := "table"

def visualId : String := "vis"

def results (d : Draft) : List ResultRequest :=
  let table := { d.table with extractValues := true }
  ⟨tableId, [table], .table⟩ ::
    match d.visual with
    | none => []
    | some visual => [⟨visualId, [table, visual], .visual⟩]

def finish (ctx : Context) (d : Draft) : Except SyntaxError SearchRequest :=
  match d.source with
  | none => .error ⟨.noDataSource, none⟩
  | some source => do
    let d ← d.addOrigins.addHidden ctx d.having
    return {
      key := ctx.request.key
      query := {
        dataSource := source
        expression := d.expression.getD {}
        params := ctx.request.params
        timeRange := ctx.request.timeRange }
      results := d.results }

end Draft

/-- The root group of a query, which needs at least one token. -/
def rootOf (text : String) : Except SyntaxError Group :=
  match Lexer.tokens text with
  | [] => .error ⟨.noTokens, none⟩
  | tokens => Group.ofTokens tokens

def compileRoot (ctx : Context) (root : Group) : Result SearchRequest := do
  let d ← Draft.ofRoot ctx root
  Result.ofExcept (d.finish ctx)

def compile (ctx : Context) (text : String) : Result SearchRequest := do
  let root ← Result.ofExcept (rootOf text)
  compileRoot ctx root

/-- The data source of a query that may not be complete. Nothing is read as a clause after the
name. -/
def dataSourceOnly (services : Services) (text : String) : Except SyntaxError DocRef := do
  let root ← rootOf text
  match root.children with
  | [] => .error ⟨.noTokens, none⟩
  | first :: _ =>
    match first.group? with
    | none => .error ⟨.expectedSource, some first.place⟩
    | some g =>
      if g.tokenKind = .clause .source then SourceClause.readFirst services g
      else .error ⟨.expectedSource, some first.place⟩

end PipeQuery
