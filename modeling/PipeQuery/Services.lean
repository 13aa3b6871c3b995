import PipeQuery.Catalog
import PipeQuery.Scalar.Reader
import PipeQuery.Time.Expression
import PipeQuery.Visualisation

/-!
What compiling a query relies on: names of documents, fields of data sources, and the readers of
expressions, dates and visualisations. Each of them can be replaced.
-/
namespace PipeQuery

structure Services where
  /-- The data source with a name. -/
  resolveSource : String → Except ResolveError DocRef
  /-- The document with a type and a name. -/
  resolveDocument : String → String → Except ResolveError DocRef
  /-- The fields of a data source that match a pattern. -/
  findFields : DocRef → Option String → List String
  /-- The scalar expression of some nodes, with named expressions put in. -/
  readScalar : Evals → List Node → Except ScalarError Expr
  /-- The instant of some nodes, by a reference time. -/
  readDate : Instant → List Node → Except (Failure DateError) Instant
  /-- The table for a visualisation clause, made from the table so far. -/
  readVisual : Group → Table → Except SyntaxError Table

def Services.ofCatalog (c : Catalog) : Services where
  resolveSource := c.resolveSource
  resolveDocument := c.resolveDocument
  findFields := c.findFields
  readScalar evals nodes := (Scalar.run {} evals nodes).1
  readDate := DateExpression.read
  readVisual := Visual.addTo

/-- What is fixed while one query is compiled. -/
structure Context where
  services : Services
  request : BaseRequest
  /-- The time that `now()` stands for. -/
  reference : Instant

end PipeQuery
