import PipeQuery.Catalog
import PipeQuery.Compile
import PipeQuery.Listing
import PipeQuery.Main
import PipeQuery.Proofs.Filter.Formula
import PipeQuery.Proofs.Group.Acceptance
import PipeQuery.Proofs.Request.Json
import PipeQuery.Proofs.Token.Partition
import PipeQuery.Request.Json
import PipeQuery.Scalar.Reader
import PipeQuery.Session
import PipeQuery.Time.Expression
import PipeQuery.Token.Lexer
import PipeQuery.Visualisation
import PipeQuery.Proofs.Draft.Walk
import PipeQuery.Proofs.Clause.Order
import PipeQuery.Proofs.Scalar.Precedence
import PipeQuery.Proofs.Scalar.Grammar
import PipeQuery.Proofs.Token.Lexeme
import PipeQuery.Proofs.Token.Cutting
import PipeQuery.Proofs.Token.Spelled
import PipeQuery.Proofs.Scalar.Render
import PipeQuery.Proofs.Error.Located
import PipeQuery.Proofs.Error.Clauses
import PipeQuery.Proofs.Error.Columns
import PipeQuery.Proofs.Error.Compile
import PipeQuery.Proofs.Draft.Source
import PipeQuery.Proofs.Draft.Lenient
import PipeQuery.Proofs.Draft.Past
import PipeQuery.Proofs.Clause.Exchange
import PipeQuery.Proofs.Clause.Form
import PipeQuery.Proofs.Column.Id
import PipeQuery.Proofs.Column.Distinct
import PipeQuery.Proofs.Draft.Visual
import PipeQuery.Proofs.Time.Overflow
import PipeQuery.Proofs.Error.Overflow
import PipeQuery.Proofs.Token.Named
import PipeQuery.Proofs.Token.Suffix
import PipeQuery.Proofs.Token.Word
import PipeQuery.Proofs.Filter.Simplify
import PipeQuery.Proofs.Token.Delimiter
import PipeQuery.Proofs.Token.Context
import PipeQuery.Proofs.Group.Leaf
import PipeQuery.Proofs.Group.Extent
import PipeQuery.Proofs.Filter.Between
import PipeQuery.Proofs.Filter.Language
import PipeQuery.Proofs.Filter.Bounds
import PipeQuery.Proofs.Token.View
import PipeQuery.Proofs.Token.Surroundings
import PipeQuery.Proofs.Token.NullTest
import PipeQuery.Proofs.Token.Meaning
import PipeQuery.Proofs.Token.Spacing
import PipeQuery.Proofs.Token.Relations
import PipeQuery.Proofs.Token.Comments
import PipeQuery.Proofs.Token.Casing
import PipeQuery.Proofs.Token.Quoting
import PipeQuery.Proofs.Clause.Inline
import PipeQuery.Proofs.Scalar.Substitution
import PipeQuery.Proofs.Column.Asked
import PipeQuery.Proofs.Column.Readable
import PipeQuery.Proofs.Clause.Ranking
import PipeQuery.Proofs.Filter.Names
import PipeQuery.Proofs.Catalog.Pattern
import PipeQuery.Proofs.Catalog.Wildcard
import PipeQuery.Proofs.Clause.Window
import PipeQuery.Proofs.Clause.Select
import PipeQuery.Proofs.Group.Alone
import PipeQuery.Proofs.Clause.Alone
import PipeQuery.Proofs.Filter.Alone
import PipeQuery.Proofs.Draft.Alone
import PipeQuery.Proofs.Column.Alias
import PipeQuery.Proofs.Column.Origin
import PipeQuery.Proofs.Filter.Literal
import PipeQuery.Proofs.Time.Calendar
import PipeQuery.Proofs.Time.Floor
import PipeQuery.Proofs.Time.Offset
import PipeQuery.Proofs.Catalog.Resolution
import PipeQuery.Proofs.Scalar.Index
import PipeQuery.Proofs.Error.Carets
import PipeQuery.Proofs.Token.DateTime
import PipeQuery.Proofs.Time.Timestamp
