import RecordGraph.Gateway.GraphFile
import RecordGraph.Gateway.Launch
import RecordGraph.Gateway.Serve
import RecordGraph.Query.Querystring.Writer
import RecordGraph.Proofs.Algebra.Meaning
import RecordGraph.Proofs.Algebra.Shape
import RecordGraph.Proofs.Algebra.Conjunctive
import RecordGraph.Proofs.Expr.Eval
import RecordGraph.Proofs.Algebra.Compile
import RecordGraph.Proofs.Expr.Literal
import RecordGraph.Proofs.Text.Numeral
import RecordGraph.Proofs.Text.Pieces
import RecordGraph.Proofs.Predicate.Formula
import RecordGraph.Proofs.Predicate.Resolve
import RecordGraph.Proofs.Predicate.Storage
import RecordGraph.Proofs.Predicate.Prepare
import RecordGraph.Proofs.Predicate.Substitution
import RecordGraph.Proofs.Permission.Access
import RecordGraph.Proofs.Permission.Patterns
import RecordGraph.Proofs.Permission.Agreement
import RecordGraph.Proofs.Store.Memory
import RecordGraph.Proofs.Run.Trace
import RecordGraph.Proofs.Run.Get
import RecordGraph.Proofs.Text.Utf8
import RecordGraph.Proofs.Text.Base64
import RecordGraph.Proofs.Text.Form
import RecordGraph.Proofs.Text.Blank
import RecordGraph.Proofs.Value.Strings
import RecordGraph.Proofs.Value.Numbers
import RecordGraph.Proofs.Value.Reader
import RecordGraph.Proofs.Value.Canonical
import RecordGraph.Proofs.Query.Blob
import RecordGraph.Proofs.Query.Querystring
import RecordGraph.Proofs.Page.Window
import RecordGraph.Proofs.Run.Rows
import RecordGraph.Proofs.Run.Indifferent
import RecordGraph.Proofs.Run.Listing
import RecordGraph.Proofs.Run.Paging
import RecordGraph.Proofs.Run.Record
import RecordGraph.Proofs.Run.Refusals
import RecordGraph.Proofs.Run.Options
import RecordGraph.Proofs.Store.Sorting
import RecordGraph.Proofs.Run.Loading
import RecordGraph.Proofs.Run.Batches
import RecordGraph.Proofs.Run.Depth
import RecordGraph.Proofs.Run.Single
import RecordGraph.Proofs.Run.FieldQuery
import RecordGraph.Proofs.Algebra.Printing
import RecordGraph.Proofs.Query.Leaves
import RecordGraph.Proofs.Query.Clauses
import RecordGraph.Proofs.Query.Settings
import RecordGraph.Proofs.Query.Edits
import RecordGraph.Proofs.Query.Levels
import RecordGraph.Proofs.Query.Rendering
import RecordGraph.Proofs.Query.Applying
import RecordGraph.Proofs.Query.Roots
import RecordGraph.Proofs.Query.Keys
import RecordGraph.Proofs.Query.Textual
import RecordGraph.Proofs.Query.Commuting
import RecordGraph.Proofs.Query.Gathering
import RecordGraph.Proofs.Query.Reordering
import RecordGraph.Proofs.Run.Children
import RecordGraph.Proofs.Run.Keyset
import RecordGraph.Proofs.Run.Levels
import RecordGraph.Proofs.Run.Twins
import RecordGraph.Proofs.Query.Evaluation
import RecordGraph.Proofs.Graph.Build
import RecordGraph.Proofs.Graph.Fields
import RecordGraph.Proofs.Run.Calls
import RecordGraph.Proofs.Run.Visible
import RecordGraph.Proofs.Store.Without
import RecordGraph.Proofs.Store.Agreeing
import RecordGraph.Proofs.Store.Preorder
import RecordGraph.Proofs.Run.Agreeing
import RecordGraph.Proofs.Run.Hidden
import RecordGraph.Proofs.Run.Unseen
import RecordGraph.Proofs.Algebra.NormalForm
import RecordGraph.Proofs.Algebra.Derivation
import RecordGraph.Proofs.Algebra.RoundTrip
import RecordGraph.Proofs.Run.Denials
import RecordGraph.Proofs.Run.Linking
import RecordGraph.Proofs.Query.Local
import RecordGraph.Proofs.Query.Maps
import RecordGraph.Proofs.Query.Accumulating
import RecordGraph.Proofs.Store.Columns
import RecordGraph.Proofs.Run.Seeking
import RecordGraph.Proofs.Predicate.Data
import RecordGraph.Proofs.Permission.Residues
import RecordGraph.Proofs.Query.Formed
import RecordGraph.Proofs.Run.Sizing
import RecordGraph.Proofs.Run.Cutting
import RecordGraph.Proofs.Run.Resizing
import RecordGraph.Proofs.Run.PageSizes
import RecordGraph.Proofs.Value.Same
import RecordGraph.Proofs.Expr.Compare
import RecordGraph.Proofs.Expr.Duality
import RecordGraph.Proofs.Value.Depth
import RecordGraph.Proofs.Algebra.Lexing
import RecordGraph.Proofs.Double.Rounding
import RecordGraph.Proofs.Double.Shortest
import RecordGraph.Proofs.Value.Decimals
