import CallScript.CommandLine
import CallScript.Decimal.Binary
import CallScript.Decimal.Layout
import CallScript.Decimal.Numeral
import CallScript.Decimal.Shortest
import CallScript.Dialogue
import CallScript.Engine.Builtins
import CallScript.Engine.Procedure
import CallScript.Engine.Run
import CallScript.Engine.Step
import CallScript.Engine.Stock
import CallScript.Engine.World
import CallScript.Entries
import CallScript.Environment
import CallScript.Expression.Allowed
import CallScript.Expression.Basic
import CallScript.Expression.Parser
import CallScript.Expression.Token
import CallScript.Json.Basic
import CallScript.Json.Reader
import CallScript.Main
import CallScript.Program.Block
import CallScript.Program.Json
import CallScript.Program.Parser
import CallScript.Program.Token
import CallScript.Program.Tree
import CallScript.RuntimeError
import CallScript.Session
import CallScript.Settings
import CallScript.SyntaxError
import CallScript.Text.Blank
import CallScript.Text.EditDistance
import CallScript.Text.Escape
import CallScript.Text.Invisible
import CallScript.Text.Quote
import CallScript.Text.Scan
import CallScript.Text.Span
import CallScript.Toml.Basic
import CallScript.Toml.Datetime
import CallScript.Toml.Reader
import CallScript.Toml.Scalar
import CallScript.Toml.Table
import CallScript.Toml.Writer
import CallScript.Value.Basic
import CallScript.Value.Equality
import CallScript.Value.Matrix
import CallScript.Value.Operators
import CallScript.Value.Text
import CallScript.Proofs.Value.Callables
import CallScript.Proofs.Value.Failures
import CallScript.Proofs.Engine.World
import CallScript.Proofs.Engine.Discipline
import CallScript.Proofs.Engine.Result
import CallScript.Proofs.Engine.Endless
import CallScript.Proofs.Engine.Lockstep
import CallScript.Proofs.Engine.Stock
import CallScript.Proofs.Session.Operations
import CallScript.Proofs.Session.Termination
import CallScript.Proofs.Session.Limit
import CallScript.Proofs.Session.Sharing
import CallScript.Proofs.Session.Definitions
import CallScript.Proofs.Session.Counting
import CallScript.Proofs.Session.Invariant
import CallScript.Proofs.Program.Grammar
import CallScript.Proofs.Program.Parsing
import CallScript.Proofs.Program.Errors
import CallScript.Proofs.Expression.Allowed
import CallScript.Proofs.Engine.Ownership
import CallScript.Proofs.Expression.Grammar
import CallScript.Proofs.Expression.Soundness
import CallScript.Proofs.Expression.Reading
import CallScript.Proofs.Expression.Completeness
import CallScript.Proofs.Decimal.Rounding
import CallScript.Proofs.Decimal.Bits
import CallScript.Proofs.Decimal.Shortest
import CallScript.Proofs.Decimal.Text
import CallScript.Proofs.Program.Scanning
import CallScript.Proofs.Program.Rendering
import CallScript.Proofs.Text.Munch
import CallScript.Proofs.Text.Patterns
import CallScript.Proofs.Program.Lexicon
import CallScript.Proofs.Expression.Lexicon
import CallScript.Proofs.Expression.Names
import CallScript.Proofs.Program.Layout
import CallScript.Proofs.Program.Spans
import CallScript.Proofs.Session.Scopes
import CallScript.Proofs.Decimal.Arithmetic
import CallScript.Proofs.Engine.Bridge
import CallScript.Proofs.Json.Literals
import CallScript.Proofs.Json.Range
import CallScript.Proofs.Json.Reading
import CallScript.Proofs.Program.Decoding
import CallScript.Proofs.Text.EditDistance
import CallScript.Proofs.Value.Equality
import CallScript.Proofs.Value.Literals
import CallScript.Proofs.Session.InPlace
import CallScript.Proofs.Decimal.Exact
import CallScript.Proofs.Decimal.Nearest
import CallScript.Proofs.Value.Integers
import CallScript.Proofs.Value.Sequences
import CallScript.Proofs.Value.Products
import CallScript.Proofs.Session.Values
import CallScript.Proofs.Session.Copies
import CallScript.Proofs.Session.Pieces
import CallScript.Proofs.Session.Configured
import CallScript.Proofs.Session.Nesting
import CallScript.Proofs.Text.Literals
import CallScript.Proofs.Engine.Acts
import CallScript.Proofs.Engine.Trace
import CallScript.Proofs.Session.Recorded
