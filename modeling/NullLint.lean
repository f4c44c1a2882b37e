import NullLint.Analysis
import NullLint.Arena.Basic
import NullLint.Arena.Copy
import NullLint.Arena.Parser.Basic
import NullLint.Arena.Parser.Declaration
import NullLint.Arena.Parser.Expression
import NullLint.Arena.Tree
import NullLint.Check.Cancellation
import NullLint.Check.Checker
import NullLint.Check.Finding
import NullLint.Check.Host
import NullLint.Check.Rule
import NullLint.Diagnostic
import NullLint.Fix.Batch
import NullLint.Fix.Edit
import NullLint.Fix.FixAll
import NullLint.Fix.TextChange
import NullLint.Json.Reader
import NullLint.Json.Value
import NullLint.Json.Writer
import NullLint.Main
import NullLint.Project.Arguments
import NullLint.Project.Command
import NullLint.Project.Config
import NullLint.Project.FileAccess
import NullLint.Project.FilePath
import NullLint.Project.Glob
import NullLint.Project.LogFormat
import NullLint.Project.Run
import NullLint.Report.Reporter
import NullLint.Report.RunResult
import NullLint.Report.Snippet
import NullLint.Report.Style
import NullLint.Report.Wire
import NullLint.Semantics.Binding
import NullLint.Semantics.DefiniteAssignment
import NullLint.Semantics.Flow
import NullLint.Semantics.Model
import NullLint.Semantics.Symbol
import NullLint.Semantics.TypeFacts
import NullLint.Syntax.Enclosing
import NullLint.Syntax.Kind
import NullLint.Syntax.KindLabel
import NullLint.Syntax.Layout
import NullLint.Syntax.Lexer
import NullLint.Syntax.Node
import NullLint.Syntax.Parse
import NullLint.Syntax.Parser.Basic
import NullLint.Syntax.Parser.Declaration
import NullLint.Syntax.Parser.Expression
import NullLint.Syntax.Parser.Lookahead
import NullLint.Syntax.Parser.Statement
import NullLint.Syntax.Parser.TypeName
import NullLint.Syntax.Token
import NullLint.Syntax.Tree
import NullLint.Syntax.View
import NullLint.Text.Blank
import NullLint.Text.Bytes
import NullLint.Text.Letter
import NullLint.Text.Lines
import NullLint.Text.Span
import NullLint.Text.Template
import NullLint.Proofs.Parser.Reading
import NullLint.Proofs.Lexer.Lossless
import NullLint.Proofs.Syntax.Numbering
import NullLint.Proofs.LosslessParsing
import NullLint.Proofs.Syntax.Views
import NullLint.Proofs.Semantics.Outcomes
import NullLint.Proofs.Semantics.Execution
import NullLint.Proofs.Semantics.Frame
import NullLint.Proofs.Semantics.FlowSoundness
import NullLint.Proofs.Semantics.NestedAssignments
import NullLint.Proofs.Lexer.Tokens
import NullLint.Proofs.Syntax.Substitution
import NullLint.Proofs.Syntax.Derivation
import NullLint.Proofs.Syntax.Positions
import NullLint.Proofs.Check.Operators
import NullLint.Proofs.Fix.Removal
import NullLint.Proofs.Fix.Splice
import NullLint.Proofs.Fix.Selection
import NullLint.Proofs.Fix.Passes
import NullLint.Proofs.Fix.Partition
import NullLint.Proofs.Parser.Building
import NullLint.Proofs.Parser.Producing
import NullLint.Proofs.CleanParsing
import NullLint.Proofs.Expression.Canonical
import NullLint.Proofs.Expression.Parsing
import NullLint.Proofs.Expression.Lexing
import NullLint.Proofs.Expression.RoundTrip
import NullLint.Proofs.Check.Reports
import NullLint.Proofs.Semantics.Paths
import NullLint.Proofs.Semantics.AlwaysAssigned
import NullLint.Proofs.Syntax.Intervals
import NullLint.Proofs.Syntax.Nesting
import NullLint.Proofs.Semantics.Declaring
import NullLint.Proofs.Semantics.Visiting
import NullLint.Proofs.Semantics.NameLookup
import NullLint.Proofs.Semantics.LexicalScoping
import NullLint.Proofs.Lexer.Spacing
import NullLint.Proofs.Syntax.Endings
import NullLint.Proofs.Fix.Dropping
import NullLint.Proofs.Fix.Tidiness
import NullLint.Proofs.Check.Stopping
import NullLint.Proofs.Syntax.Relabeling
import NullLint.Proofs.Semantics.Embedding
import NullLint.Proofs.Semantics.EmbeddedAssignment
import NullLint.Proofs.Semantics.EmbeddedTypes
import NullLint.Proofs.Semantics.EmbeddedNullState
import NullLint.Proofs.Check.NullableContext
import NullLint.Proofs.Semantics.FlowsIn
import NullLint.Proofs.Syntax.Contexts
import NullLint.Proofs.Semantics.BindingSteps
import NullLint.Proofs.Semantics.EmbeddedBinding
import NullLint.Proofs.Semantics.BodyBinding
import NullLint.Proofs.Semantics.MethodBodies
import NullLint.Proofs.Check.MethodBodies
import NullLint.Proofs.Parser.Shapes
import NullLint.Proofs.Parser.NestingDepth
import NullLint.Proofs.Fix.Interval
import NullLint.Proofs.Lexer.Locations
import NullLint.Proofs.Check.LexicalErrors
import NullLint.Proofs.Parser.Inheriting
import NullLint.Proofs.Expression.Precedence
import NullLint.Proofs.Lexer.Encoding
import NullLint.Proofs.Lexer.ByteWise
import NullLint.Proofs.Lexer.Slicing
import NullLint.Proofs.Lexer.Pieces
import NullLint.Proofs.Lexer.LineStart
import NullLint.Proofs.Lexer.Ownership
import NullLint.Proofs.Fix.Comments
import NullLint.Proofs.Syntax.Outlines
import NullLint.Proofs.Fix.TextChanges
import NullLint.Proofs.Parser.Lookahead
import NullLint.Proofs.Semantics.Inference
import NullLint.Proofs.Text.Cuts
import NullLint.Proofs.Text.LineMap
import NullLint.Proofs.Lexer.Spelling
import NullLint.Proofs.Lexer.ErrorSpans
import NullLint.Proofs.Parser.Reporting
import NullLint.Proofs.Parser.ReportOrder
import NullLint.Proofs.Text.Numerals
import NullLint.Proofs.Report.Truncation
import NullLint.Proofs.Report.Summary
import NullLint.Proofs.Report.Underlines
import NullLint.Proofs.Semantics.LayeredFlow
import NullLint.Proofs.Semantics.ScopeStack
import NullLint.Proofs.Parser.Progress
import NullLint.Proofs.Semantics.WalkOrder
import NullLint.Proofs.Reparsing.Losing
import NullLint.Proofs.Reparsing.Rules
import NullLint.Proofs.Reparsing.Lookahead
import NullLint.Proofs.Reparsing.Types
import NullLint.Proofs.Reparsing.Expressions
import NullLint.Proofs.Reparsing.Statements
import NullLint.Proofs.Reparsing.Members
import NullLint.Proofs.Reparsing.Declarations
import NullLint.Proofs.Fix.ReadBack
import NullLint.Proofs.StableFixing
import NullLint.Proofs.Arena.Forest
import NullLint.Proofs.Arena.Planting
import NullLint.Proofs.Arena.Expressions
import NullLint.Proofs.Arena.Declarations
import NullLint.Proofs.Arena.Balance
import NullLint.Proofs.Arena.Walks
import NullLint.Proofs.Arena.Tokens
import NullLint.Proofs.Arena.Paths
import NullLint.Proofs.Arena.Copying
import NullLint.Proofs.Arena.Showing
import NullLint.Proofs.Arena.Editing
import NullLint.Proofs.Arena.Links
