import TreeCheck.Analysis
import TreeCheck.Bundle
import TreeCheck.Cache
import TreeCheck.Change
import TreeCheck.Command.Flags
import TreeCheck.Command.Help
import TreeCheck.Command.Invocation
import TreeCheck.Command.Json
import TreeCheck.Command.Output
import TreeCheck.Command.Render
import TreeCheck.Command.Session
import TreeCheck.Command.Stored
import TreeCheck.Config
import TreeCheck.Defect
import TreeCheck.Diagnostic
import TreeCheck.Document.Comment
import TreeCheck.Document.Cursor
import TreeCheck.Document.Fields
import TreeCheck.Document.Lexer
import TreeCheck.Document.Node
import TreeCheck.Document.Reader
import TreeCheck.Document.Scalar
import TreeCheck.Document.ScalarText
import TreeCheck.Document.Token
import TreeCheck.File.Address
import TreeCheck.File.Path
import TreeCheck.File.Tree
import TreeCheck.Language
import TreeCheck.Main
import TreeCheck.Match.Check
import TreeCheck.Match.Family
import TreeCheck.Match.Matrix
import TreeCheck.Match.Shape
import TreeCheck.Match.Tree
import TreeCheck.Match.Useful
import TreeCheck.Match.Value
import TreeCheck.Match.Witness
import TreeCheck.Number.Binary64
import TreeCheck.Number.Numeral
import TreeCheck.Ownership.Ledger
import TreeCheck.Ownership.Rules
import TreeCheck.Ownership.State
import TreeCheck.Ownership.Walk
import TreeCheck.Proofs.Analysis.Completion
import TreeCheck.Proofs.Analysis.Handoff
import TreeCheck.Proofs.Analysis.Independence
import TreeCheck.Proofs.Analysis.Transparency
import TreeCheck.Proofs.Bags
import TreeCheck.Proofs.Diagnostics
import TreeCheck.Proofs.Failing
import TreeCheck.Proofs.Keys
import TreeCheck.Proofs.Match.Accepted
import TreeCheck.Proofs.Match.Alternatives
import TreeCheck.Proofs.Match.Calls
import TreeCheck.Proofs.Match.Columns
import TreeCheck.Proofs.Match.Exhaustive
import TreeCheck.Proofs.Match.Families
import TreeCheck.Proofs.Match.Growth
import TreeCheck.Proofs.Match.Irrefutable
import TreeCheck.Proofs.Match.Layers
import TreeCheck.Proofs.Match.Leaves
import TreeCheck.Proofs.Match.Lowering
import TreeCheck.Proofs.Match.Offers
import TreeCheck.Proofs.Match.Reachable
import TreeCheck.Proofs.Match.Safety
import TreeCheck.Proofs.Match.Search
import TreeCheck.Proofs.Match.Segments
import TreeCheck.Proofs.Match.Selection
import TreeCheck.Proofs.Match.Splice
import TreeCheck.Proofs.Match.Steps
import TreeCheck.Proofs.Match.Switches
import TreeCheck.Proofs.Match.Termination
import TreeCheck.Proofs.Match.Typed
import TreeCheck.Proofs.Match.Untyped
import TreeCheck.Proofs.Match.Verdicts
import TreeCheck.Proofs.Match.Ways
import TreeCheck.Proofs.Match.Weight
import TreeCheck.Proofs.Match.Witnesses
import TreeCheck.Proofs.Ownership.Accepted
import TreeCheck.Proofs.Ownership.Aliasing
import TreeCheck.Proofs.Ownership.Blame
import TreeCheck.Proofs.Ownership.BorrowJoins
import TreeCheck.Proofs.Ownership.Calls
import TreeCheck.Proofs.Ownership.Code
import TreeCheck.Proofs.Ownership.Completes
import TreeCheck.Proofs.Ownership.Edits
import TreeCheck.Proofs.Ownership.EscapePaths
import TreeCheck.Proofs.Ownership.EscapeSteps
import TreeCheck.Proofs.Ownership.Execution
import TreeCheck.Proofs.Ownership.Fallthrough
import TreeCheck.Proofs.Ownership.Frame
import TreeCheck.Proofs.Ownership.Functions
import TreeCheck.Proofs.Ownership.Growth
import TreeCheck.Proofs.Ownership.Guards
import TreeCheck.Proofs.Ownership.Inspected
import TreeCheck.Proofs.Ownership.Inspection
import TreeCheck.Proofs.Ownership.Intact
import TreeCheck.Proofs.Ownership.Joins
import TreeCheck.Proofs.Ownership.Lasting
import TreeCheck.Proofs.Ownership.LatePaths
import TreeCheck.Proofs.Ownership.LateSteps
import TreeCheck.Proofs.Ownership.Layout
import TreeCheck.Proofs.Ownership.Lineage
import TreeCheck.Proofs.Ownership.Lives
import TreeCheck.Proofs.Ownership.MovePaths
import TreeCheck.Proofs.Ownership.MoveSteps
import TreeCheck.Proofs.Ownership.Moves
import TreeCheck.Proofs.Ownership.Outcomes
import TreeCheck.Proofs.Ownership.Points
import TreeCheck.Proofs.Ownership.Progress
import TreeCheck.Proofs.Ownership.Receivers
import TreeCheck.Proofs.Ownership.Runs
import TreeCheck.Proofs.Ownership.Scoped
import TreeCheck.Proofs.Ownership.Seats
import TreeCheck.Proofs.Ownership.Shift
import TreeCheck.Proofs.Ownership.ShiftWalk
import TreeCheck.Proofs.Ownership.Slots
import TreeCheck.Proofs.Ownership.Sources
import TreeCheck.Proofs.Ownership.Stored
import TreeCheck.Proofs.Recursion
import TreeCheck.Proofs.Symbol.Collection
import TreeCheck.Proofs.Symbol.Members
import TreeCheck.Proofs.Symbol.Passes
import TreeCheck.Proofs.Symbol.Proper
import TreeCheck.Proofs.Symbol.Reading
import TreeCheck.Proofs.Symbol.Regular
import TreeCheck.Proofs.Symbol.Reordering
import TreeCheck.Proofs.Symbol.Shapes
import TreeCheck.Proofs.Symbol.Spelling
import TreeCheck.Proofs.Syntax.Addresses
import TreeCheck.Proofs.Syntax.Decoded
import TreeCheck.Proofs.Syntax.Legible
import TreeCheck.Proofs.Syntax.Shift
import TreeCheck.Proofs.Syntax.TypeGrammar
import TreeCheck.Proofs.Syntax.TypeText
import TreeCheck.Proofs.Text.Quotation
import TreeCheck.Proofs.Ty.Bindings
import TreeCheck.Proofs.Ty.Fill
import TreeCheck.Proofs.Ty.MostGeneral
import TreeCheck.Proofs.Ty.Proper
import TreeCheck.Proofs.Ty.References
import TreeCheck.Proofs.Ty.Runs
import TreeCheck.Proofs.Ty.Unification
import TreeCheck.Proofs.Typing.Checks
import TreeCheck.Proofs.Typing.Choices
import TreeCheck.Proofs.Typing.Closed
import TreeCheck.Proofs.Typing.Instantiations
import TreeCheck.Proofs.Typing.Literals
import TreeCheck.Proofs.Typing.Lookups
import TreeCheck.Proofs.Typing.Operands
import TreeCheck.Proofs.Typing.ShiftWalk
import TreeCheck.Proofs.Typing.Steps
import TreeCheck.Proofs.Typing.TraceWalk
import TreeCheck.Proofs.Typing.Traces
import TreeCheck.Proofs.Typing.Walk
import TreeCheck.Proofs.Typing.WellTyped
import TreeCheck.Source
import TreeCheck.Symbol.Collect
import TreeCheck.Symbol.Table
import TreeCheck.Syntax.NodeTable
import TreeCheck.Syntax.Nodes
import TreeCheck.Syntax.Printer
import TreeCheck.Syntax.ReadError
import TreeCheck.Syntax.Reader
import TreeCheck.Syntax.Tree
import TreeCheck.Syntax.TypeExpr
import TreeCheck.Syntax.TypeReader
import TreeCheck.Text.Aligned
import TreeCheck.Text.Digest
import TreeCheck.Text.Octets
import TreeCheck.Text.Printable
import TreeCheck.Text.Quoted
import TreeCheck.Text.Utf8
import TreeCheck.Ty.Basic
import TreeCheck.Ty.Decls
import TreeCheck.Ty.Engine
import TreeCheck.Typing.Infer
import TreeCheck.Typing.Lookup
import TreeCheck.Typing.Result
import TreeCheck.Typing.State
import TreeCheck.Version.Basic
import TreeCheck.Version.Constraint
