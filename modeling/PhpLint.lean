import PhpLint.Analysis.Assigned
import PhpLint.Analysis.Dispatcher
import PhpLint.Analysis.Evaluation
import PhpLint.Analysis.Issue
import PhpLint.Analysis.Node
import PhpLint.Analysis.Source
import PhpLint.Analysis.State
import PhpLint.CommandLine.Arguments
import PhpLint.CommandLine.Check
import PhpLint.CommandLine.Message
import PhpLint.Files.Disk
import PhpLint.Files.Path
import PhpLint.Files.Tree
import PhpLint.Json.Basic
import PhpLint.Json.Text
import PhpLint.Main
import PhpLint.Number.Binary64
import PhpLint.Number.Decimal
import PhpLint.Number.Digits
import PhpLint.Number.Numeral
import PhpLint.Operator
import PhpLint.Proofs.Analysis.Assignments
import PhpLint.Proofs.Analysis.CompoundAssignment
import PhpLint.Proofs.Analysis.ConditionalOperand
import PhpLint.Proofs.Analysis.Constants
import PhpLint.Proofs.Analysis.Deduplication
import PhpLint.Proofs.Analysis.Dispatching
import PhpLint.Proofs.Analysis.Effect
import PhpLint.Proofs.Analysis.Fatality
import PhpLint.Proofs.Analysis.Findings
import PhpLint.Proofs.Analysis.Frame
import PhpLint.Proofs.Analysis.Handover
import PhpLint.Proofs.Analysis.Independence
import PhpLint.Proofs.Analysis.IssuePlaces
import PhpLint.Proofs.Analysis.Journal
import PhpLint.Proofs.Analysis.OwnScope
import PhpLint.Proofs.Analysis.Propriety
import PhpLint.Proofs.Analysis.Reevaluation
import PhpLint.Proofs.Analysis.Residue
import PhpLint.Proofs.Analysis.Subjects
import PhpLint.Proofs.Analysis.Transaction
import PhpLint.Proofs.Analysis.Validity
import PhpLint.Proofs.Analysis.Visits
import PhpLint.Proofs.Analysis.WellFormed
import PhpLint.Proofs.Number.Doubles
import PhpLint.Proofs.Number.Grammar
import PhpLint.Proofs.Number.Integers
import PhpLint.Proofs.Number.NearestDouble
import PhpLint.Proofs.Number.Order
import PhpLint.Proofs.Number.Rounding
import PhpLint.Proofs.Number.SignificantDigits
import PhpLint.Proofs.Semantics.Coverage
import PhpLint.Proofs.Semantics.Expressions
import PhpLint.Proofs.Semantics.Run
import PhpLint.Proofs.Semantics.Soundness
import PhpLint.Proofs.Semantics.Statements
import PhpLint.Proofs.Source.Coordinates
import PhpLint.Proofs.Source.Cut
import PhpLint.Proofs.Source.IntegerLiterals
import PhpLint.Proofs.Source.Interpolation
import PhpLint.Proofs.Source.Quoting
import PhpLint.Proofs.Source.Respelling
import PhpLint.Proofs.Source.Spelling
import PhpLint.Proofs.Step
import PhpLint.Proofs.Syntax.Bodies
import PhpLint.Proofs.Syntax.CallPlaces
import PhpLint.Proofs.Syntax.ClosingTag
import PhpLint.Proofs.Syntax.Composition
import PhpLint.Proofs.Syntax.Content
import PhpLint.Proofs.Syntax.Deepening
import PhpLint.Proofs.Syntax.DepthCounter
import PhpLint.Proofs.Syntax.DocBlocks
import PhpLint.Proofs.Syntax.DocComments
import PhpLint.Proofs.Syntax.Unseen
import PhpLint.Proofs.Syntax.Height
import PhpLint.Proofs.Syntax.Inversion
import PhpLint.Proofs.Syntax.Layout
import PhpLint.Proofs.Syntax.Legibility
import PhpLint.Proofs.Syntax.Lockstep
import PhpLint.Proofs.Syntax.Movement
import PhpLint.Proofs.Syntax.Nesting
import PhpLint.Proofs.Syntax.Onset
import PhpLint.Proofs.Syntax.Operands
import PhpLint.Proofs.Syntax.Parts
import PhpLint.Proofs.Syntax.Pieces
import PhpLint.Proofs.Syntax.Placeholders
import PhpLint.Proofs.Syntax.Places
import PhpLint.Proofs.Syntax.Precedence
import PhpLint.Proofs.Syntax.Progress
import PhpLint.Proofs.Syntax.Reading
import PhpLint.Proofs.Syntax.Regions
import PhpLint.Proofs.Syntax.Rendering
import PhpLint.Proofs.Syntax.Resumption
import PhpLint.Proofs.Syntax.Seams
import PhpLint.Proofs.Syntax.Spans
import PhpLint.Proofs.Syntax.StatementEnds
import PhpLint.Proofs.Syntax.StatementLayout
import PhpLint.Proofs.Syntax.Stopping
import PhpLint.Proofs.Syntax.Terminators
import PhpLint.Proofs.Value.ArrayLiteral
import PhpLint.Proofs.Value.ArrayOrder
import PhpLint.Proofs.Value.Comparison
import PhpLint.Proofs.Value.Equality
import PhpLint.Proofs.Value.FloatText
import PhpLint.Proofs.Value.Folding
import PhpLint.Proofs.Value.IntegerFolding
import PhpLint.Proofs.Value.Keys
import PhpLint.Proofs.Value.Mirror
import PhpLint.Proofs.Value.Power
import PhpLint.Proofs.Value.Refinement
import PhpLint.Proofs.Value.WellFormed
import PhpLint.Report.Basic
import PhpLint.Rule.Basic
import PhpLint.Rule.Call
import PhpLint.Rule.Structure
import PhpLint.Settings.Basic
import PhpLint.Settings.Reading
import PhpLint.Source.Location
import PhpLint.Source.NumberLiteral
import PhpLint.Source.Segment
import PhpLint.Source.StringLiteral
import PhpLint.Source.Token
import PhpLint.Syntax.DocBlock
import PhpLint.Syntax.Error
import PhpLint.Syntax.Expression
import PhpLint.Syntax.NodeKind
import PhpLint.Syntax.Parser
import PhpLint.Syntax.Program
import PhpLint.Syntax.Statement
import PhpLint.Syntax.Tree
import PhpLint.Text.Alphabetic
import PhpLint.Text.Blank
import PhpLint.Text.Numeric
import PhpLint.Toml.Date
import PhpLint.Toml.Document
import PhpLint.Toml.Number
import PhpLint.Toml.Reader
import PhpLint.Toml.Token
import PhpLint.Toml.Value
import PhpLint.Value.Array
import PhpLint.Value.Basic
import PhpLint.Value.Compare
import PhpLint.Value.Convert
import PhpLint.Value.Entries
import PhpLint.Value.FloatText
import PhpLint.Value.Operate
