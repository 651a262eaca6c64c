import AsmTree.Blob
import AsmTree.Blob.Wire
import AsmTree.Cursor
import AsmTree.Diagnostic.Basic
import AsmTree.Diagnostic.Code
import AsmTree.Diagnostic.Context
import AsmTree.Edit
import AsmTree.Grammar.Assembly
import AsmTree.Grammar.Basic
import AsmTree.Grammar.Expressions
import AsmTree.Grammar.Rule
import AsmTree.Kind
import AsmTree.Machine.Basic
import AsmTree.Machine.Recovery
import AsmTree.Machine.Report
import AsmTree.Machine.Run
import AsmTree.Parser
import AsmTree.Proofs.Assembly.Blocks
import AsmTree.Proofs.Assembly.Grammar
import AsmTree.Proofs.Assembly.Operators
import AsmTree.Proofs.Assembly.Rows
import AsmTree.Proofs.Assembly.Slots
import AsmTree.Proofs.Blob.Built
import AsmTree.Proofs.Blob.RoundTrip
import AsmTree.Proofs.Blob.Wire
import AsmTree.Proofs.Grammar.Blocks
import AsmTree.Proofs.Grammar.Derivation
import AsmTree.Proofs.Grammar.Flattening
import AsmTree.Proofs.Grammar.Language
import AsmTree.Proofs.Grammar.Lines
import AsmTree.Proofs.Grammar.Operators
import AsmTree.Proofs.Grammar.Readers
import AsmTree.Proofs.Grammar.Rows
import AsmTree.Proofs.Grammar.Slots
import AsmTree.Proofs.Grammar.WellFormed
import AsmTree.Proofs.Grammar.Words
import AsmTree.Proofs.Machine.Accounts
import AsmTree.Proofs.Machine.Anchored
import AsmTree.Proofs.Machine.Bonds
import AsmTree.Proofs.Machine.Choices
import AsmTree.Proofs.Machine.Complete
import AsmTree.Proofs.Machine.DryRuns
import AsmTree.Proofs.Machine.Edges
import AsmTree.Proofs.Machine.Expected
import AsmTree.Proofs.Machine.Grounded
import AsmTree.Proofs.Machine.Grouping
import AsmTree.Proofs.Machine.Guarded
import AsmTree.Proofs.Machine.Horizon
import AsmTree.Proofs.Machine.Invariants
import AsmTree.Proofs.Machine.Leaves
import AsmTree.Proofs.Machine.Ledgers
import AsmTree.Proofs.Machine.Letters
import AsmTree.Proofs.Machine.Limits
import AsmTree.Proofs.Machine.LineEnds
import AsmTree.Proofs.Machine.LineStarts
import AsmTree.Proofs.Machine.Moved
import AsmTree.Proofs.Machine.Moves
import AsmTree.Proofs.Machine.Nodes
import AsmTree.Proofs.Machine.OpenBlocks
import AsmTree.Proofs.Machine.Order
import AsmTree.Proofs.Machine.Places
import AsmTree.Proofs.Machine.Productions
import AsmTree.Proofs.Machine.Progress
import AsmTree.Proofs.Machine.Quiet
import AsmTree.Proofs.Machine.Records
import AsmTree.Proofs.Machine.Regions
import AsmTree.Proofs.Machine.Reports
import AsmTree.Proofs.Machine.Runs
import AsmTree.Proofs.Machine.Sentences
import AsmTree.Proofs.Machine.Skeletons
import AsmTree.Proofs.Machine.Splices
import AsmTree.Proofs.Machine.Stacks
import AsmTree.Proofs.Machine.Standing
import AsmTree.Proofs.Machine.Steps
import AsmTree.Proofs.Machine.Takes
import AsmTree.Proofs.Machine.Viable
import AsmTree.Proofs.Parser.Choices
import AsmTree.Proofs.Parser.Consistency
import AsmTree.Proofs.Parser.Defaults
import AsmTree.Proofs.Parser.Derived
import AsmTree.Proofs.Parser.Descents
import AsmTree.Proofs.Parser.Docs
import AsmTree.Proofs.Parser.DryRuns
import AsmTree.Proofs.Parser.Edges
import AsmTree.Proofs.Parser.Edits
import AsmTree.Proofs.Parser.Exact
import AsmTree.Proofs.Parser.Expected
import AsmTree.Proofs.Parser.Foreign
import AsmTree.Proofs.Parser.Grouping
import AsmTree.Proofs.Parser.Letters
import AsmTree.Proofs.Parser.Limits
import AsmTree.Proofs.Parser.LineEnds
import AsmTree.Proofs.Parser.Literals
import AsmTree.Proofs.Parser.Locality
import AsmTree.Proofs.Parser.Lossless
import AsmTree.Proofs.Parser.OpenBlocks
import AsmTree.Proofs.Parser.Order
import AsmTree.Proofs.Parser.Outline
import AsmTree.Proofs.Parser.Reductions
import AsmTree.Proofs.Parser.Regions
import AsmTree.Proofs.Parser.Sessions
import AsmTree.Proofs.Parser.Slots
import AsmTree.Proofs.Parser.Totality
import AsmTree.Proofs.Parser.Unreadable
import AsmTree.Proofs.Parser.Yields
import AsmTree.Proofs.Table.Awaited
import AsmTree.Proofs.Table.Bounds
import AsmTree.Proofs.Table.Canonical
import AsmTree.Proofs.Table.Cells
import AsmTree.Proofs.Table.Certificate
import AsmTree.Proofs.Table.Cover
import AsmTree.Proofs.Table.Defaults
import AsmTree.Proofs.Table.Ends
import AsmTree.Proofs.Table.Faultless
import AsmTree.Proofs.Table.Fields
import AsmTree.Proofs.Table.First
import AsmTree.Proofs.Table.Follow
import AsmTree.Proofs.Table.Guarded
import AsmTree.Proofs.Table.Inclusions
import AsmTree.Proofs.Table.Items
import AsmTree.Proofs.Table.Lookaheads
import AsmTree.Proofs.Table.Loops
import AsmTree.Proofs.Table.Operators
import AsmTree.Proofs.Table.Paths
import AsmTree.Proofs.Table.Precedence
import AsmTree.Proofs.Table.Rounds
import AsmTree.Proofs.Table.Settled
import AsmTree.Proofs.Table.Sparse
import AsmTree.Proofs.Table.Spread
import AsmTree.Proofs.Table.States
import AsmTree.Proofs.Table.Successors
import AsmTree.Proofs.Text.Bytes
import AsmTree.Proofs.Text.Digits
import AsmTree.Proofs.Text.Letters
import AsmTree.Proofs.Text.Offsets
import AsmTree.Proofs.Text.Positions
import AsmTree.Proofs.Text.WordPositions
import AsmTree.Proofs.Token.Classes
import AsmTree.Proofs.Token.Delimiters
import AsmTree.Proofs.Token.Letters
import AsmTree.Proofs.Token.Lines
import AsmTree.Proofs.Token.Numbers
import AsmTree.Proofs.Token.Partition
import AsmTree.Proofs.Token.Patterns
import AsmTree.Proofs.Token.Reading
import AsmTree.Proofs.Token.Strings
import AsmTree.Proofs.Token.Tokens
import AsmTree.Proofs.Tree.Descents
import AsmTree.Proofs.Tree.Grouping
import AsmTree.Proofs.Tree.Outline
import AsmTree.Proofs.Tree.Paths
import AsmTree.Proofs.Tree.Places
import AsmTree.Proofs.Tree.Slots
import AsmTree.Proofs.Tree.Subtrees
import AsmTree.Proofs.Tree.Traversals
import AsmTree.Proofs.Tree.Walkers
import AsmTree.Proofs.View.Docs
import AsmTree.Proofs.View.Numbers
import AsmTree.Proofs.View.Strings
import AsmTree.Shipped
import AsmTree.SyntaxTree
import AsmTree.Table.Automaton
import AsmTree.Table.Basic
import AsmTree.Table.BitSet
import AsmTree.Table.Build
import AsmTree.Table.First
import AsmTree.Table.Lookahead
import AsmTree.Table.Sparse
import AsmTree.Text.Blank
import AsmTree.Text.Bytes
import AsmTree.Text.CharRanges
import AsmTree.Text.Decimal
import AsmTree.Text.Digits
import AsmTree.Text.Pattern
import AsmTree.Text.Position
import AsmTree.Text.Quoted
import AsmTree.Text.Utf8
import AsmTree.Text.WordPosition
import AsmTree.Token.Lexer
import AsmTree.Token.Lexical
import AsmTree.Tree.Basic
import AsmTree.Tree.Dump
import AsmTree.Tree.Located
import AsmTree.View
import AsmTree.View.Basic
import AsmTree.View.Directive
import AsmTree.View.Doc
import AsmTree.View.Expr
import AsmTree.View.Line
import AsmTree.View.Literal
import AsmTree.Walker
