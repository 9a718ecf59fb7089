import Jack.Text.Blank
import Jack.Text.Control
import Jack.Text.Lines
import Jack.Text.Numeral
import Jack.Text.Printable
import Jack.Text.Quoted
import Jack.Text.Upper
import Jack.Text.Utf8
import Jack.Location
import Jack.Scalar
import Jack.Diagnostic
import Jack.Token
import Jack.Token.Cursor
import Jack.Token.Scan
import Jack.Scope
import Jack.Scope.Table
import Jack.Scope.Request
import Jack.Instruction
import Jack.Instruction.Request
import Jack.Listing
import Jack.Compile.State
import Jack.Compile.Goal
import Jack.Compile.Step
import Jack.Compile.Outcome
import Jack.Source
import Jack.Path
import Jack.FileTree
import Jack.SourceFile
import Jack.CommandLine.Arguments
import Jack.CommandLine.Report
import Jack.CommandLine.Run
import Jack.Main
import Jack.Proofs.Lexeme
import Jack.Proofs.Syntax
import Jack.Proofs.Translation
import Jack.Proofs.StaticRules
import Jack.Proofs.View
import Jack.Proofs.Meaning
import Jack.Proofs.Expressions
import Jack.Proofs.Acceptance
import Jack.Proofs.Bodies
import Jack.Proofs.Heights
import Jack.Proofs.Operands
import Jack.Proofs.Jumps
import Jack.Proofs.Lexing
import Jack.Proofs.Lookahead
import Jack.Proofs.SyntaxErrors
import Jack.Proofs.Slots
import Jack.Proofs.ScopeTables
import Jack.Proofs.Located
import Jack.Proofs.Constants
import Jack.Proofs.Lockstep
import Jack.Proofs.Division
import Jack.Proofs.Independence
import Jack.Proofs.Layout
import Jack.Proofs.Unambiguity
import Jack.Proofs.Reordering
import Jack.Proofs.Derivation
import Jack.Proofs.Listings
import Jack.Proofs.Paths
import Jack.Proofs.FileTrees
import Jack.Proofs.Deliveries
import Jack.Proofs.DirectoryRuns
import Jack.Proofs.Positions
import Jack.Proofs.Printing
import Jack.Proofs.Interruptions
import Jack.Proofs.Values
import Jack.Proofs.Decoding
import Jack.Proofs.Surroundings
import Jack.Proofs.Ahead
import Jack.Proofs.KnownClasses
import Jack.Proofs.Confinement
import Jack.Proofs.Recording
import Jack.Proofs.Grouping
import Jack.Proofs.Markup
import Jack.Proofs.Subjects
import Jack.Proofs.QuotedLines
import Jack.Proofs.Endings
import Jack.Proofs.Progress
import Jack.Proofs.SingleFiles
import Jack.Proofs.OutputFiles
