import Treewalk.CommandLine.Arguments
import Treewalk.CommandLine.Files
import Treewalk.CommandLine.Session
import Treewalk.Decimal
import Treewalk.Decimal.Binary64
import Treewalk.Decimal.Shortest
import Treewalk.Diagnostic
import Treewalk.Environment
import Treewalk.Expr
import Treewalk.Expr.Eval
import Treewalk.Expr.Parser
import Treewalk.Machine
import Treewalk.Main
import Treewalk.Number
import Treewalk.Operator
import Treewalk.Program
import Treewalk.Proofs.Equality
import Treewalk.Proofs.Execution.Agreement
import Treewalk.Proofs.Execution.Blame
import Treewalk.Proofs.Execution.Blocks
import Treewalk.Proofs.Execution.BoundedOutput
import Treewalk.Proofs.Execution.Calls
import Treewalk.Proofs.Execution.Footprint
import Treewalk.Proofs.Execution.Frames
import Treewalk.Proofs.Execution.Orderly
import Treewalk.Proofs.Execution.ScopeRecords
import Treewalk.Proofs.Execution.Steps
import Treewalk.Proofs.Grammar
import Treewalk.Proofs.Grammar.Boundaries
import Treewalk.Proofs.Grammar.Completion
import Treewalk.Proofs.Grammar.Depth
import Treewalk.Proofs.Grammar.Detection
import Treewalk.Proofs.Grammar.EndOfInput
import Treewalk.Proofs.Grammar.Expressions
import Treewalk.Proofs.Grammar.Extent
import Treewalk.Proofs.Grammar.Failures
import Treewalk.Proofs.Grammar.FirstError
import Treewalk.Proofs.Grammar.Isolation
import Treewalk.Proofs.Grammar.Levels
import Treewalk.Proofs.Grammar.Lines
import Treewalk.Proofs.Grammar.Operators
import Treewalk.Proofs.Grammar.Order
import Treewalk.Proofs.Grammar.Parsers
import Treewalk.Proofs.Grammar.Programs
import Treewalk.Proofs.Grammar.Recovery
import Treewalk.Proofs.Grammar.Room
import Treewalk.Proofs.Grammar.StatementFailures
import Treewalk.Proofs.Grammar.Statements
import Treewalk.Proofs.Grammar.Termination
import Treewalk.Proofs.Grammar.WellShaped
import Treewalk.Proofs.Height
import Treewalk.Proofs.Joining
import Treewalk.Proofs.Layout
import Treewalk.Proofs.Lexical.LineCounter
import Treewalk.Proofs.Lexical.LongestMatch
import Treewalk.Proofs.Lexical.Passages
import Treewalk.Proofs.Lexical.Patterns
import Treewalk.Proofs.Lexical.Rescanning
import Treewalk.Proofs.Lexical.Seam
import Treewalk.Proofs.Lexical.Tokens
import Treewalk.Proofs.Lines
import Treewalk.Proofs.Numbers
import Treewalk.Proofs.Numbers.ReadBack
import Treewalk.Proofs.Numbers.Signs
import Treewalk.Proofs.Phases
import Treewalk.Proofs.Printing
import Treewalk.Proofs.Printing.Sexp
import Treewalk.Proofs.Printing.Trees
import Treewalk.Proofs.Prompts
import Treewalk.Proofs.Scopes.Chain
import Treewalk.Proofs.Scopes.Handles
import Treewalk.Proofs.Scopes.Names
import Treewalk.Proofs.Scopes.Shape
import Treewalk.Proofs.Scopes.Stack
import Treewalk.Proofs.Scoping
import Treewalk.Proofs.Sessions
import Treewalk.Proofs.TokenParser
import Treewalk.Record
import Treewalk.Run
import Treewalk.RuntimeError
import Treewalk.Sink
import Treewalk.Statement
import Treewalk.Statement.Exec
import Treewalk.Statement.Parser
import Treewalk.Token
import Treewalk.Token.Parser
import Treewalk.Token.Piece
import Treewalk.Token.Scan
import Treewalk.Value
