import ExprLang.CommandLine
import ExprLang.Continuation
import ExprLang.Cursor
import ExprLang.Decimal
import ExprLang.Double
import ExprLang.Eval
import ExprLang.EvalError
import ExprLang.Expr
import ExprLang.Failure
import ExprLang.Grammar
import ExprLang.Interpret
import ExprLang.Launch
import ExprLang.Lexeme
import ExprLang.Main
import ExprLang.Number
import ExprLang.Operator
import ExprLang.Reporter
import ExprLang.Session
import ExprLang.Shell
import ExprLang.SourceError
import ExprLang.Store
import ExprLang.Text.Blank
import ExprLang.Text.Digit
import ExprLang.Text.Lines
import ExprLang.Text.Printable
import ExprLang.Text.Quoted
import ExprLang.Text.Utf8
import ExprLang.TokenSource
import ExprLang.TokenStream
import ExprLang.Value
import ExprLang.Proofs.Outcome
import ExprLang.Proofs.Language
import ExprLang.Proofs.Words
import ExprLang.Proofs.Soundness
import ExprLang.Proofs.Simulation
import ExprLang.Proofs.Stream
import ExprLang.Proofs.TokenCursor
import ExprLang.Proofs.Similar
import ExprLang.Proofs.Spelling
import ExprLang.Proofs.Acceptance
import ExprLang.Proofs.Viability
import ExprLang.Proofs.Lookahead
import ExprLang.Proofs.Context
import ExprLang.Proofs.Recognition
import ExprLang.Proofs.Traversal
import ExprLang.Proofs.SyntaxErrors
import ExprLang.Proofs.Depth
import ExprLang.Proofs.Precedence
import ExprLang.Proofs.LexemeText
import ExprLang.Proofs.Lexing
import ExprLang.Proofs.MaximalMunch
import ExprLang.Proofs.Layout
import ExprLang.Proofs.Carets
import ExprLang.Proofs.Render
import ExprLang.Proofs.Scopes
import ExprLang.Proofs.Cells
import ExprLang.Proofs.Evaluation
import ExprLang.Proofs.Safety
import ExprLang.Proofs.FreeNames
import ExprLang.Proofs.Bindings
import ExprLang.Proofs.Reachability
import ExprLang.Proofs.Correspondence
import ExprLang.Proofs.Privacy
import ExprLang.Proofs.Unmentioned
import ExprLang.Proofs.Sequencing
import ExprLang.Proofs.Sessions
import ExprLang.Proofs.Ledger
import ExprLang.Proofs.ShellLines
import ExprLang.Proofs.ShellInvariant
import ExprLang.Proofs.Trimming
import ExprLang.Proofs.TypedText
import ExprLang.Proofs.Output
import ExprLang.Proofs.DepthLimit
import ExprLang.Proofs.Brackets
import ExprLang.Proofs.Attribution
import ExprLang.Proofs.Endings
import ExprLang.Proofs.LineNumbers
import ExprLang.Proofs.Asking
import ExprLang.Proofs.Progress
import ExprLang.Proofs.ExpressionEnd
