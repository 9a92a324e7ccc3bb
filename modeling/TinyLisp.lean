import TinyLisp.Main
import TinyLisp.Value.Plain
import TinyLisp.Proofs.Grammar.Derivation
import TinyLisp.Proofs.Grammar.Parsing
import TinyLisp.Proofs.Numeral.Decimal
import TinyLisp.Proofs.Token.Scanning
import TinyLisp.Proofs.RoundTrip
import TinyLisp.Proofs.Environment.Substitution
import TinyLisp.Proofs.Registry.Builtins
import TinyLisp.Proofs.Eval.Transcript
import TinyLisp.Proofs.Eval.Levels
import TinyLisp.Proofs.Eval.Safety
import TinyLisp.Proofs.Eval.Let
import TinyLisp.Proofs.Output.Sink
import TinyLisp.Proofs.Eval.Relation
import TinyLisp.Proofs.Eval.Counter
import TinyLisp.Proofs.Eval.History
import TinyLisp.Proofs.Eval.Request
import TinyLisp.Proofs.Eval.Limit
import TinyLisp.Proofs.Eval.Refusal
import TinyLisp.Proofs.Text.Rune
import TinyLisp.Proofs.Token.Lines
import TinyLisp.Proofs.Grammar.Places
import TinyLisp.Proofs.Grammar.TopLevel
import TinyLisp.Proofs.Eval.Program
import TinyLisp.Proofs.Token.Lexemes
import TinyLisp.Proofs.Token.Order
import TinyLisp.Proofs.Grammar.Rejection
import TinyLisp.Proofs.Session.Lines
import TinyLisp.Proofs.Eval.Observation
import TinyLisp.Proofs.Arithmetic.Overflow
import TinyLisp.Proofs.Arithmetic.Division
import TinyLisp.Proofs.Eval.Nesting
import TinyLisp.Proofs.Environment.Scope
import TinyLisp.Proofs.Value.Equality
import TinyLisp.Proofs.Token.Positions
import TinyLisp.Proofs.Token.Literals
import TinyLisp.Proofs.Grammar.Postorder
import TinyLisp.Proofs.Grammar.Grouping
import TinyLisp.Proofs.Eval.Depth
import TinyLisp.Proofs.Output.Trace
import TinyLisp.Proofs.Session.Completion
import TinyLisp.Proofs.Registry.Chapters
import TinyLisp.Proofs.Registry.Pages
import TinyLisp.Proofs.Registry.Refusal
import TinyLisp.Proofs.Command.Watch
