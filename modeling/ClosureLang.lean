import ClosureLang.Token.Basic
import ClosureLang.Token.Scanner
import ClosureLang.Tree.Basic
import ClosureLang.Tree.Text
import ClosureLang.Tree.Tagging
import ClosureLang.Parse.Diagnostic
import ClosureLang.Parse.Precedence
import ClosureLang.Parse.Cursor
import ClosureLang.Parse.Production
import ClosureLang.Parse.Depth
import ClosureLang.Parse.Program
import ClosureLang.Number.Power
import ClosureLang.Value.Basic
import ClosureLang.Value.Entries
import ClosureLang.Value.Text
import ClosureLang.Value.Equality
import ClosureLang.Store
import ClosureLang.Eval.Error
import ClosureLang.Eval.Operator
import ClosureLang.Eval.Machine
import ClosureLang.Eval.Program
import ClosureLang.Session
import ClosureLang.Text.Space
import ClosureLang.Text.Line
import ClosureLang.Command.Log
import ClosureLang.Command.Options
import ClosureLang.Command.Script
import ClosureLang.Command.LineLoop
import ClosureLang.Command.Run
import ClosureLang.Main
import ClosureLang.Proofs.Token.Reading
import ClosureLang.Proofs.Token.Joining
import ClosureLang.Proofs.Token.Spans
import ClosureLang.Proofs.Token.Mending
import ClosureLang.Proofs.Token.Blotting
import ClosureLang.Proofs.Token.Munch
import ClosureLang.Proofs.Parse.Grammar
import ClosureLang.Proofs.Parse.Moves
import ClosureLang.Proofs.Parse.Sound
import ClosureLang.Proofs.Parse.Complete
import ClosureLang.Proofs.Parse.Exact
import ClosureLang.Proofs.Parse.Locality
import ClosureLang.Proofs.Parse.WellFormed
import ClosureLang.Proofs.Parse.Mending
import ClosureLang.Proofs.Parse.Charges
import ClosureLang.Proofs.Parse.Refines
import ClosureLang.Proofs.Parse.Recursion
import ClosureLang.Proofs.Parse.Termination
import ClosureLang.Proofs.Parse.Reports
import ClosureLang.Proofs.Parse.Inversion
import ClosureLang.Proofs.Parse.Blotting
import ClosureLang.Proofs.Parse.Severing
import ClosureLang.Proofs.Parse.Unplaced
import ClosureLang.Proofs.Parse.Composition
import ClosureLang.Proofs.Tree.Shape
import ClosureLang.Proofs.Tree.Names
import ClosureLang.Proofs.Text.Spelling
import ClosureLang.Proofs.Text.RoundTrip
import ClosureLang.Proofs.Text.Writing
import ClosureLang.Proofs.Text.Lines
import ClosureLang.Proofs.Value.Hereditary
import ClosureLang.Proofs.Value.Functions
import ClosureLang.Proofs.Value.Captures
import ClosureLang.Proofs.Value.Alike
import ClosureLang.Proofs.Value.Entries
import ClosureLang.Proofs.Value.Equality
import ClosureLang.Proofs.Store.Bindings
import ClosureLang.Proofs.Store.WellFormed
import ClosureLang.Proofs.Store.Alike
import ClosureLang.Proofs.Store.Shadowing
import ClosureLang.Proofs.Eval.Frame
import ClosureLang.Proofs.Eval.Preservation
import ClosureLang.Proofs.Eval.History
import ClosureLang.Proofs.Eval.Alike
import ClosureLang.Proofs.Eval.Depth
import ClosureLang.Proofs.Eval.Calls
import ClosureLang.Proofs.Eval.Returns
import ClosureLang.Proofs.Eval.Unmentioned
import ClosureLang.Proofs.Eval.Truthful
import ClosureLang.Proofs.Eval.Ordered
import ClosureLang.Proofs.Eval.Arithmetic
import ClosureLang.Proofs.Eval.HashLiteral
import ClosureLang.Proofs.Eval.Comparison
import ClosureLang.Proofs.Eval.Results
import ClosureLang.Proofs.Eval.MapProgram
import ClosureLang.Proofs.Text.Data
import ClosureLang.Proofs.Command.Agreement
