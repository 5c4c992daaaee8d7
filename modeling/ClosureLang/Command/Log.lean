import ClosureLang.Eval.Machine
import ClosureLang.Parse.Diagnostic

/-!
# The log

What the command line can log, and how. An event is logged at one of two levels; the verbosity says
which of them are shown.
-/

namespace ClosureLang

/-- Why a file cannot be read. -/
inductive ReadError where
  | missing
  | directory
  | notText
  | other (reason : String)
  deriving DecidableEq, Repr

/-- The wording of a read error. -/
def ReadError.message : ReadError → String
  | missing => "No such file or directory (os error 2)"
  | directory => "Is a directory (os error 21)"
  | notText => "stream did not contain valid UTF-8"
  | other reason => reason

/-- Why a run of the program failed. -/
inductive Failure where
  | unreadable (path : String) (e : ReadError)
  | badLine
  | diagnostics (count : Nat)
  | evaluation (e : EvalError)
  deriving DecidableEq, Repr

namespace Failure

/-- The wording of a failure. -/
def message : Failure → String
  | unreadable path e => "could not read " ++ path ++ ": " ++ e.message
  | badLine => ReadError.notText.message
  | diagnostics count => count.repr ++ " parse error(s)"
  | evaluation e => e.message

/-- Whether a failure is told on the standard error. Diagnostics and evaluation errors have been
printed as the answer already. -/
def announced : Failure → Bool
  | unreadable .. | badLine => true
  | diagnostics _ | evaluation _ => false

end Failure

/-- What is logged. -/
inductive LogEvent where
  | readScript (path : String) (bytes : Nat)
  | parseError (r : Report)
  | parsed (statements errors : Nat)
  | evaluating (statements : Nat)
  | called (c : CallEvent)
  | evaluationFailed (e : EvalError)
  | runFailed (f : Failure)

namespace LogEvent

/-- Whether an event is logged at the level of traces, and not at that of debugging. -/
def isTrace : LogEvent → Bool
  | parseError _ | called _ => true
  | _ => false

/-- The source that an event is logged under. -/
def target : LogEvent → String
  | readScript .. => "scroopy::runner"
  | parseError _ | parsed .. => "scroopy_core::parser"
  | evaluating _ | called _ | evaluationFailed _ => "scroopy_interpreter::evaluator"
  | runFailed _ => "scroopy"

/-- The wording of an event. -/
def message : LogEvent → String
  | readScript path bytes => "running script path=" ++ path ++ " bytes=" ++ bytes.repr
  | parseError r =>
    "parse error error=" ++ r.diagnostic.message ++ " position=" ++ r.position.repr
  | parsed statements errors =>
    "parsed program statements=" ++ statements.repr ++ " errors=" ++ errors.repr
  | evaluating statements => "evaluating program statements=" ++ statements.repr
  | called (.closure arity) => "calling function arity=" ++ arity.repr
  | called (.builtin f arity) =>
    "calling builtin name=\"" ++ f.name ++ "\" arity=" ++ arity.repr
  | evaluationFailed e => "evaluation failed error=" ++ e.message
  | runFailed f => "run failed error=" ++ f.message

/-- The line that is logged for an event. -/
def line (e : LogEvent) : String :=
  (if e.isTrace then "TRACE" else "DEBUG") ++ " " ++ e.target ++ ": " ++ e.message

/-- Whether an event is shown: at verbosity one without the traces, above that with them. -/
def shownAt (verbosity : Nat) (e : LogEvent) : Bool :=
  if e.isTrace then 1 < verbosity else 0 < verbosity

end LogEvent

/-- The lines of the events that are shown. -/
def logLines (verbosity : Nat) (events : List LogEvent) : List String :=
  (events.filter (·.shownAt verbosity)).map LogEvent.line

end ClosureLang
