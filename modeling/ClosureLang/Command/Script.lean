import ClosureLang.Command.Log
import ClosureLang.Eval.Program
import ClosureLang.Parse.Program
import ClosureLang.Value.Text

/-!
# Running a source

A source that has diagnostics is not evaluated; its diagnostics are the answer. Otherwise the answer
is the text of its value, or the error. A script is a source that is run once on a machine of its
own.
-/

namespace ClosureLang

/-- A machine with one empty scope, the scope of number zero. -/
def Machine.ofRoot {τ : Type} : Machine τ := { store := (Store.empty.add none).2 }

/-- The answer to a source: what is logged, what is printed, why it failed if it did, and the machine
that is left. -/
structure Answer where
  events : List LogEvent
  output : String
  failure : Option Failure
  machine : Machine Unit

/-- The line that is printed for an outcome. -/
def outcomeLine {τ : Type} : Except EvalError (Value τ) → String
  | .ok v => v.display ++ "\n"
  | .error e => "ERROR: " ++ e.message ++ "\n"

/-- The lines that are printed for diagnostics. -/
def diagnosticLines (ds : List Diagnostic) : String :=
  String.join (ds.map fun d => "\t" ++ d.message ++ "\n")

/-- Parses a source and, if it has no diagnostics, evaluates it in the scope of number zero. Calls of
closures may nest `depth` deep. -/
def answerSource (depth : Nat) (machine : Machine Unit) (source : String) : Option Answer :=
  let parsed := parse source
  let statements := parsed.program.length
  let events := parsed.reports.map LogEvent.parseError ++
    [.parsed statements parsed.reports.length]
  if parsed.reports.isEmpty then
    match parsed.program.run depth 0 { machine with calls := #[] } with
    | none => none
    | some (outcome, machine) =>
      let events := events ++ [.evaluating statements] ++ machine.calls.toList.map LogEvent.called
      match outcome with
      | .ok _ => some ⟨events, outcomeLine outcome, none, machine⟩
      | .error e =>
        some ⟨events ++ [.evaluationFailed e], outcomeLine outcome, some (.evaluation e), machine⟩
  else
    some ⟨events, diagnosticLines parsed.diagnostics,
      some (.diagnostics parsed.reports.length), machine⟩

/-- What a run of the program leaves behind: its exit code and what it printed. -/
structure Transcript where
  exit : Nat
  stdout : String := ""
  stderr : List String := []

/-- The transcript of a run that logged `events`, printed `output` and failed or not. -/
def Transcript.ofRun (verbosity : Nat) (events : List LogEvent) (output : String) :
    Option Failure → Transcript
  | none => ⟨0, output, logLines verbosity events⟩
  | some f =>
    ⟨1, output, logLines verbosity (events ++ [.runFailed f]) ++
      (if f.announced then ["scroopy: " ++ f.message] else [])⟩

/-- Runs the script that was read from `path`. -/
def runScript (depth verbosity : Nat) (path : String) (content : Except ReadError ByteArray) :
    Option Transcript :=
  match content with
  | .error e => some (.ofRun verbosity [] "" (some (.unreadable path e)))
  | .ok bytes =>
    match String.fromUTF8? bytes with
    | none => some (.ofRun verbosity [] "" (some (.unreadable path .notText)))
    | some source =>
      (answerSource depth .ofRoot source).map fun a =>
        .ofRun verbosity (.readScript path bytes.size :: a.events) a.output a.failure

end ClosureLang
