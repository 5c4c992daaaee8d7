import ClosureLang.Command.LineLoop
import ClosureLang.Command.Options
import ClosureLang.Session

/-!
# The command line as a function

`Invocation.run` gives the transcript of a run from all that the run can see: its arguments, the
files, the standard input and the names of the user.
-/

namespace ClosureLang

/-- What a run of the program can see. -/
structure Invocation where
  args : List String
  files : String → Except ReadError ByteArray
  input : List UInt8
  user : Option String
  username : Option String

/-- What is printed for the version. -/
def versionLine : String := "scroopy-runner 0.1.0\n"

/-- The transcript of arguments that are misused. -/
def Misuse.transcript (m : Misuse) : Transcript :=
  ⟨2, "", ["error: " ++ m.message, "", usage, "", "For more information, try '--help'."]⟩

/-- The transcript of a run, unless calls nest too deep in it. -/
def Invocation.run (i : Invocation) : Option Transcript :=
  match readArguments i.args with
  | .error m => some m.transcript
  | .ok .version => some ⟨0, versionLine, []⟩
  | .ok .help => some ⟨0, helpText, []⟩
  | .ok (.run o) =>
    match o.path with
    | some path => runScript nestingLimit o.verbosity path (i.files path)
    | none =>
      let greeting := if o.banner then banner i.user i.username else ""
      runLines .plain nestingLimit o.verbosity greeting i.input

end ClosureLang
