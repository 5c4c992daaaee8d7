import ClosureLang.Command.Run

/-!
# The program

Reads the arguments, then runs a script or answers the lines of the standard input as they come.
-/

namespace ClosureLang

/-- The reason for which a file could not be read. -/
def readError : IO.Error → ReadError
  | .noFileOrDirectory .. => .missing
  | .inappropriateType _ 21 _ => .directory
  | e => .other (toString e)

/-- Reads a file. -/
def readScriptFile (path : String) : IO (Except ReadError ByteArray) := do
  try
    return .ok (← IO.FS.readBinFile path)
  catch e =>
    return .error (readError e)

/-- Prints a transcript and gives its exit code. -/
def printTranscript (t : Transcript) : IO UInt32 := do
  IO.print t.stdout
  for line in t.stderr do
    IO.eprintln line
  return UInt32.ofNat t.exit

/-- Tells that calls nest too deep. -/
def printTooDeep : IO UInt32 := do
  IO.eprintln "scroopy: calls nest too deep"
  return 1

/-- Reads the standard input up to the end of a line. -/
partial def readLineBytes (stream : IO.FS.Stream) (line : ByteArray) : IO ByteArray := do
  let byte ← stream.read 1
  if byte.isEmpty then return line
  let line := line ++ byte
  if byte.toList = [10] then return line else readLineBytes stream line

/-- Answers the lines of the standard input. -/
partial def answerInput (verbosity : Nat) (machine : Machine Unit) : IO UInt32 := do
  let bytes ← readLineBytes (← IO.getStdin) .empty
  if bytes.isEmpty then return 0
  match decodeLine? bytes.toList with
  | none => printTranscript (.ofRun verbosity [] "" (some .badLine))
  | some line =>
    match answerLine nestingLimit machine line with
    | none => printTooDeep
    | some a =>
      let _ ← printTranscript (.ofRun verbosity a.events a.output none)
      (← IO.getStdout).flush
      answerInput verbosity a.machine

end ClosureLang

open ClosureLang in
/-- The entry point of the program. -/
def main (args : List String) : IO UInt32 := do
  match readArguments args with
  | .error m => printTranscript m.transcript
  | .ok .version => printTranscript ⟨0, versionLine, []⟩
  | .ok .help => printTranscript ⟨0, helpText, []⟩
  | .ok (.run o) =>
    match o.path with
    | some path =>
      match runScript nestingLimit o.verbosity path (← readScriptFile path) with
      | some t => printTranscript t
      | none => printTooDeep
    | none =>
      if o.banner then
        IO.print (banner (← IO.getEnv "USER") (← IO.getEnv "USERNAME"))
      answerInput o.verbosity .ofRoot
