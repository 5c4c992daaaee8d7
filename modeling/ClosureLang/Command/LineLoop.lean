import ClosureLang.Command.Script
import ClosureLang.Text.Line
import ClosureLang.Text.Space

/-!
# The line loop

Lines are answered one after the other on one machine, so that a line sees what the lines before it
have bound. A line of white space is passed over, and a line that is not UTF-8 ends the loop.

How the input is read as lines is left to a reader (`LineReader`), since a terminal, a pipe and a file
are read in different ways. The loop takes the lines as they come.
-/

namespace ClosureLang

/-- The picture above the greeting. -/
def bannerPicture : String :=
  "\n  ___  ___ _ __ ___   ___  _ __  _   _\n" ++
    " / __|/ __| '__/ _ \\ / _ \\| '_ \\| | | |\n" ++
    " \\__ \\ (__| | | (_) | (_) | |_) | |_| |\n" ++
    " |___/\\___|_|  \\___/ \\___/| .__/ \\__, |\n" ++
    "                          |_|    |___/\n"

/-- The user to greet: the first variable that is set, unless it is empty. -/
def greetedUser (user username : Option String) : String :=
  match user.or username with
  | some name => if name.isEmpty then "there" else name
  | none => "there"

/-- What the line loop prints before it reads lines. -/
def banner (user username : Option String) : String :=
  bannerPicture ++ "\n" ++
    "Hello " ++ greetedUser user username ++ "! This is the Scroopy programming language!\n" ++
    "Feel free to type in commands\n"

/-- Answers one line. -/
def answerLine (depth : Nat) (machine : Machine Unit) (line : String) : Option Answer :=
  if allSpace line then some ⟨[], "", none, machine⟩ else answerSource depth machine line

/-- Answers lines in order, up to the first that is not text; gives what was logged and printed, and
why the loop ended if that was too early. -/
def answerLines (depth : Nat) (machine : Machine Unit) :
    List (Option String) → Option (List LogEvent × String × Option Failure)
  | [] => some ([], "", none)
  | none :: _ => some ([], "", some .badLine)
  | some line :: lines =>
    match answerLine depth machine line with
    | none => none
    | some a =>
      match answerLines depth a.machine lines with
      | none => none
      | some (events, output, failure) => some (a.events ++ events, a.output ++ output, failure)

/-- Reads the bytes of an input as lines: the text of each, or nothing for one that is not text. -/
abbrev LineReader := List UInt8 → List (Option String)

/-- The reader for an input that is no terminal. -/
def LineReader.plain : LineReader := fun input => (cutLines input).map decodeLine?

/-- Runs the line loop on the bytes of the standard input; `greeting` is printed first. -/
def runLines (read : LineReader) (depth verbosity : Nat) (greeting : String)
    (input : List UInt8) : Option Transcript :=
  (answerLines depth .ofRoot (read input)).map
    fun (events, output, failure) => .ofRun verbosity events (greeting ++ output) failure

end ClosureLang
