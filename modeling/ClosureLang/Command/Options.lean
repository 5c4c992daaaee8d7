/-!
# Arguments of the command line

An optional path, `--no-banner` at most once, and `-v` or `--verbose` any number of times. Short
flags can be written together, and after `--` everything is a path. Arguments are read from left to
right, so the first one that decides (a mistake, the version, the help) wins.
-/

namespace ClosureLang

/-- What the arguments ask for when a program is to be run. -/
structure Options where
  path : Option String := none
  banner : Bool := true
  verbosity : Nat := 0
  deriving DecidableEq, Repr

/-- What the arguments ask for. -/
inductive Request where
  | version
  | help
  | run (o : Options)
  deriving DecidableEq, Repr

/-- What is wrong with an argument. -/
inductive Misuse where
  | unknown (arg : String)
  | repeated (flag : String)
  | unwantedValue (flag : String)
  | emptyPath
  deriving DecidableEq, Repr

/-- The wording of a misuse. -/
def Misuse.message : Misuse → String
  | unknown arg => "unexpected argument '" ++ arg ++ "' found"
  | repeated flag => "the argument '" ++ flag ++ "' cannot be used multiple times"
  | unwantedValue flag => "unexpected value for '" ++ flag ++ "' found; no more were expected"
  | emptyPath => "a value is required for '[PATH]' but none was supplied"

/-- How the command line is used. -/
def usage : String := "Usage: scroopy [OPTIONS] [PATH]"

/-- The help on the command line. -/
def helpText : String :=
  usage ++ "\n\nArguments:\n" ++
    "  [PATH]  Script to run. Starts an interactive session when omitted\n\nOptions:\n" ++
    "      --no-banner   Skip the greeting printed by the interactive session\n" ++
    "  -v, --verbose...  Raise the log level (-v for debug, -vv for trace)\n" ++
    "  -h, --help        Print help\n" ++
    "  -V, --version     Print version\n"

namespace Options

/-- Takes an argument as the path. -/
def takePath (o : Options) (arg : String) : Except Misuse Options :=
  if arg.isEmpty then .error .emptyPath
  else
    match o.path with
    | none => .ok { o with path := some arg }
    | some _ => .error (.unknown arg)

/-- Takes the letters of short flags that are written together as `arg`. -/
def takeShort (arg : String) : List Char → Options → Except Misuse (Request ⊕ Options)
  | [], o => .ok (.inr o)
  | 'v' :: cs, o => takeShort arg cs { o with verbosity := o.verbosity + 1 }
  | 'V' :: _, _ => .ok (.inl .version)
  | 'h' :: _, _ => .ok (.inl .help)
  | _ :: _, _ => .error (.unknown arg)

/-- Takes a long flag, which is written as `arg`. -/
def takeLong (arg : String) (o : Options) : Except Misuse (Request ⊕ Options) :=
  match arg with
  | "--no-banner" =>
    if o.banner then .ok (.inr { o with banner := false }) else .error (.repeated arg)
  | "--verbose" => .ok (.inr { o with verbosity := o.verbosity + 1 })
  | "--version" => .ok (.inl .version)
  | "--help" => .ok (.inl .help)
  | _ =>
    let flag := String.ofList (arg.toList.takeWhile (· != '='))
    if flag ∈ ["--no-banner", "--verbose", "--version", "--help"] then .error (.unwantedValue flag)
    else .error (.unknown arg)

/-- Reads the arguments from left to right. `flags` says whether flags can still come. -/
def read (flags : Bool) : Options → List String → Except Misuse Request
  | o, [] => .ok (.run o)
  | o, arg :: args =>
    match flags, arg.toList with
    | true, ['-', '-'] => read false o args
    | true, '-' :: '-' :: _ =>
      match takeLong arg o with
      | .error e => .error e
      | .ok (.inl r) => .ok r
      | .ok (.inr o) => read true o args
    | true, '-' :: c :: cs =>
      match takeShort arg (c :: cs) o with
      | .error e => .error e
      | .ok (.inl r) => .ok r
      | .ok (.inr o) => read true o args
    | _, _ =>
      match o.takePath arg with
      | .error e => .error e
      | .ok o => read flags o args

end Options

/-- What the arguments of the command line ask for. -/
def readArguments (args : List String) : Except Misuse Request := Options.read true {} args

end ClosureLang
