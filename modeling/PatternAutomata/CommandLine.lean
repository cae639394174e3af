import PatternAutomata.Session

/-!
# The command line

The program takes one optional argument, a pattern.  With a pattern it evaluates it on the strings
given by `--check` options; without one it holds a session on its standard input.

Options may stand anywhere.  Short options may be written together (`-qc a`), a value may be
attached to its option (`-ca`, `-c=a`, `--check=a`), and after `--` everything is an argument.  A
lone `-` is no option.  What looks like an option is never taken for a value.
-/

namespace PatternAutomata

namespace CommandLine

/-- What the program is told to do. -/
structure Options where
  quiet : Bool
  /-- The strings to be checked, in the order given. -/
  checks : List String
  pattern : Option String
  deriving DecidableEq, Repr

/-- What a command line asks for. -/
inductive Request where
  | version
  | work (o : Options)
  deriving DecidableEq, Repr

/-- What is wrong with a command line. -/
inductive UsageError where
  | unknownOption
  /-- An option that takes no value is given one. -/
  | unexpectedValue
  | missingValue
  | repeatedOption
  | unexpectedArgument
  /-- Strings are to be checked, but there is no pattern. -/
  | missingPattern
  deriving DecidableEq, Repr

/-- How far a command line has been read. -/
structure Reading where
  options : Options
  /-- Whether a value for `--check` is still to come. -/
  awaitsValue : Bool
  deriving DecidableEq, Repr

/-- Reading one argument: how far it gets, or the version that is asked for. -/
inductive Step where
  | proceed (r : Reading)
  | version
  deriving DecidableEq, Repr

/-- Nothing read yet. -/
def Reading.start : Reading := ⟨⟨false, [], none⟩, false⟩

namespace Reading

/-- Takes the quiet option. -/
def setQuiet (r : Reading) : Except UsageError Reading :=
  if r.options.quiet then .error .repeatedOption
  else .ok { r with options := { r.options with quiet := true } }

/-- Takes a string to be checked. -/
def addCheck (r : Reading) (value : List Char) : Reading :=
  ⟨{ r.options with checks := r.options.checks ++ [String.ofList value] }, false⟩

/-- Takes an argument that is no option. -/
def addArgument (r : Reading) (value : List Char) : Except UsageError Reading :=
  match r.options.pattern with
  | some _ => .error .unexpectedArgument
  | none => .ok { r with options := { r.options with pattern := some (String.ofList value) } }

/-- Takes short options that are written together. -/
def shortOptions (r : Reading) : List Char → Except UsageError Step
  | [] => .ok (.proceed r)
  | 'q' :: rest =>
    match r.setQuiet with
    | .error e => .error e
    | .ok r => r.shortOptions rest
  | 'V' :: _ => .ok .version
  | ['c'] => .ok (.proceed { r with awaitsValue := true })
  | 'c' :: '=' :: value => .ok (.proceed (r.addCheck value))
  | 'c' :: value => .ok (.proceed (r.addCheck value))
  | _ => .error .unknownOption

/-- Takes a long option, which may have a value after an equals sign. -/
def longOption (r : Reading) (text : List Char) : Except UsageError Step :=
  let name := String.ofList (text.takeWhile (· ≠ '='))
  match name, text.dropWhile (· ≠ '=') with
  | "quiet", [] => r.setQuiet.map .proceed
  | "version", [] => .ok .version
  | "check", [] => .ok (.proceed { r with awaitsValue := true })
  | "check", _ :: value => .ok (.proceed (r.addCheck value))
  | "quiet", _ :: _ => .error .unexpectedValue
  | "version", _ :: _ => .error .unexpectedValue
  | _, _ => .error .unknownOption

/-- Takes an argument that is not preceded by `--`. -/
def argument (r : Reading) (text : List Char) : Except UsageError Step :=
  match text with
  | '-' :: c :: rest =>
    if r.awaitsValue then .error .missingValue
    else if c = '-' then r.longOption rest
    else r.shortOptions (c :: rest)
  | _ =>
    if r.awaitsValue then .ok (.proceed (r.addCheck text))
    else (r.addArgument text).map .proceed

/-- What is asked for when nothing is left to read. -/
def request (r : Reading) : Except UsageError Request :=
  if r.awaitsValue then .error .missingValue
  else if r.options.checks ≠ [] ∧ r.options.pattern = none then .error .missingPattern
  else .ok (.work r.options)

/-- Reads what follows `--`. -/
def plainArguments (r : Reading) : List String → Except UsageError Request
  | [] => r.request
  | text :: rest =>
    match r.addArgument text.toList with
    | .error e => .error e
    | .ok r => r.plainArguments rest

/-- Reads arguments. -/
def arguments (r : Reading) : List String → Except UsageError Request
  | [] => r.request
  | text :: rest =>
    if text = "--" then
      if r.awaitsValue then .error .missingValue else r.plainArguments rest
    else
      match r.argument text.toList with
      | .error e => .error e
      | .ok .version => .ok .version
      | .ok (.proceed r) => r.arguments rest

end Reading

/-- Reads a command line. -/
def parse (args : List String) : Except UsageError Request := Reading.start.arguments args

/-- The name and version of the program. -/
def versionText : String := "automata_cli 0.1.0\n"

/-- What is written about a command line that cannot be read. -/
def UsageError.message : UsageError → String
  | .unknownOption => "error: unexpected option\n"
  | .unexpectedValue => "error: an option takes no value\n"
  | .missingValue => "error: a value is required for '--check <STRING>'\n"
  | .repeatedOption => "error: an option is given twice\n"
  | .unexpectedArgument => "error: only one pattern can be given\n"
  | .missingPattern => "error: strings can only be checked against a pattern\n"

/-- What a run of the program leaves behind. -/
structure Outcome where
  exitCode : UInt32
  stdout : String
  stderr : String
  deriving DecidableEq, Repr

/-- What is written about a failure. -/
def failureText (f : Failure) : String := "Error: " ++ f.message ++ "\n"

/-- What is left behind by an evaluation or a session. -/
def outcomeOfTranscript (t : Transcript) : Outcome :=
  match t.failure with
  | none => ⟨0, t.output, ""⟩
  | some f => ⟨1, t.output, failureText f⟩

/-- Evaluates a pattern on the strings to be checked. -/
def evaluateOptions (o : Options) (pattern : String) : Transcript :=
  evaluate pattern.toList (o.checks.map String.toList) o.quiet

/-- Runs the program on a command line and an input. -/
def run (args : List String) (input : List UInt8) : Outcome :=
  match parse args with
  | .error e => ⟨2, "", e.message⟩
  | .ok .version => ⟨0, versionText, ""⟩
  | .ok (.work o) =>
    match o.pattern with
    | some pattern => outcomeOfTranscript (evaluateOptions o pattern)
    | none => outcomeOfTranscript (Session.run o.quiet input)

end CommandLine

end PatternAutomata
