import PatternAutomata.Text.Stages

/-!
# Evaluating patterns, once or in a dialogue

`evaluate` compiles one pattern and matches some words by it.  A session asks for patterns line by
line; for each pattern that compiles it asks for words to match, until it is told to stop, and then
for the next pattern.  Both write the stages of every pattern they compile, unless they are told to
be quiet, and a line with the verdict on every word.

A session is a function of the bytes it reads.  `respond` is its reaction to a single line, so that
a dialogue with a person can be held line by line.  Reading a line that is not text ends a session,
and so does the end of the input.
-/

namespace PatternAutomata

/-- What ends an evaluation or a session before its time. -/
inductive Failure where
  /-- A line that was read is not valid UTF-8. -/
  | invalidEncoding
  | compile (e : CompileError)
  | matching (f : Fault)
  deriving DecidableEq, Repr

namespace Failure

/-- The wording of a failure. -/
def message : Failure → String
  | .invalidEncoding => "stream did not contain valid UTF-8"
  | .compile e => e.message
  | .matching f => f.message

end Failure

/-- Everything written, and the failure that ended the writing, if one did. -/
structure Transcript where
  output : String
  failure : Option Failure
  deriving DecidableEq, Repr

namespace Transcript

/-- A transcript with some output before its own. -/
def after (t : Transcript) (output : String) : Transcript := { t with output := output ++ t.output }

end Transcript

/-- The line with the verdict on a word. -/
def verdict (isMatch : Bool) : String := if isMatch then "# true\n" else "# false\n"

namespace Compiled

/-- What is written about a pattern before any word is matched. -/
def introduction (quiet : Bool) (c : Compiled) : String := if quiet then "" else c.stages

/-- Matches words one after the other. -/
def judge (c : Compiled) : List (List Char) → Transcript
  | [] => ⟨"", none⟩
  | word :: words =>
    match c.isMatch word with
    | .error f => ⟨"", some (.matching f)⟩
    | .ok b => (c.judge words).after (verdict b)

end Compiled

/-- Compiles a pattern and matches words by it. -/
def evaluate (pattern : List Char) (words : List (List Char)) (quiet : Bool) : Transcript :=
  match compile pattern with
  | .error e => ⟨"", some (.compile e)⟩
  | .ok c => (c.judge words).after (c.introduction quiet)

namespace Session

/-- What a session is waiting for. -/
inductive Phase where
  | pattern
  /-- Words to be matched by a compiled pattern. -/
  | word (c : Compiled)

/-- How a session reacts to a line. -/
inductive Reply where
  /-- It writes something and goes on. -/
  | proceed (output : String) (next : Phase)
  | finish
  | fail (f : Failure)

/-- What a session writes before it reads a line. -/
def Phase.prompt : Phase → String
  | .pattern => "Enter a regular expression ('e' to exit): "
  | .word _ => "Enter a string to be checked ('s' to stop): "

/-- The lines of the input, without the line feeds that end them.  The last one need not be ended,
unless it is empty. -/
def lines : List UInt8 → List (List UInt8)
  | [] => []
  | b :: rest =>
    if b = 10 then [] :: lines rest
    else
      match lines rest with
      | [] => [[b]]
      | l :: ls => (b :: l) :: ls

/-- A text without a carriage return at its end. -/
def withoutReturn (text : List Char) : List Char :=
  if text.getLast? = some '\r' then text.dropLast else text

/-- The text of a line. -/
def decodeLine (line : List UInt8) : Option (List Char) :=
  (String.fromUTF8? line.toByteArray).map fun s => withoutReturn s.toList

/-- The reaction to the text of a line. -/
def respondToText (quiet : Bool) (text : List Char) : Phase → Reply
  | .pattern =>
    if text = ['e'] then .finish
    else
      match compile text with
      | .error (.malformed e) => .proceed ("# " ++ e.message ++ "\n\n") .pattern
      | .error (.fault f) => .fail (.compile (.fault f))
      | .ok c => .proceed (c.introduction quiet) (.word c)
  | .word c =>
    if text = ['s'] then .proceed "\n" .pattern
    else
      match c.isMatch text with
      | .error f => .fail (.matching f)
      | .ok b => .proceed (verdict b) (.word c)

/-- The reaction to a line. -/
def respond (quiet : Bool) (phase : Phase) (line : List UInt8) : Reply :=
  match decodeLine line with
  | none => .fail .invalidEncoding
  | some text => respondToText quiet text phase

/-- Runs a session on the lines that are still to be read. -/
def runLines (quiet : Bool) (phase : Phase) : List (List UInt8) → Transcript
  | [] => ⟨phase.prompt ++ "\n", none⟩
  | line :: rest =>
    match respond quiet phase line with
    | .proceed output next => (runLines quiet next rest).after (phase.prompt ++ output)
    | .finish => ⟨phase.prompt, none⟩
    | .fail f => ⟨phase.prompt, some f⟩

/-- Runs a session on an input. -/
def run (quiet : Bool) (input : List UInt8) : Transcript := runLines quiet .pattern (lines input)

end Session

end PatternAutomata
