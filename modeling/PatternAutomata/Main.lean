import PatternAutomata.CommandLine

/-!
# The program

Everything the program decides is in `PatternAutomata.CommandLine` and `PatternAutomata.Session`.
Here bytes are read and texts are written.  A session is held line by line, so that each prompt is
seen before the line that answers it is read.
-/

namespace PatternAutomata

namespace Program

/-- Reads a line, without the line feed that ends it; none at the end of the input. -/
partial def readLine (input : IO.FS.Stream) (read : List UInt8) : IO (Option (List UInt8)) := do
  match (← input.read 1).data.toList with
  | [] => return if read.isEmpty then none else some read.reverse
  | b :: _ => if b = 10 then return some read.reverse else readLine input (b :: read)

/-- Writes a text at once. -/
def write (output : IO.FS.Stream) (text : String) : IO Unit := do
  output.putStr text
  output.flush

/-- Holds a session, and returns the failure that ended it, if one did. -/
partial def holdSession (quiet : Bool) (phase : Session.Phase) (input output : IO.FS.Stream) :
    IO (Option Failure) := do
  write output phase.prompt
  match ← readLine input [] with
  | none =>
    write output "\n"
    return none
  | some line =>
    match Session.respond quiet phase line with
    | .proceed text next =>
      write output text
      holdSession quiet next input output
    | .finish => return none
    | .fail f => return some f

/-- Writes what a run leaves behind, and returns its exit code. -/
def deliver (o : CommandLine.Outcome) : IO UInt32 := do
  write (← IO.getStdout) o.stdout
  write (← IO.getStderr) o.stderr
  return o.exitCode

/-- Runs the program on a command line. -/
def start (args : List String) : IO UInt32 := do
  match CommandLine.parse args with
  | .ok (.work o) =>
    match o.pattern with
    | none =>
      let failure ← holdSession o.quiet .pattern (← IO.getStdin) (← IO.getStdout)
      deliver (CommandLine.outcomeOfTranscript ⟨"", failure⟩)
    | some _ => deliver (CommandLine.run args [])
  | _ => deliver (CommandLine.run args [])

end Program

end PatternAutomata

/-- The program. -/
def main (args : List String) : IO UInt32 := PatternAutomata.Program.start args
