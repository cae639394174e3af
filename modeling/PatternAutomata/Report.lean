import PatternAutomata.Compiled
import PatternAutomata.Text.ClassList

/-!
# Reports

What compiling a pattern and matching a word did, in lines for a reader who debugs a pattern.  A
compiled pattern keeps what its stages found out on the way (the sets merged by the subset
construction, what each pass over the table of pairs marked), so a report is a function of it.

A stage that had nothing to do reports nothing: the empty pattern is not parsed, and an automaton
without characters is not determinized.
-/

namespace PatternAutomata

/-- How much detail a line of a report is about. -/
inductive ReportLevel where
  | debug
  | trace
  deriving DecidableEq, Repr

/-- One line of a report. -/
structure ReportLine where
  level : ReportLevel
  message : String
  deriving DecidableEq, Repr

namespace ReportLine

/-- The written name of a level. -/
def levelName : ReportLevel → String
  | .debug => "DEBUG"
  | .trace => "TRACE"

/-- A line as it is written, its level first. -/
def text (l : ReportLine) : String := levelName l.level ++ " " ++ l.message

end ReportLine

namespace Compiled

/-- How the pattern was read. -/
def parseReport (c : Compiled) : List ReportLine :=
  if c.tokens = [] then []
  else
    let pattern := String.ofList c.pattern
    let tokens := String.ofList (Token.spell c.tokens)
    [⟨.debug, s!"parsed '{pattern}' as '{tokens}'"⟩]

/-- What was wired for the tree. -/
def wireReport (c : Compiled) : List ReportLine :=
  match c.tree with
  | .empty => []
  | _ => [⟨.debug, s!"built NFA: {c.nfa.size} states, {c.nfa.alphabet.size} letters"⟩]

/-- Which sets of states were merged. -/
def mergeReport (c : Compiled) : List ReportLine :=
  c.determinized.subsets.mapIdx fun i members =>
    let set := String.ofList (ClassList.renderSet members)
    ⟨.trace, s!"DFA state #{i} merges {set}"⟩

/-- The sizes before and after determinizing. -/
def determinizeReport (c : Compiled) : List ReportLine :=
  if c.determinized.subsets = [] then []
  else [⟨.debug, s!"built DFA: {c.dfa.size} states from {c.nfa.size} NFA states"⟩]

/-- What the passes over the table of pairs marked. -/
def passReport (c : Compiled) : List ReportLine :=
  c.partition.passes.mapIdx fun i marked =>
    let pass := i + 1
    ⟨.trace, s!"table filling pass {pass}: {marked} pairs became distinguishable"⟩

/-- How many classes the states fall into. -/
def partitionReport (c : Compiled) : List ReportLine :=
  if c.partition.passes = [] then []
  else
    let states := (c.partition.classes.flatMap OrderedSet.toList).length
    let classes := c.partition.classes.length
    [⟨.debug, s!"{states} reachable DFA states fall into {classes} equivalence classes"⟩]

/-- The size of the quotient. -/
def quotientReport (c : Compiled) : List ReportLine :=
  let classes := c.partition.classes.length
  [⟨.debug, s!"minimized DFA: {c.minimal.size} states from {classes} classes"⟩]

/-- What compiling the pattern did. -/
def report (c : Compiled) : List ReportLine :=
  c.parseReport ++ c.wireReport ++ c.mergeReport ++ c.determinizeReport ++ c.passReport ++
    c.partitionReport ++ c.quotientReport

/-- Where matching a word came to a halt, if it did before the end of the word. -/
def matchReport (c : Compiled) (word : List Char) : List ReportLine :=
  match c.minimal.walk word with
  | .ok (.blocked q letter) => [⟨.trace, s!"no transition from #{q.index} on '{letter}'"⟩]
  | _ => []

end Compiled

end PatternAutomata
