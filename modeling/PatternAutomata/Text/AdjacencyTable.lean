import PatternAutomata.Automaton.Traversal

/-!
# Adjacency tables

An automaton is written as a table with a row for each state that can be reached from its entry and
a column for each letter.  Without an entry all states are listed.  A row starts with the state's
marks (`>` for the entry, `X` for an exit) and its index, padded to the right edge of the longest
such label; a cell lists the indices of the targets, or holds a dash if there are none.

Columns are as wide as their widest cell and stand two spaces apart; the last one is not padded, so
no row ends in spaces.  Without any letter there is no header, and a row is its label and a dash.
-/

namespace PatternAutomata

namespace AdjacencyTable

/-- What separates two columns. -/
def gap : List Char := [' ', ' ']

/-- The decimal digits of a number. -/
def digits (n : Nat) : List Char := Nat.toDigits 10 n

/-- The head of a letter's column.  The star after epsilon recalls that its column also lists the
arcs that lead from every state to itself. -/
def heading : Letter → List Char
  | .char c => [c]
  | .epsilon => ['ε', '*']

/-- The marks of a state. -/
def marks (s : State) : List Char :=
  match s.isEntry, s.isExit with
  | true, true => ['>', 'X']
  | true, false => [' ', '>']
  | false, true => [' ', 'X']
  | false, false => [' ', ' ']

/-- The label of a state's row. -/
def label (s : State) : List Char := marks s ++ digits s.id.index ++ [':']

/-- The targets of a state on a letter. -/
def targetText (s : State) (l : Letter) : List Char :=
  match (s.targets l).toList with
  | [] => ['-']
  | qs => [','].intercalate (qs.map fun q => digits q.index)

/-- The greatest of some numbers, or zero. -/
def greatest (l : List Nat) : Nat := l.max?.getD 0

/-- The cells of a row, each padded to the width of its column except the last. -/
def cells : List (List Char × Nat) → List Char
  | [] => []
  | [(text, _)] => gap ++ text
  | (text, width) :: rest => gap ++ text.rightpad width ' ' ++ cells rest

/-- One row: the label, padded, and the cells. -/
def row (labelWidth : Nat) (label : List Char) (columns : List (List Char × Nat)) : List Char :=
  label.leftpad labelWidth ' ' ++ cells columns ++ ['\n']

/-- The states that are listed. -/
def listed (a : Automaton) : List State :=
  match a.reachable with
  | .ok qs => a.states.toList.filter fun s => decide (s.id ∈ qs)
  | .error _ => a.states.toList

/-- The width of a letter's column. -/
def columnWidth (states : List State) (l : Letter) : Nat :=
  greatest ((heading l).length :: states.map fun s => (targetText s l).length)

/-- The table of an automaton. -/
def render (a : Automaton) : List Char :=
  let states := listed a
  let letters := a.alphabet.toList
  let labelWidth := greatest (states.map fun s => (label s).length)
  if letters = [] then
    states.flatMap fun s => (label s).leftpad labelWidth ' ' ++ [' ', '-', '\n']
  else
    let widths := letters.map (columnWidth states)
    row labelWidth [] ((letters.map heading).zip widths) ++
      states.flatMap fun s => row labelWidth (label s) ((letters.map (targetText s)).zip widths)

end AdjacencyTable

end PatternAutomata
