import PatternAutomata.Compiled
import PatternAutomata.Text.ClassList
import PatternAutomata.Text.TreeDrawing

/-!
# The stages of a compiled pattern, written out

The tree, the two automata before minimization, the classes and the minimal automaton, each under a
heading of its own and followed by an empty line.
-/

namespace PatternAutomata

namespace Compiled

/-- What the marks of an adjacency table mean. -/
def markKey : String := "> — entry state, X — exit state"

/-- A text under a heading, followed by an empty line. -/
def titled (heading : String) (body : List Char) : String :=
  "# " ++ heading ++ ":\n" ++ String.ofList body ++ "\n"

/-- A table under a heading that explains its marks. -/
def tableSection (heading : String) (a : Automaton) : String :=
  titled (heading ++ " adjacency list (" ++ markKey ++ ")") (AdjacencyTable.render a)

/-- All stages. -/
def stages (c : Compiled) : String :=
  titled "syntax tree" c.tree.draw ++ tableSection "NFA" c.nfa ++ tableSection "DFA" c.dfa ++
    titled "equivalence classes" (ClassList.render c.partition.classes ++ ['\n']) ++
    tableSection "minimized DFA" c.minimal

end Compiled

end PatternAutomata
