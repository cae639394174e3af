import PatternAutomata.Text.AdjacencyTable

/-!
# Lists of classes

Sets of states are written as the indices of their members in braces, and several sets are separated
by commas: `{0, 2}, {1}`.
-/

namespace PatternAutomata

namespace ClassList

/-- One set of states. -/
def renderSet (qs : OrderedSet StateId) : List Char :=
  ['\x7b'] ++ [',', ' '].intercalate (qs.toList.map fun q => AdjacencyTable.digits q.index) ++
    ['\x7d']

/-- Several sets of states. -/
def render (classes : List (OrderedSet StateId)) : List Char :=
  [',', ' '].intercalate (classes.map renderSet)

end ClassList

end PatternAutomata
