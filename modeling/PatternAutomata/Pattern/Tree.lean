import PatternAutomata.OrderedSet
import PatternAutomata.Pattern.Symbol

/-!
# Trees of patterns

A pattern denotes a tree of operators over literal characters; the empty pattern denotes a tree of
its own.  The type also holds trees no pattern denotes, with the wrong number of children or with an
empty tree below the root: whoever builds an automaton from a tree checks for those
(`PatternAutomata.Thompson`).
-/

namespace PatternAutomata

/-- A tree of operators over literal characters. -/
inductive SyntaxTree where
  /-- The tree of the empty pattern. -/
  | empty
  | leaf (c : Char)
  | node (o : Operator) (children : List SyntaxTree)
  deriving Repr, Inhabited

namespace SyntaxTree

mutual

/-- The characters at the leaves of a tree, from left to right. -/
def leaves : SyntaxTree → List Char
  | .empty => []
  | .leaf c => [c]
  | .node _ children => leavesOfAll children

/-- The characters at the leaves of a list of trees, from left to right. -/
def leavesOfAll : List SyntaxTree → List Char
  | [] => []
  | t :: ts => t.leaves ++ leavesOfAll ts

end

/-- The set of the characters at the leaves. -/
def literals (t : SyntaxTree) : OrderedSet Char := OrderedSet.ofList t.leaves

end SyntaxTree

end PatternAutomata
