import PatternAutomata.Pattern.Tree

/-!
# Drawing a tree

A tree is drawn with one line for each node, parents before their children.  A line holds the
branches that lead to the node, a space, and the node's label.  Each level below the root takes
three columns: the node's own level shows whether further siblings follow it, and the levels above
show the branches that go on past it.

A leaf is labelled with its character as a pattern would spell it, an operator with its character,
and the empty tree with nothing.
-/

namespace PatternAutomata

namespace SyntaxTree

/-- The columns that lead to a child with siblings after it. -/
def innerBranch : List Char := [' ', '├', '─']

/-- The columns that lead to a last child. -/
def lastBranch : List Char := [' ', '└', '─']

/-- The columns that pass by the lines below a child with siblings after it. -/
def innerIndent : List Char := [' ', '│', ' ']

/-- The columns that pass by the lines below a last child. -/
def lastIndent : List Char := [' ', ' ', ' ']

/-- One line of a drawing. -/
def drawLine (branches label : List Char) : List Char := branches ++ ' ' :: label ++ ['\n']

mutual

/-- Draws a tree whose line starts with `branches` and whose children's lines start with
`indent`. -/
def drawAt (branches indent : List Char) : SyntaxTree → List Char
  | .empty => drawLine branches []
  | .leaf c => drawLine branches (Symbol.literal c).text
  | .node o children => drawLine branches [o.char] ++ drawAllAt indent children

/-- Draws the children of a node one after the other. -/
def drawAllAt (indent : List Char) : List SyntaxTree → List Char
  | [] => []
  | t :: ts =>
    (match ts with
      | [] => drawAt (indent ++ lastBranch) (indent ++ lastIndent) t
      | _ :: _ => drawAt (indent ++ innerBranch) (indent ++ innerIndent) t) ++ drawAllAt indent ts

end

/-- The drawing of a tree. -/
def draw (t : SyntaxTree) : List Char := drawAt [] [] t

end SyntaxTree

end PatternAutomata
