/-!
# Tables of unordered pairs

A relation between the numbers below `n` that is symmetric, and does not concern a number and
itself, has one cell for each unordered pair of distinct numbers.  The cells are kept row by row as
a lower triangle: the pair of `i` and `j` with `j < i` is cell `i * (i - 1) / 2 + j`.
-/

namespace PatternAutomata

/-- The marks of the unordered pairs of distinct numbers. -/
structure PairMarks where
  cells : Array Bool
  deriving DecidableEq, Repr

namespace PairMarks

/-- The number of unordered pairs of distinct numbers below `n`. -/
def pairCount (n : Nat) : Nat := n * (n - 1) / 2

/-- The cell of a pair, given in either order. -/
def offset (i j : Nat) : Nat := max i j * (max i j - 1) / 2 + min i j

/-- The table for the numbers below `n` with nothing marked. -/
def blank (n : Nat) : PairMarks := ⟨Array.replicate (pairCount n) false⟩

/-- Whether a pair is marked.  A number and itself never are. -/
def isMarked (t : PairMarks) (i j : Nat) : Bool := i != j && t.cells.getD (offset i j) false

/-- Marks a pair.  A number and itself are left alone. -/
def mark (t : PairMarks) (i j : Nat) : PairMarks :=
  if i = j then t else ⟨t.cells.setIfInBounds (offset i j) true⟩

/-- The pairs of distinct numbers below `n`, the larger number first, row by row. -/
def pairs (n : Nat) : List (Nat × Nat) :=
  (List.range n).flatMap fun i => (List.range i).map fun j => (i, j)

end PairMarks

end PatternAutomata
