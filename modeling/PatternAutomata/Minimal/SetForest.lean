/-!
# Disjoint sets

A partition of the numbers below `n` as a forest: each number points to its parent, and a number
that points to itself is the root of its set.  Uniting two sets makes the larger root point to the
smaller one, so every parent is at most its child and the root of a set is its smallest member.

`find` shortens the path it walks: every number on it that is visited is made to point to its
grandparent.
-/

namespace PatternAutomata

/-- A forest of the numbers below its size. -/
structure SetForest where
  parent : Array Nat
  deriving DecidableEq, Repr

namespace SetForest

/-- Every number in a set of its own. -/
def discrete (n : Nat) : SetForest := ⟨Array.range n⟩

/-- The parent of a number. -/
def parentOf (s : SetForest) (i : Nat) : Nat := s.parent.getD i i

/-- Walks from a number towards the root, at most `steps` steps, and shortens the path. -/
def climb (s : SetForest) : Nat → Nat → SetForest × Nat
  | 0, i => (s, i)
  | steps + 1, i =>
    if s.parentOf i = i then (s, i)
    else
      let grandparent := s.parentOf (s.parentOf i)
      climb ⟨s.parent.setIfInBounds i grandparent⟩ steps grandparent

/-- The root of a number's set, and the forest with shorter paths.  A path that goes down in every
step has fewer steps than there are numbers. -/
def find (s : SetForest) (i : Nat) : SetForest × Nat := s.climb s.parent.size i

/-- Unites the sets of two numbers. -/
def union (s : SetForest) (i j : Nat) : SetForest :=
  let a := s.find i
  let b := a.1.find j
  if a.2 = b.2 then b.1 else ⟨b.1.parent.setIfInBounds (max a.2 b.2) (min a.2 b.2)⟩

/-- The roots of some numbers, looked up one after the other. -/
def roots (s : SetForest) : List Nat → List Nat
  | [] => []
  | i :: is => (s.find i).2 :: (s.find i).1.roots is

end SetForest

end PatternAutomata
