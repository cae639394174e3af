import PatternAutomata.Automaton.Letter
import PatternAutomata.Pattern.Symbol

/-!
# Faults

Operations on automata and on trees fail when they are given something their callers should not
give them: a state of another automaton, a letter outside the alphabet, an automaton that is not
deterministic.  Each such case is a `Fault`.
-/

namespace PatternAutomata

/-- Something an operation was given that it cannot work with. -/
inductive Fault where
  /-- An operator of a tree has the wrong number of children. -/
  | wrongArity (o : Operator) (actual : Nat)
  /-- An empty tree stands below the root. -/
  | misplacedEmpty
  | foreignLetter (l : Letter)
  /-- A state does not belong to the automaton. -/
  | foreignState (q : StateId)
  | noEntry
  /-- A state has several targets on one letter. -/
  | severalTargets (q : StateId) (l : Letter) (count : Nat)
  /-- No class holds the entry state. -/
  | entryOutsideClasses
  /-- No class holds a state that is needed. -/
  | stateOutsideClasses (q : StateId)
  deriving DecidableEq, Repr

namespace Fault

/-- The wording of a fault. -/
def message : Fault → String
  | .wrongArity o actual =>
    s!"operator '{o.char}' has incorrect amount of operands ({actual}, expected {o.arity})"
  | .misplacedEmpty => "empty node found below the root of a syntax tree"
  | .foreignLetter l => s!"the automaton's alphabet doesn't contain letter '{l.symbol}'"
  | .foreignState q => s!"state #{q.index} doesn't belong to the automaton"
  | .noEntry => "the automaton has no entry state"
  | .severalTargets q l count =>
    s!"passed argument doesn't seem to be a DFA: state #{q.index} " ++
      s!"has {count} destinations on '{l.symbol}'"
  | .entryOutsideClasses => "couldn't find the entry state in any of the equivalence classes"
  | .stateOutsideClasses q => s!"couldn't find state #{q.index} in any of the equivalence classes"

end Fault

end PatternAutomata
