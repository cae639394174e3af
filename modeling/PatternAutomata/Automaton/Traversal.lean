import PatternAutomata.Automaton.Basic
import PatternAutomata.Exploration

/-!
# Following arcs

What can be reached by epsilon arcs alone, what can be reached from the entry by any arcs, and
whether everything that can be reached is deterministic.  Both searches meet each state at most
once, so the number of states, plus one for a state that turns out to be foreign, bounds them.
-/

namespace PatternAutomata

namespace Automaton

/-- The targets of the epsilon arcs of a state. -/
def epsilonSuccessors (a : Automaton) (q : StateId) : Except Fault (List StateId) :=
  (a.state q).map fun s => (s.targets .epsilon).toList

/-- The targets of all arcs of a state. -/
def successors (a : Automaton) (q : StateId) : Except Fault (List StateId) :=
  (a.state q).map fun s => s.arcs.toList.map Arc.target

/-- The states that can be reached from the seeds by epsilon arcs alone, the seeds included. -/
def closure (a : Automaton) (seeds : List StateId) : Except Fault (OrderedSet StateId) :=
  (explore a.epsilonSuccessors .breadthFirst (a.size + 1) seeds).map OrderedSet.ofList

/-- The states that can be reached from the entry. -/
def reachable (a : Automaton) : Except Fault (OrderedSet StateId) :=
  match a.requireEntry with
  | .error e => .error e
  | .ok q => (explore a.successors .depthFirst (a.size + 1) [q]).map OrderedSet.ofList

/-- Whether all of some states are deterministic, looking no further than the first that is not. -/
def allDeterministic (a : Automaton) : List StateId → Except Fault Bool
  | [] => .ok true
  | q :: qs =>
    match a.state q with
    | .error e => .error e
    | .ok s => if s.isDeterministic then a.allDeterministic qs else .ok false

/-- Whether no state that can be reached has an epsilon arc or several targets on one letter. -/
def isDeterministic (a : Automaton) : Except Fault Bool :=
  match a.reachable with
  | .error e => .error e
  | .ok qs => a.allDeterministic qs.toList

end Automaton

end PatternAutomata
