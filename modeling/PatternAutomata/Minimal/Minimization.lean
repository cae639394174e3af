import PatternAutomata.Minimal.Equivalence
import PatternAutomata.Minimal.Quotient

/-!
# Minimization

The minimal automaton is the quotient by the classes of equivalent states.
-/

namespace PatternAutomata

namespace Automaton

/-- The quotient of a deterministic automaton by its classes of equivalent states, with states of a
given origin. -/
def minimize (origin : Nat) (a : Automaton) : Except Fault Automaton :=
  match a.partition with
  | .error e => .error e
  | .ok p => a.quotient origin p.classes

end Automaton

end PatternAutomata
