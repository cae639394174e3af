import PatternAutomata.Automaton.InPlace

/-!
# Several automata at once

A workbench holds automata that are built side by side.  It hands out origins: every automaton that
is created gets one that no automaton on the workbench had before, and a copy keeps the origin of
what it was copied from.  So a state of one automaton is never taken for a state of another, unless
one is a copy of the other and both have a state with that index.

An `Edit` is one step of building.  Automata are changed in place, so an edit that fails leaves
behind what it has changed before it failed.
-/

namespace PatternAutomata

/-- Automata in the order in which they were put on the workbench, and the next unused origin. -/
structure Workbench where
  automata : Array Automaton
  nextOrigin : Nat
  deriving DecidableEq

namespace Workbench

/-- One step of building.  Automata are named by their place on the workbench. -/
inductive Edit where
  | create (alphabet : OrderedSet Letter)
  | copy (m : Nat)
  | addState (m : Nat)
  | addArc (m : Nat) (source : StateId) (l : Letter) (target : StateId)
  | setEntry (m : Nat) (q : StateId)
  | setExit (m : Nat) (q : StateId)
  deriving DecidableEq

/-- The workbench with nothing on it. -/
def empty : Workbench := ⟨#[], 0⟩

/-- Puts an automaton with a new origin on the workbench, unless building it fails. -/
def put (w : Workbench) (make : Nat → Except Fault Automaton) : Workbench × Option Fault :=
  match make w.nextOrigin with
  | .error f => (w, some f)
  | .ok a => (⟨w.automata.push a, w.nextOrigin + 1⟩, none)

/-- Changes one of the automata in place. -/
def change (w : Workbench) (m : Nat) (c : Change) : Workbench × Option Fault :=
  match w.automata[m]? with
  | none => (w, none)
  | some a => ({ w with automata := w.automata.setIfInBounds m (c a).1 }, (c a).2)

/-- Performs one step of building, and tells what was wrong with it if it failed.  There is nothing
to do at a place that holds no automaton. -/
def perform (w : Workbench) : Edit → Workbench × Option Fault
  | .create alphabet => w.put fun origin => .ok (.empty origin alphabet)
  | .copy m =>
    match w.automata[m]? with
    | none => (w, none)
    | some a => ({ w with automata := w.automata.push a }, none)
  | .addState m => w.change m Change.addState
  | .addArc m source l target => w.change m (Change.addArc source l target)
  | .setEntry m q => w.change m (Change.setEntry q)
  | .setExit m q => w.change m (Change.setExit q)

/-- Performs steps of building one after the other, whether they fail or not. -/
def performAll (w : Workbench) (edits : List Edit) : Workbench :=
  edits.foldl (fun w e => (w.perform e).1) w

end Workbench

end PatternAutomata
