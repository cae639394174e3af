import PatternAutomata.Automaton.State

/-!
# Automata

An automaton is an alphabet and an array of states, at most one of which is designated as the
entry.  It is built step by step: states are added, arcs are drawn between them, and states are
marked as entry or exit.  Every step checks the states and letters it is given, and a step that
fails leaves no trace, because it returns no automaton.

When epsilon is in the alphabet, every state gets an epsilon arc to itself as soon as it is added.
-/

namespace PatternAutomata

/-- States over one alphabet, in the order in which they were added. -/
structure Automaton where
  /-- What tells the states of this automaton from those of others. -/
  origin : Nat
  alphabet : OrderedSet Letter
  states : Array State
  entry : Option StateId
  deriving DecidableEq

namespace Automaton

/-- The automaton without states. -/
def empty (origin : Nat) (alphabet : OrderedSet Letter) : Automaton := ⟨origin, alphabet, #[], none⟩

/-- The number of states, whether they can be reached or not. -/
def size (a : Automaton) : Nat := a.states.size

/-- Whether arcs may carry epsilon. -/
def hasEpsilon (a : Automaton) : Bool := decide (Letter.epsilon ∈ a.alphabet)

/-- The state with an identifier, if it belongs to the automaton. -/
def state? (a : Automaton) (q : StateId) : Option State :=
  if q.origin = a.origin then a.states[q.index]? else none

/-- The state with an identifier; a state of another automaton is a fault. -/
def state (a : Automaton) (q : StateId) : Except Fault State :=
  match a.state? q with
  | some s => .ok s
  | none => .error (.foreignState q)

/-- The entry; not having one is a fault. -/
def requireEntry (a : Automaton) : Except Fault StateId :=
  match a.entry with
  | some q => .ok q
  | none => .error .noEntry

/-- The identifier of the state added next. -/
def nextId (a : Automaton) : StateId := ⟨a.size, a.origin⟩

/-- Adds a state.  With epsilon in the alphabet it gets its epsilon arc to itself. -/
def addState (a : Automaton) : Automaton :=
  let s := State.isolated a.nextId
  { a with states := a.states.push (if a.hasEpsilon then s.addArc .epsilon a.nextId else s) }

/-- Changes one state, if it is there. -/
def modifyState (a : Automaton) (q : StateId) (f : State → State) : Automaton :=
  { a with states := a.states.modify q.index f }

/-- Draws an arc. -/
def addArc (a : Automaton) (source : StateId) (l : Letter) (target : StateId) :
    Except Fault Automaton :=
  if l ∈ a.alphabet then
    match a.state target with
    | .error e => .error e
    | .ok _ =>
      match a.state source with
      | .error e => .error e
      | .ok _ => .ok (a.modifyState source fun s => s.addArc l target)
  else .error (.foreignLetter l)

/-- Takes the designation as entry from the state that has it. -/
def withoutEntry (a : Automaton) : Automaton :=
  match a.entry with
  | some q => { a.modifyState q fun s => { s with isEntry := false } with entry := none }
  | none => a

/-- Designates a state as the only entry. -/
def setEntry (a : Automaton) (q : StateId) : Except Fault Automaton :=
  match a.state q with
  | .error e => .error e
  | .ok _ =>
    .ok { a.withoutEntry.modifyState q fun s => { s with isEntry := true } with entry := some q }

/-- Marks a state as an exit. -/
def setExit (a : Automaton) (q : StateId) : Except Fault Automaton :=
  match a.state q with
  | .error e => .error e
  | .ok _ => .ok (a.modifyState q fun s => { s with isExit := true })

end Automaton

end PatternAutomata
