import PatternAutomata.Automaton.Basic

/-!
# Changing automata in place

`Automaton.addArc` and its like return the automaton they make, or none if they fail.  Whoever keeps
an automaton and changes it in place is left with an automaton in either case.  A `Change` tells
which one, and what was wrong if the change failed.

A change can consist of several writes.  If one of them fails, those before it stay.  Designating an
entry is of this kind: the state is flagged, it replaces the designated entry, and only then the
state that was the entry before is looked up to take its flag away.
-/

namespace PatternAutomata

/-- What changing an automaton in place leaves behind, and what was wrong if the change failed. -/
abbrev Change := Automaton → Automaton × Option Fault

namespace Change

/-- Leaves everything as it is. -/
def skip : Change := fun a => (a, none)

/-- One change and then, unless it fails, another one. -/
def andThen (c d : Change) : Change := fun a =>
  match c a with
  | (b, none) => d b
  | (b, some f) => (b, some f)

/-- Fails for a letter outside the alphabet. -/
def requireLetter (l : Letter) : Change := fun a =>
  if l ∈ a.alphabet then (a, none) else (a, some (.foreignLetter l))

/-- Fails for a state of another automaton. -/
def requireState (q : StateId) : Change := fun a =>
  match a.state q with
  | .ok _ => (a, none)
  | .error f => (a, some f)

/-- Changes one state.  Fails for a state of another automaton. -/
def onState (q : StateId) (f : State → State) : Change :=
  (requireState q).andThen fun a => (a.modifyState q f, none)

/-- Adds a state. -/
def addState : Change := fun a => (a.addState, none)

/-- Draws an arc. -/
def addArc (source : StateId) (l : Letter) (target : StateId) : Change :=
  (requireLetter l).andThen
    ((requireState target).andThen (onState source fun s => s.addArc l target))

/-- Takes the entry flag from the state that was the entry, unless it is the entry now. -/
def unflag (previous : Option StateId) (q : StateId) : Change :=
  match previous with
  | none => skip
  | some p => if p = q then skip else onState p fun s => { s with isEntry := false }

/-- Designates a state as the only entry. -/
def setEntry (q : StateId) : Change :=
  (onState q fun s => { s with isEntry := true }).andThen fun a =>
    unflag a.entry q { a with entry := some q }

/-- Marks a state as an exit. -/
def setExit (q : StateId) : Change := onState q fun s => { s with isExit := true }

end Change

end PatternAutomata
