import PatternAutomata.Automaton.Traversal

/-!
# Accepting words

A word is decided in two ways.  `accepts` walks from the entry along the only arc for each
character, which needs a deterministic automaton.  `simulates` keeps the set of all states the
automaton can be in, closed under epsilon arcs, and works for every automaton.
-/

namespace PatternAutomata

/-- How a walk along the characters of a word ends. -/
inductive Walk where
  /-- All characters were followed, up to a state. -/
  | finished (q : StateId)
  /-- A state has no arc for the next character. -/
  | blocked (q : StateId) (c : Char)
  deriving DecidableEq, Repr

namespace Automaton

/-- Follows a word from a state, along the only arc for each character. -/
def walkFrom (a : Automaton) (q : StateId) : List Char → Except Fault Walk
  | [] => .ok (.finished q)
  | c :: word =>
    match a.state q with
    | .error e => .error e
    | .ok s =>
      match s.soleTarget (.char c) with
      | .error e => .error e
      | .ok none => .ok (.blocked q c)
      | .ok (some r) => a.walkFrom r word

/-- Follows a word from the entry. -/
def walk (a : Automaton) (word : List Char) : Except Fault Walk :=
  match a.requireEntry with
  | .error e => .error e
  | .ok q => a.walkFrom q word

/-- Whether a walk ends at an exit. -/
def endsAtExit (a : Automaton) : Walk → Except Fault Bool
  | .finished q => (a.state q).map State.isExit
  | .blocked _ _ => .ok false

/-- Whether the walk along a word ends at an exit. -/
def accepts (a : Automaton) (word : List Char) : Except Fault Bool :=
  match a.walk word with
  | .error e => .error e
  | .ok w => a.endsAtExit w

/-- The states that a letter leads to from any of some states. -/
def targetsOfAll (a : Automaton) (l : Letter) : List StateId → Except Fault (OrderedSet StateId)
  | [] => .ok ∅
  | q :: qs =>
    match a.state q with
    | .error e => .error e
    | .ok s => (a.targetsOfAll l qs).map (s.targets l ∪ ·)

/-- Whether any of some states is an exit, looking no further than the first that is. -/
def anyExit (a : Automaton) : List StateId → Except Fault Bool
  | [] => .ok false
  | q :: qs =>
    match a.state q with
    | .error e => .error e
    | .ok s => if s.isExit then .ok true else a.anyExit qs

/-- Whether the automaton can follow a word from any of a closed set of states to an exit. -/
def simulatesFrom (a : Automaton) (current : OrderedSet StateId) : List Char → Except Fault Bool
  | [] => a.anyExit current.toList
  | c :: word =>
    match a.targetsOfAll (.char c) current.toList with
    | .error e => .error e
    | .ok next =>
      match a.closure next.toList with
      | .error e => .error e
      | .ok next => if next.isEmpty then .ok false else a.simulatesFrom next word

/-- Whether the automaton can follow a word from the entry to an exit. -/
def simulates (a : Automaton) (word : List Char) : Except Fault Bool :=
  match a.requireEntry with
  | .error e => .error e
  | .ok q =>
    match a.closure [q] with
    | .error e => .error e
    | .ok current => a.simulatesFrom current word

end Automaton

end PatternAutomata
