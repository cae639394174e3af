import PatternAutomata.Automaton.Acceptance

/-!
# The subset construction

A deterministic automaton is made of the *sets* of states an automaton can be in.  The first set is
the epsilon closure of the entry; the set after a character is the union of the closures of the
targets of its members.  `reachableSubsets` explores these sets breadth first, characters in
ascending order, and the order of discovery numbers the states of the result.

The empty set is never a state: where it would be reached there is no arc.  There are at most
`2 ^ n` sets of `n` states, which is the budget of the exploration.

Without any character in the alphabet there is nothing to follow, and the result is the automaton of
the empty word.
-/

namespace PatternAutomata

/-- A deterministic automaton with, for each of its states, the set of states merged into it.  No
sets are recorded when the alphabet has no character. -/
structure Determinized where
  subsets : List (OrderedSet StateId)
  automaton : Automaton
  deriving DecidableEq

namespace Automaton

/-- The letters of the alphabet other than epsilon. -/
def characters (a : Automaton) : OrderedSet Letter :=
  OrderedSet.ofList (a.alphabet.toList.filter (· ≠ .epsilon))

/-- The union of the closures of what a letter leads to from each of some states. -/
def advance (a : Automaton) (l : Letter) : List StateId → Except Fault (OrderedSet StateId)
  | [] => .ok ∅
  | q :: qs =>
    match a.state q with
    | .error e => .error e
    | .ok s =>
      match a.closure (s.targets l).toList with
      | .error e => .error e
      | .ok c => (a.advance l qs).map (c ∪ ·)

/-- The non-empty sets reached from a set by one of some letters, in the order of the letters. -/
def nextSubsets (a : Automaton) (members : OrderedSet StateId) :
    List Letter → Except Fault (List (OrderedSet StateId))
  | [] => .ok []
  | l :: ls =>
    match a.advance l members.toList with
    | .error e => .error e
    | .ok next => (a.nextSubsets members ls).map fun r => if next.isEmpty then r else next :: r

/-- The non-empty sets of states the automaton can be in after some word, breadth first. -/
def reachableSubsets (a : Automaton) : Except Fault (List (OrderedSet StateId)) :=
  match a.requireEntry with
  | .error e => .error e
  | .ok q =>
    match a.closure [q] with
    | .error e => .error e
    | .ok first =>
      explore (fun members => a.nextSubsets members a.characters.toList) .breadthFirst
        (Nat.pow 2 a.size) [first]

/-- The arcs of a merged state: one for each of some letters that leads to one of the sets. -/
def subsetArcs (a : Automaton) (origin : Nat) (subsets : List (OrderedSet StateId))
    (members : OrderedSet StateId) : List Letter → Except Fault (OrderedSet Arc)
  | [] => .ok ∅
  | l :: ls =>
    match a.advance l members.toList with
    | .error e => .error e
    | .ok next =>
      (a.subsetArcs origin subsets members ls).map fun arcs =>
        if next ∈ subsets then arcs.insert ⟨l, ⟨subsets.idxOf next, origin⟩⟩ else arcs

/-- The states for some of the sets, which are numbered from an index on. -/
def subsetStates (a : Automaton) (origin : Nat) (subsets : List (OrderedSet StateId)) (index : Nat) :
    List (OrderedSet StateId) → Except Fault (List State)
  | [] => .ok []
  | members :: rest =>
    match a.anyExit members.toList with
    | .error e => .error e
    | .ok isExit =>
      match a.subsetArcs origin subsets members a.characters.toList with
      | .error e => .error e
      | .ok arcs =>
        (a.subsetStates origin subsets (index + 1) rest).map
          (⟨⟨index, origin⟩, index == 0, isExit, arcs⟩ :: ·)

/-- The automaton that accepts the empty word only, without letters. -/
def emptyWord (origin : Nat) : Automaton :=
  ⟨origin, ∅, #[⟨⟨0, origin⟩, true, true, ∅⟩], some ⟨0, origin⟩⟩

/-- The deterministic automaton of the reachable sets of states, with states of a given origin. -/
def determinize (origin : Nat) (a : Automaton) : Except Fault Determinized :=
  if a.characters = ∅ then .ok ⟨[], emptyWord origin⟩
  else
    match a.reachableSubsets with
    | .error e => .error e
    | .ok subsets =>
      (a.subsetStates origin subsets 0 subsets).map fun states =>
        ⟨subsets, ⟨origin, a.characters, states.toArray, some ⟨0, origin⟩⟩⟩

end Automaton

end PatternAutomata
