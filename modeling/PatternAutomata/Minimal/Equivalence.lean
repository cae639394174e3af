import PatternAutomata.Automaton.Traversal
import PatternAutomata.Minimal.PairMarks
import PatternAutomata.Minimal.SetForest

/-!
# Equivalent states

Two states of a deterministic automaton are told apart if one is an exit and the other is not, or if
some letter leads from only one of them anywhere, or if some letter leads to two states that are
told apart.  The table of the pairs that are told apart is filled in passes until a pass finds
nothing new; a pass uses what it has marked itself.

Pairs left unmarked are equivalent.  They are united into classes, listed by their smallest member.

Only states that can be reached from the entry take part, and each of them must have at most one
target on each letter.
-/

namespace PatternAutomata

/-- What one state looks like to the table: whether it is an exit, and where each letter leads, as
indices of the states that take part. -/
structure Profile where
  isExit : Bool
  targets : List (Option Nat)
  deriving DecidableEq, Repr

/-- The classes of equivalent states, and for each pass how many pairs it told apart.  There are no
passes when fewer than two states take part. -/
structure Partition where
  classes : List (OrderedSet StateId)
  passes : List Nat
  deriving DecidableEq

namespace Profile

/-- Whether a table tells two targets on one letter apart. -/
def separates (t : PairMarks) : Option Nat × Option Nat → Bool
  | (none, none) => false
  | (some i, some j) => t.isMarked i j
  | _ => true

/-- Whether a table tells two states apart by what some letter leads to. -/
def apart (t : PairMarks) (p q : Profile) : Bool := (p.targets.zip q.targets).any (separates t)

/-- Marks the pairs of an exit and a state that is none. -/
def markExits (profiles : Array Profile) (t : PairMarks) (pair : Nat × Nat) : PairMarks :=
  match profiles[pair.1]?, profiles[pair.2]? with
  | some p, some q => if p.isExit != q.isExit then t.mark pair.1 pair.2 else t
  | _, _ => t

/-- Marks a pair that is not marked yet if its states are told apart, and counts it. -/
def checkPair (profiles : Array Profile) (r : PairMarks × Nat) (pair : Nat × Nat) :
    PairMarks × Nat :=
  match profiles[pair.1]?, profiles[pair.2]? with
  | some p, some q =>
    if r.1.isMarked pair.1 pair.2 then r
    else if apart r.1 p q then (r.1.mark pair.1 pair.2, r.2 + 1)
    else r
  | _, _ => r

/-- One pass over all pairs: the table after it and the number of pairs it marked. -/
def pass (profiles : Array Profile) (t : PairMarks) : PairMarks × Nat :=
  (PairMarks.pairs profiles.size).foldl (checkPair profiles) (t, 0)

/-- Repeats the pass until one marks nothing, at most a given number of times.  Also lists how many
pairs each pass marked. -/
def passes (profiles : Array Profile) : Nat → PairMarks → PairMarks × List Nat
  | 0, t => (t, [])
  | budget + 1, t =>
    let r := pass profiles t
    if r.2 = 0 then (r.1, [0])
    else
      let rest := passes profiles budget r.1
      (rest.1, r.2 :: rest.2)

/-- The table with the pairs of an exit and another state marked. -/
def exitTable (profiles : Array Profile) : PairMarks :=
  (PairMarks.pairs profiles.size).foldl (markExits profiles) (PairMarks.blank profiles.size)

/-- The filled table.  All passes but the last mark at least one pair, so there are at most as many
passes as there are pairs, and one more. -/
def fillTable (profiles : Array Profile) : PairMarks × List Nat :=
  passes profiles (PairMarks.pairCount profiles.size + 1) (exitTable profiles)

end Profile

/-- Unites the pairs of numbers below `n` that a table leaves unmarked. -/
def unmarkedSets (n : Nat) (t : PairMarks) : SetForest :=
  (PairMarks.pairs n).foldl
    (fun s pair => if t.isMarked pair.1 pair.2 then s else s.union pair.1 pair.2)
    (SetForest.discrete n)

/-- The states whose root is a given one.  Each state is paired with its root. -/
def statesOfRoot (paired : List (StateId × Nat)) (root : Nat) : OrderedSet StateId :=
  OrderedSet.ofList (paired.filterMap fun p => if p.2 = root then some p.1 else none)

/-- The classes of the states that a table leaves unmarked, in the order of their roots. -/
def unmarkedClasses (states : List StateId) (t : PairMarks) : List (OrderedSet StateId) :=
  let indices := List.range states.length
  let paired := states.zip ((unmarkedSets states.length t).roots indices)
  (indices.map (statesOfRoot paired)).filter fun c => !c.isEmpty

namespace Automaton

/-- Where each of some letters leads from a state. -/
def soleTargets (s : State) : List Letter → Except Fault (List (Option StateId))
  | [] => .ok []
  | l :: ls =>
    match s.soleTarget l with
    | .error e => .error e
    | .ok q => (soleTargets s ls).map (q :: ·)

/-- The targets of a state on all letters, at most one on each. -/
def soleSuccessors (a : Automaton) (q : StateId) : Except Fault (List StateId) :=
  match a.state q with
  | .error e => .error e
  | .ok s => (soleTargets s a.alphabet.toList).map fun qs => qs.filterMap id

/-- The states that can be reached from the entry.  Fails if one of them has several targets on one
letter. -/
def soleReachable (a : Automaton) : Except Fault (OrderedSet StateId) :=
  match a.requireEntry with
  | .error e => .error e
  | .ok q => (explore a.soleSuccessors .depthFirst (a.size + 1) [q]).map OrderedSet.ofList

/-- The place of a target among the states that take part. -/
def indexAmong (states : List StateId) : Option StateId → Except Fault (Option Nat)
  | none => .ok none
  | some q => if q ∈ states then .ok (some (states.idxOf q)) else .error (.foreignState q)

/-- The places of some targets among the states that take part. -/
def indicesAmong (states : List StateId) : List (Option StateId) → Except Fault (List (Option Nat))
  | [] => .ok []
  | q :: qs =>
    match indexAmong states q with
    | .error e => .error e
    | .ok i => (indicesAmong states qs).map (i :: ·)

/-- The profile of one of the states that take part. -/
def profile (a : Automaton) (states : List StateId) (q : StateId) : Except Fault Profile :=
  match a.state q with
  | .error e => .error e
  | .ok s =>
    match soleTargets s a.alphabet.toList with
    | .error e => .error e
    | .ok qs => (indicesAmong states qs).map (⟨s.isExit, ·⟩)

/-- The profiles of some of the states that take part. -/
def profiles (a : Automaton) (states : List StateId) : List StateId → Except Fault (List Profile)
  | [] => .ok []
  | q :: qs =>
    match a.profile states q with
    | .error e => .error e
    | .ok p => (a.profiles states qs).map (p :: ·)

/-- The classes of equivalent states among those that can be reached from the entry. -/
def partition (a : Automaton) : Except Fault Partition :=
  match a.soleReachable with
  | .error e => .error e
  | .ok reached =>
    if reached.size < 2 then .ok ⟨[reached], []⟩
    else
      let states := reached.toList
      (a.profiles states states).map fun profiles =>
        let filled := Profile.fillTable profiles.toArray
        ⟨unmarkedClasses states filled.1, filled.2⟩

end Automaton

end PatternAutomata
