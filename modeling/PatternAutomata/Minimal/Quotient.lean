import PatternAutomata.Automaton.Basic

/-!
# Quotients by classes of states

Given classes of states of a deterministic automaton, `quotient` builds an automaton with one state
for each class, starting from the class of the entry and adding classes as arcs lead to them.  A
class is represented by the member through which it was first met, and the arcs of that member
become the arcs of the class.  All members of a class are renamed to its new state before any arc is
followed, so cycles find the state that is already there.  Classes met last are followed up first.

The classes may be any sets of states, in any order.  Where they overlap, the class listed first
that holds a state is its class, and a later renaming replaces an earlier one.
-/

namespace PatternAutomata

/-- The first of some classes that holds a state. -/
def classOf (classes : List (OrderedSet StateId)) (q : StateId) : Option (OrderedSet StateId) :=
  classes.find? fun c => decide (q ∈ c)

/-- A quotient under construction. -/
structure QuotientDraft where
  automaton : Automaton
  /-- Old states and the new states they are renamed to, the latest renaming first. -/
  renamed : List (StateId × StateId)
  /-- Representatives whose arcs are still to be followed, with their new states. -/
  pending : List (StateId × StateId)
  deriving DecidableEq

namespace QuotientDraft

/-- Renames some old states to a new one, which is an exit if any of them is. -/
def rename (old : Automaton) (new : StateId) (r : QuotientDraft) :
    List StateId → Except Fault QuotientDraft
  | [] => .ok r
  | q :: qs =>
    match old.state q with
    | .error e => .error e
    | .ok s =>
      let r := { r with renamed := (q, new) :: r.renamed }
      if s.isExit then
        match r.automaton.setExit new with
        | .error e => .error e
        | .ok a => rename old new { r with automaton := a } qs
      else rename old new r qs

/-- Adds the state for the class of an old state, which represents the class.  Also returns the new
state. -/
def addClass (old : Automaton) (classes : List (OrderedSet StateId)) (r : QuotientDraft) (q : StateId) :
    Except Fault (QuotientDraft × StateId) :=
  match classOf classes q with
  | none => .error (.stateOutsideClasses q)
  | some members =>
    let new := r.automaton.nextId
    match rename old new { r with automaton := r.automaton.addState } members.toList with
    | .error e => .error e
    | .ok r => .ok ({ r with pending := (q, new) :: r.pending }, new)

/-- The new state of an old one: where it was renamed to, or else the state added for its class. -/
def resolve (old : Automaton) (classes : List (OrderedSet StateId)) (r : QuotientDraft) (q : StateId) :
    Except Fault (QuotientDraft × StateId) :=
  match r.renamed.lookup q with
  | some new => .ok (r, new)
  | none => addClass old classes r q

/-- Follows the arcs of a representative on some letters. -/
def followArcs (old : Automaton) (classes : List (OrderedSet StateId)) (s : State) (new : StateId)
    (r : QuotientDraft) : List Letter → Except Fault QuotientDraft
  | [] => .ok r
  | l :: ls =>
    match s.soleTarget l with
    | .error e => .error e
    | .ok none => followArcs old classes s new r ls
    | .ok (some q) =>
      match resolve old classes r q with
      | .error e => .error e
      | .ok (r, target) =>
        match r.automaton.addArc new l target with
        | .error e => .error e
        | .ok a => followArcs old classes s new { r with automaton := a } ls

/-- Follows the arcs of all pending representatives, at most a given number of them. -/
def complete (old : Automaton) (classes : List (OrderedSet StateId)) :
    Nat → QuotientDraft → Except Fault QuotientDraft
  | 0, r => .ok r
  | budget + 1, r =>
    match r.pending with
    | [] => .ok r
    | (q, new) :: pending =>
      match old.state q with
      | .error e => .error e
      | .ok s =>
        match followArcs old classes s new { r with pending := pending } old.alphabet.toList with
        | .error e => .error e
        | .ok r => complete old classes budget r

end QuotientDraft

namespace Automaton

/-- The first of some states that is marked as the entry. -/
def flaggedEntry (a : Automaton) : List StateId → Except Fault StateId
  | [] => .error .entryOutsideClasses
  | q :: qs =>
    match a.state q with
    | .error e => .error e
    | .ok s => if s.isEntry then .ok q else a.flaggedEntry qs

/-- The quotient of an automaton by classes of its states, with states of a given origin.  Every
class that is added renames a state not renamed before, so there are no more of them than states in
the classes. -/
def quotient (origin : Nat) (a : Automaton) (classes : List (OrderedSet StateId)) :
    Except Fault Automaton :=
  let members := classes.flatMap OrderedSet.toList
  match a.flaggedEntry members with
  | .error e => .error e
  | .ok q =>
    match QuotientDraft.addClass a classes ⟨empty origin a.alphabet, [], []⟩ q with
    | .error e => .error e
    | .ok (r, entry) =>
      match r.automaton.setEntry entry with
      | .error e => .error e
      | .ok b =>
        (QuotientDraft.complete a classes members.length { r with automaton := b }).map
          QuotientDraft.automaton

end Automaton

end PatternAutomata
