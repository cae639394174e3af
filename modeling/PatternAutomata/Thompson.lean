import PatternAutomata.Automaton.Basic
import PatternAutomata.Pattern.Tree

/-!
# Automata of trees

The automaton of a tree has one entry and one exit; the tree is wired between the two.  A union
wires both of its children between the same two states, a concatenation puts one new state between
its children, and a star wires its child between two new states, with epsilon arcs that enter,
repeat, leave and skip it.

Sharing the ends is sound because wiring draws no arc into its start and none out of its end.

The empty tree stands for the empty word and has an automaton of its own, with a single state.  An
empty tree anywhere else, or an operator with the wrong number of children, is a fault.
-/

namespace PatternAutomata

namespace Automaton

/-- Wires a tree between two states. -/
def wire (a : Automaton) (start stop : StateId) : SyntaxTree → Except Fault Automaton
  | .empty => .error .misplacedEmpty
  | .leaf c => a.addArc start (.char c) stop
  | .node .union [left, right] =>
    match a.wire start stop left with
    | .error e => .error e
    | .ok a => a.wire start stop right
  | .node .concatenation [left, right] =>
    let middle := a.nextId
    match a.addState.wire start middle left with
    | .error e => .error e
    | .ok a => a.wire middle stop right
  | .node .star [body] =>
    let first := a.nextId
    let a := a.addState
    let last := a.nextId
    let a := a.addState
    match a.addArc start .epsilon first with
    | .error e => .error e
    | .ok a =>
      match a.addArc start .epsilon stop with
      | .error e => .error e
      | .ok a =>
        match a.addArc last .epsilon first with
        | .error e => .error e
        | .ok a =>
          match a.addArc last .epsilon stop with
          | .error e => .error e
          | .ok a => a.wire first last body
  | .node o children => .error (.wrongArity o children.length)

/-- The letters of the automaton of a tree: the characters at its leaves, and epsilon. -/
def alphabetOfTree (t : SyntaxTree) : OrderedSet Letter :=
  OrderedSet.ofList (.epsilon :: t.literals.toList.map .char)

/-- The automaton of a tree, with states of a given origin. -/
def ofTree (origin : Nat) (t : SyntaxTree) : Except Fault Automaton :=
  let a := empty origin (alphabetOfTree t)
  let first := a.nextId
  let a := a.addState
  match t with
  | .empty =>
    match a.setEntry first with
    | .error e => .error e
    | .ok a => a.setExit first
  | t =>
    let last := a.nextId
    let a := a.addState
    match a.setEntry first with
    | .error e => .error e
    | .ok a =>
      match a.setExit last with
      | .error e => .error e
      | .ok a => a.wire first last t

end Automaton

end PatternAutomata
