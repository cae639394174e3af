import PatternAutomata.Determinization
import PatternAutomata.Minimal.Minimization
import PatternAutomata.Pattern.Parse
import PatternAutomata.Thompson

/-!
# Compiled patterns

`compile` takes a pattern through all stages: its tree, the automaton of the tree, the deterministic
automaton of that, the classes of its equivalent states, and the quotient by the classes.  All
stages are kept, and words are matched by the last one.

Only malformed patterns fail.  The stages after the tree work on what the stages before them built,
which never holds anything they would call a fault.
-/

namespace PatternAutomata

/-- Why a pattern is not compiled. -/
inductive CompileError where
  /-- The pattern is malformed. -/
  | malformed (e : PatternError)
  /-- A stage was given something it cannot work with. -/
  | fault (f : Fault)
  deriving DecidableEq, Repr

namespace CompileError

/-- The wording of the error behind. -/
def message : CompileError → String
  | .malformed e => e.message
  | .fault f => f.message

end CompileError

/-- A pattern with everything that was built from it. -/
structure Compiled where
  pattern : List Char
  tokens : List Token
  tree : SyntaxTree
  nfa : Automaton
  determinized : Determinized
  partition : Partition
  minimal : Automaton

namespace Compiled

/-- The deterministic automaton before its equivalent states are merged. -/
def dfa (c : Compiled) : Automaton := c.determinized.automaton

/-- Builds all automata of a tree.  Each has an origin of its own. -/
def ofTree (pattern : List Char) (tokens : List Token) (tree : SyntaxTree) :
    Except Fault Compiled :=
  match Automaton.ofTree 0 tree with
  | .error f => .error f
  | .ok nfa =>
    match nfa.determinize 1 with
    | .error f => .error f
    | .ok determinized =>
      match determinized.automaton.partition with
      | .error f => .error f
      | .ok partition =>
        match determinized.automaton.quotient 2 partition.classes with
        | .error f => .error f
        | .ok minimal => .ok ⟨pattern, tokens, tree, nfa, determinized, partition, minimal⟩

/-- Whether the pattern matches a whole word. -/
def isMatch (c : Compiled) (word : List Char) : Except Fault Bool := c.minimal.accepts word

end Compiled

/-- Compiles a pattern. -/
def compile (pattern : List Char) : Except CompileError Compiled :=
  match readTokens pattern with
  | .error e => .error (.malformed e)
  | .ok tokens =>
    match SyntaxTree.ofTokens tokens with
    | .error e => .error (.malformed e)
    | .ok tree =>
      match Compiled.ofTree pattern tokens tree with
      | .error f => .error (.fault f)
      | .ok c => .ok c

end PatternAutomata
