import PatternAutomata.Pattern.Symbol

/-!
# What can be wrong with a pattern

Every rejection names its cause and the position it is blamed on, counted in characters from the
start of the pattern.
-/

namespace PatternAutomata

/-- Why a pattern is rejected. -/
inductive PatternError.Cause where
  /-- The last character is an unescaped backslash. -/
  | danglingBackslash
  /-- A backslash stands before a character that is not reserved. -/
  | needlessEscape (c : Char)
  /-- A parenthesis has no partner. -/
  | unmatchedParenthesis
  /-- Only empty groups were written. -/
  | onlyEmptyGroups
  /-- Too little stands before an empty group for it to be erased. -/
  | openingEmptyGroup
  /-- A postfix operator is followed by more of its own scope. -/
  | misplacedPostfix (o : Operator)
  /-- An operator lacks an operand. -/
  | missingOperand (o : Operator)
  /-- Two symbols stand next to each other with no operator between them. -/
  | unconnected
  deriving DecidableEq, Repr

/-- A rejected pattern: the cause and the position it is blamed on. -/
structure PatternError where
  cause : PatternError.Cause
  position : Nat
  deriving DecidableEq, Repr

namespace PatternError

/-- The wording of a cause. -/
def Cause.message : Cause → String
  | .danglingBackslash => "unescaped backslash at the end of the pattern"
  | .needlessEscape c => s!"'{c}' can't be escaped"
  | .unmatchedParenthesis => "unbalanced parenthesis"
  | .onlyEmptyGroups => "pattern consists of empty groups only"
  | .openingEmptyGroup => "empty group can't precede the rest of its pattern"
  | .misplacedPostfix o => s!"unary operator '{o.char}' must be the last symbol of its scope"
  | .missingOperand o => s!"operator '{o.char}' is missing an operand"
  | .unconnected => "symbols aren't connected by any operator"

/-- The wording of a rejection. -/
def message (e : PatternError) : String :=
  s!"Invalid regex: {e.cause.message} (position {e.position})"

end PatternError

end PatternAutomata
