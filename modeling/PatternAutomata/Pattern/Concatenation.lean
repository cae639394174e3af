import PatternAutomata.Pattern.EmptyGroup

/-!
# Writing concatenation out

Two operands written next to each other are concatenated.  `connectOperands` puts the operator
between them, at the position of the right one, so that afterwards every two operands are connected
by an operator.
-/

namespace PatternAutomata

namespace Symbol

/-- Whether a symbol can end an operand: a literal, a star or a closed group. -/
def endsOperand (s : Symbol) : Bool := !s.isBinaryOperator && !s.isOpening

/-- Whether a symbol can begin an operand: a literal or an opened group. -/
def beginsOperand (s : Symbol) : Bool := !s.isOperator && !s.isClosing

end Symbol

/-- Inserts the missing concatenations into the tokens that follow a token. -/
def connectOperandsAfter (previous : Token) : List Token → List Token
  | [] => []
  | t :: rest =>
    if previous.symbol.endsOperand && t.symbol.beginsOperand then
      ⟨.operator .concatenation, t.position⟩ :: t :: connectOperandsAfter t rest
    else
      t :: connectOperandsAfter t rest

/-- Inserts the missing concatenations. -/
def connectOperands : List Token → List Token
  | [] => []
  | t :: rest => t :: connectOperandsAfter t rest

/-- Brings tokens into the form the tree builder reads: no empty groups, and every concatenation
written out. -/
def prepare (tokens : List Token) : Except PatternError (List Token) :=
  (withoutEmptyGroups tokens).map connectOperands

end PatternAutomata
