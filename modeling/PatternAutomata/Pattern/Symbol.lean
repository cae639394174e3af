/-!
# The symbols of a pattern

A pattern is written with three operators, two parentheses and literal characters.  Union `|` and
concatenation `·` join two operands, the star `*` follows its one operand.  Concatenation is usually
left out by the writer (`ab` for `a·b`).

A character with a meaning of its own is *reserved*; preceded by a backslash it stands for itself.
`Symbol.text` writes a symbol so that it reads back as the same symbol.
-/

namespace PatternAutomata

/-- The operators of a pattern. -/
inductive Operator where
  | union
  | concatenation
  | star
  deriving DecidableEq, Repr

namespace Operator

/-- The character an operator is written with. -/
def char : Operator → Char
  | .union => '|'
  | .concatenation => '·'
  | .star => '*'

/-- The operator written with a character, if it is one. -/
def ofChar? : Char → Option Operator
  | '|' => some .union
  | '·' => some .concatenation
  | '*' => some .star
  | _ => none

/-- The rank that decides which operator splits a pattern: the highest one present does, so it
binds loosest. -/
def rank : Operator → Nat
  | .union => 2
  | .concatenation => 1
  | .star => 0

/-- The number of operands. -/
def arity : Operator → Nat
  | .union | .concatenation => 2
  | .star => 1

/-- Whether there is one operand, written before the operator. -/
def isUnary (o : Operator) : Bool := o.arity == 1

/-- Whether there are two operands, written on both sides of the operator. -/
def isBinary (o : Operator) : Bool := o.arity == 2

@[simp] theorem ofChar?_char (o : Operator) : ofChar? o.char = some o := by cases o <;> rfl

end Operator

/-- The character that takes its own meaning from the reserved character after it. -/
def backslash : Char := '\\'

/-- Whether a character means something other than itself when it stands unescaped. -/
def isReserved (c : Char) : Bool :=
  (Operator.ofChar? c).isSome || c == '(' || c == ')' || c == backslash

/-- What one token of a pattern means. -/
inductive Symbol where
  /-- A character that stands for itself. -/
  | literal (c : Char)
  | operator (o : Operator)
  /-- An opening parenthesis. -/
  | opening
  /-- A closing parenthesis. -/
  | closing
  deriving DecidableEq, Repr

namespace Symbol

/-- The meaning of a character that stands unescaped. -/
def ofChar (c : Char) : Symbol :=
  if c = '(' then .opening
  else if c = ')' then .closing
  else match Operator.ofChar? c with
    | some o => .operator o
    | none => .literal c

/-- The written form: reserved literals are escaped. -/
def text : Symbol → List Char
  | .literal c => if isReserved c then [backslash, c] else [c]
  | .operator o => [o.char]
  | .opening => ['(']
  | .closing => [')']

/-- Whether the symbol is an operator. -/
def isOperator : Symbol → Bool
  | .operator _ => true
  | _ => false

/-- Whether the symbol is an operator with an operand on both sides. -/
def isBinaryOperator : Symbol → Bool
  | .operator o => o.isBinary
  | _ => false

/-- Whether the symbol opens a group. -/
def isOpening : Symbol → Bool
  | .opening => true
  | _ => false

/-- Whether the symbol closes a group. -/
def isClosing : Symbol → Bool
  | .closing => true
  | _ => false

end Symbol

end PatternAutomata
