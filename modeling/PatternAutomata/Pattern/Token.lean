import PatternAutomata.Pattern.Error

/-!
# From characters to tokens

A token is a symbol together with the position of its first character.  `tokenize` reads a pattern
into tokens, `Token.spell` writes tokens back.  An escaped reserved character is one token, placed at
its backslash.
-/

namespace PatternAutomata

/-- A symbol of a pattern and where it starts. -/
structure Token where
  symbol : Symbol
  position : Nat
  deriving DecidableEq, Repr

/-- Reads characters into tokens; the first character stands at `position`. -/
def tokenizeFrom (position : Nat) : List Char → Except PatternError (List Token)
  | [] => .ok []
  | c :: rest =>
    if c = backslash then
      match rest with
      | [] => .error ⟨.danglingBackslash, position⟩
      | d :: rest =>
        if isReserved d then
          (tokenizeFrom (position + 2) rest).map (⟨.literal d, position⟩ :: ·)
        else
          .error ⟨.needlessEscape d, position + 1⟩
    else
      (tokenizeFrom (position + 1) rest).map (⟨.ofChar c, position⟩ :: ·)

/-- Reads a pattern into tokens. -/
def tokenize (pattern : List Char) : Except PatternError (List Token) :=
  tokenizeFrom 0 pattern

/-- The written form of a list of tokens. -/
def Token.spell (tokens : List Token) : List Char :=
  tokens.flatMap fun t => t.symbol.text

end PatternAutomata
