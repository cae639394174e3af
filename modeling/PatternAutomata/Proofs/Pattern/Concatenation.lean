import PatternAutomata.Proofs.Pattern.EmptyGroup

/-!
# Writing concatenation out in parts of a text

Whether a concatenation is missing before a token depends on the token before it only.  Behind a
token that ends no operand, such as an opening parenthesis, a part of a text is treated as if it
stood alone, and nothing is missing before a token that begins none, such as a closing one.  So a
part in parentheses is treated on its own (`connectOperands_enclose`).

What is inserted are operators, which open and close nothing (`level_connectOperands`).
-/

namespace PatternAutomata

variable {tokens rest : List Token} {previous t : Token}

/-! ## Steps -/

theorem connectOperands_cons (t : Token) (rest : List Token) :
    connectOperands (t :: rest) = t :: connectOperandsAfter t rest := rfl

/-- Nothing is missing before a token that begins no operand. -/
theorem connectOperandsAfter_cons (ht : t.symbol.beginsOperand = false) (previous : Token)
    (rest : List Token) :
    connectOperandsAfter previous (t :: rest) = t :: connectOperandsAfter t rest := by
  simp only [connectOperandsAfter, ht, Bool.and_false, Bool.false_eq_true, if_false]

/-- Nothing is missing behind a token that ends no operand. -/
theorem connectOperandsAfter_eq (h : previous.symbol.endsOperand = false) (tokens : List Token) :
    connectOperandsAfter previous tokens = connectOperands tokens := by
  cases tokens with
  | nil => rfl
  | cons t rest =>
    simp only [connectOperandsAfter, connectOperands, h, Bool.false_and, Bool.false_eq_true, if_false]

/-- Where one operand ends and another one begins, a concatenation is missing. -/
theorem connectOperandsAfter_cons_of_missing (h : previous.symbol.endsOperand = true)
    (ht : t.symbol.beginsOperand = true) (rest : List Token) :
    connectOperandsAfter previous (t :: rest) =
      ⟨.operator .concatenation, t.position⟩ :: connectOperands (t :: rest) := by
  simp only [connectOperandsAfter, connectOperands, h, ht, Bool.and_self, if_true]

/-! ## What is kept -/

theorem connectOperandsAfter_shift (k : Nat) (previous : Token) (tokens : List Token) :
    connectOperandsAfter (previous.shift k) (tokens.map (Token.shift k)) =
      (connectOperandsAfter previous tokens).map (Token.shift k) := by
  induction tokens generalizing previous with
  | nil => rfl
  | cons t rest ih =>
    rw [List.map_cons, connectOperandsAfter, connectOperandsAfter, ih, Token.symbol_shift,
      Token.symbol_shift]
    split <;> rfl

/-- The concatenations written out move along with their right operands. -/
theorem connectOperands_shift (k : Nat) (tokens : List Token) :
    connectOperands (tokens.map (Token.shift k)) = (connectOperands tokens).map (Token.shift k) := by
  cases tokens with
  | nil => rfl
  | cons t rest =>
    rw [List.map_cons, connectOperands_cons, connectOperandsAfter_shift]
    rfl

theorem map_symbol_connectOperandsAfter {previous' : Token} {w w' : List Token}
    (hprevious : previous.symbol = previous'.symbol)
    (h : w.map Token.symbol = w'.map Token.symbol) :
    (connectOperandsAfter previous w).map Token.symbol =
      (connectOperandsAfter previous' w').map Token.symbol := by
  induction w generalizing w' previous previous' with
  | nil => rw [List.map_eq_nil_iff.mp h.symm]; rfl
  | cons t w ih =>
    obtain ⟨t', v, rfl, ht, hv⟩ := List.map_eq_cons_iff.mp h.symm
    rw [connectOperandsAfter, connectOperandsAfter, hprevious, ht]
    split <;> simp only [List.map_cons, ht, ih ht.symm hv.symm]

/-- The symbols decide where concatenations are written out. -/
theorem map_symbol_connectOperands {w w' : List Token}
    (h : w.map Token.symbol = w'.map Token.symbol) :
    (connectOperands w).map Token.symbol = (connectOperands w').map Token.symbol := by
  cases w with
  | nil => rw [List.map_eq_nil_iff.mp h.symm]
  | cons t w =>
    obtain ⟨t', v, rfl, ht, hv⟩ := List.map_eq_cons_iff.mp h.symm
    rw [connectOperands_cons, connectOperands_cons, List.map_cons, List.map_cons, ht,
      map_symbol_connectOperandsAfter ht.symm hv.symm]

theorem level_connectOperandsAfter (previous : Token) (tokens : List Token) (d : Nat) :
    level d ((connectOperandsAfter previous tokens).map Token.symbol) =
      level d (tokens.map Token.symbol) := by
  induction tokens generalizing previous d with
  | nil => rfl
  | cons t rest ih =>
    have hrest := level_cons_congr (ih t) t.symbol d
    rw [connectOperandsAfter]
    split
    · rw [List.map_cons, level_operator]
      exact hrest
    · exact hrest

/-- **Writing concatenation out keeps what is open.** -/
theorem level_connectOperands (tokens : List Token) (d : Nat) :
    level d ((connectOperands tokens).map Token.symbol) = level d (tokens.map Token.symbol) := by
  cases tokens with
  | nil => rfl
  | cons t rest => exact level_cons_congr (level_connectOperandsAfter t rest) t.symbol d

/-! ## Parts of a text -/

/-- A part ends before a token that begins no operand. -/
theorem connectOperandsAfter_append (ht : t.symbol.beginsOperand = false) (previous : Token)
    (tokens rest : List Token) :
    connectOperandsAfter previous (tokens ++ t :: rest) =
      connectOperandsAfter previous tokens ++ t :: connectOperandsAfter t rest := by
  induction tokens generalizing previous with
  | nil => exact connectOperandsAfter_cons ht previous rest
  | cons u tokens ih =>
    rw [List.cons_append, connectOperandsAfter, connectOperandsAfter, ih]
    split <;> rfl

/-- **In a part in parentheses concatenation is written out as if the part stood alone.** -/
theorem connectOperands_enclose (k length : Nat) (tokens rest : List Token) :
    connectOperands (Token.enclose k length tokens ++ rest) =
      Token.enclose k length (connectOperands tokens) ++
        connectOperandsAfter ⟨.closing, k + 1 + length⟩ rest := by
  calc connectOperands (Token.enclose k length tokens ++ rest)
    _ = ⟨.opening, k⟩ :: connectOperandsAfter ⟨.opening, k⟩
        (tokens.map (Token.shift (k + 1)) ++ ⟨.closing, k + 1 + length⟩ :: rest) := by
      rw [Token.enclose, List.append_assoc]
      rfl
    _ = ⟨.opening, k⟩ :: ((connectOperands tokens).map (Token.shift (k + 1)) ++
        ⟨.closing, k + 1 + length⟩ :: connectOperandsAfter ⟨.closing, k + 1 + length⟩ rest) := by
      rw [connectOperandsAfter_append rfl, connectOperandsAfter_eq rfl, connectOperands_shift]
    _ = Token.enclose k length (connectOperands tokens) ++
        connectOperandsAfter ⟨.closing, k + 1 + length⟩ rest := by
      rw [Token.enclose, List.append_assoc]
      rfl

/-- A part in parentheses at the end of a text. -/
theorem connectOperands_enclose_end (k length : Nat) (tokens : List Token) :
    connectOperands (Token.enclose k length tokens) =
      Token.enclose k length (connectOperands tokens) := by
  have hend := connectOperands_enclose k length tokens []
  rwa [connectOperandsAfter, List.append_nil, List.append_nil] at hend

end PatternAutomata
