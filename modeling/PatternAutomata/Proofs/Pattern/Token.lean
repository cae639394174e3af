import PatternAutomata.Pattern.Token

/-!
# Tokens of texts that are put together

Reading a text into tokens goes from left to right and looks one character ahead at most, behind a
backslash.  A text that can be read ends between two tokens, so what follows it is read as if it
stood alone (`tokenizeFrom_append`).  Where a text stands only moves its tokens (`tokenizeFrom_add`).

In particular the tokens of a text in parentheses are the tokens of the text, moved and enclosed
(`tokenizeFrom_parenthesize`).
-/

namespace PatternAutomata

theorem exists_of_map_eq_ok {ε α β : Type} {x : Except ε α} {f : α → β} {b : β}
    (h : x.map f = .ok b) : ∃ a, x = .ok a ∧ f a = b := by
  cases x with
  | error e => cases h
  | ok a => exact ⟨a, rfl, Except.ok.inj h⟩

namespace Token

/-- A token of a text, in a text in which a number of characters stand before it. -/
def shift (k : Nat) (t : Token) : Token := { t with position := t.position + k }

@[simp] theorem symbol_shift (k : Nat) (t : Token) : (t.shift k).symbol = t.symbol := rfl

@[simp] theorem map_symbol_shift (k : Nat) (tokens : List Token) :
    (tokens.map (shift k)).map symbol = tokens.map symbol := by
  rw [List.map_map]
  rfl

/-- The tokens of a text of a given length in parentheses, the first of which stands at `k`. -/
def enclose (k length : Nat) (tokens : List Token) : List Token :=
  ⟨.opening, k⟩ :: tokens.map (shift (k + 1)) ++ [⟨.closing, k + 1 + length⟩]

theorem map_symbol_enclose (k length : Nat) (tokens : List Token) :
    (enclose k length tokens).map symbol = .opening :: tokens.map symbol ++ [.closing] := by
  rw [enclose, List.cons_append, List.map_cons, List.map_append, map_symbol_shift]
  rfl

end Token

/-- A text in parentheses. -/
def parenthesize (p : List Char) : List Char := '(' :: p ++ [')']

variable {p : List Char} {tokens : List Token} {j k : Nat} {c : Char}

theorem tokenizeFrom_cons (hc : c ≠ backslash) (k : Nat) (p : List Char) :
    tokenizeFrom k (c :: p) = (tokenizeFrom (k + 1) p).map (⟨.ofChar c, k⟩ :: ·) := by
  rw [tokenizeFrom.eq_def]
  simp only [if_neg hc]

theorem tokenizeFrom_escape {d : Char} (hd : isReserved d = true) (k : Nat) (p : List Char) :
    tokenizeFrom k (backslash :: d :: p) =
      (tokenizeFrom (k + 2) p).map (⟨.literal d, k⟩ :: ·) := by
  rw [tokenizeFrom.eq_def]
  simp only [if_pos, hd]

/-- **What follows a text is read on its own.** -/
theorem tokenizeFrom_append (h : tokenizeFrom k p = .ok tokens) (q : List Char) :
    tokenizeFrom k (p ++ q) = (tokenizeFrom (k + p.length) q).map (tokens ++ ·) := by
  have hmap : ∀ (t : Token) (tokens : List Token) (x : Except PatternError (List Token)),
      (x.map (tokens ++ ·)).map (t :: ·) = x.map (t :: tokens ++ ·) := by
    rintro t tokens (e | rest) <;> rfl
  fun_induction tokenizeFrom k p generalizing tokens with
  | case1 k =>
    cases h
    rw [List.nil_append, List.length_nil, Nat.add_zero]
    cases tokenizeFrom k q <;> rfl
  | case2 k | case4 k d p => cases h
  | case3 k d p hd ih =>
    obtain ⟨rest, hrest, rfl⟩ := exists_of_map_eq_ok h
    rw [List.cons_append, List.cons_append, tokenizeFrom_escape hd, ih hrest, hmap]
    rw [List.length_cons, List.length_cons, Nat.add_assoc, Nat.add_comm 2]
  | case5 k c p hc ih =>
    obtain ⟨rest, hrest, rfl⟩ := exists_of_map_eq_ok h
    rw [List.cons_append, tokenizeFrom_cons hc, ih hrest, hmap]
    rw [List.length_cons, Nat.add_assoc, Nat.add_comm 1]

/-- **Where a text stands only moves its tokens.** -/
theorem tokenizeFrom_add (h : tokenizeFrom j p = .ok tokens) (k : Nat) :
    tokenizeFrom (j + k) p = .ok (tokens.map (Token.shift k)) := by
  fun_induction tokenizeFrom j p generalizing tokens with
  | case1 j =>
    cases h
    rfl
  | case2 j | case4 j d p => cases h
  | case3 j d p hd ih =>
    obtain ⟨rest, hrest, rfl⟩ := exists_of_map_eq_ok h
    rw [tokenizeFrom_escape hd, Nat.add_right_comm, ih hrest]
    rfl
  | case5 j c p hc ih =>
    obtain ⟨rest, hrest, rfl⟩ := exists_of_map_eq_ok h
    rw [tokenizeFrom_cons hc, Nat.add_right_comm, ih hrest]
    rfl

/-- The tokens of a text in parentheses. -/
theorem tokenizeFrom_parenthesize (h : tokenize p = .ok tokens) (k : Nat) :
    tokenizeFrom k (parenthesize p) = .ok (Token.enclose k p.length tokens) := by
  have hinside : tokenizeFrom (k + 1) p = .ok (tokens.map (Token.shift (k + 1))) := by
    have hmoved := tokenizeFrom_add h (k + 1)
    rwa [Nat.zero_add] at hmoved
  rw [parenthesize, List.cons_append, tokenizeFrom_cons (by decide), tokenizeFrom_append hinside]
  rfl

end PatternAutomata
