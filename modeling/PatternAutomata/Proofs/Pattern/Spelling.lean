import PatternAutomata.Proofs.Pattern.Place

/-!
# Reading and writing tokens are inverse

Tokens that are read from a text are written as that text again, each of them where it was read
(`spell_of_tokenizeFrom`, `position_eq_length_spell`).  Any symbols that are written are read again
(`exists_tokenizeFrom_spell`).  So the form a symbol is written in and the way characters are read
agree on which characters need a backslash.

## Where reading fails

A text cannot be read if a backslash in it escapes nothing that may be escaped.  Which backslashes
escape anything depends on those before them: in a row of backslashes every other one does.
`Escapes` says so without reading tokens, by what is known of the place before, and `BadEscape` says
what is wrong with an escape.  Reading arrives at an escape exactly where one stands
(`escapes_append`), passes those that are right (`exists_isReserved_of_escapes`) and stops at the
first one that is not (`firstBadEscape_of_tokenize_eq_error`).
-/

namespace PatternAutomata

variable {p q : List Char} {tokens x y : List Token} {t : Token} {k i j : Nat} {c d : Char}
  {e e' : PatternError}

/-! ## Escapes -/

/-- The characters that have a meaning of their own. -/
def specialCharacters : List Char := ['|', '*', '·', '(', ')', '\\']

theorem mem_specialCharacters : c ∈ specialCharacters ↔ isReserved c = true := by
  constructor
  · intro hc
    simp only [specialCharacters, List.mem_cons, List.not_mem_nil, or_false] at hc
    rcases hc with rfl | rfl | rfl | rfl | rfl | rfl <;> rfl
  · intro hc
    simp only [isReserved, Bool.or_eq_true, beq_iff_eq, Option.isSome_iff_exists] at hc
    obtain ((⟨o, ho⟩ | rfl) | rfl) | rfl := hc
    · rw [Operator.char_of_ofChar? ho]
      cases o <;> decide
    · decide
    · decide
    · decide

/-- A backslash escapes the character behind it, unless it is escaped itself. -/
def Escapes (p : List Char) : Nat → Prop
  | 0 => p[0]? = some backslash
  | i + 1 => p[i + 1]? = some backslash ∧ ¬ Escapes p i

instance decidableEscapes (p : List Char) : (i : Nat) → Decidable (Escapes p i)
  | 0 => inferInstanceAs (Decidable (p[0]? = some backslash))
  | i + 1 =>
    have := decidableEscapes p i
    inferInstanceAs (Decidable (p[i + 1]? = some backslash ∧ ¬ Escapes p i))

/-- What is wrong with an escape: nothing stands behind the backslash, or a character that has no
meaning of its own. -/
inductive BadEscape (p : List Char) (i : Nat) : PatternError → Prop
  | dangling (h : Escapes p i) (hend : i + 1 = p.length) : BadEscape p i ⟨.danglingBackslash, i⟩
  | needless {c : Char} (h : Escapes p i) (hc : p[i + 1]? = some c)
      (hspecial : c ∉ specialCharacters) : BadEscape p i ⟨.needlessEscape c, i + 1⟩

theorem Escapes.getElem? (h : Escapes p i) : p[i]? = some backslash := by
  cases i with
  | zero => exact h
  | succ i => exact h.1

theorem BadEscape.escapes (h : BadEscape p i e) : Escapes p i := by
  cases h with
  | dangling h _ => exact h
  | needless h _ _ => exact h

theorem BadEscape.lt_length (h : BadEscape p i e) : i < p.length :=
  (List.getElem?_eq_some_iff.mp h.escapes.getElem?).1

/-- One thing at most is wrong with an escape. -/
theorem BadEscape.unique (h : BadEscape p i e) (h' : BadEscape p i e') : e = e' := by
  have hbehind : ∀ {c}, p[i + 1]? = some c → i + 1 ≠ p.length := fun hc =>
    (List.getElem?_eq_some_iff.mp hc).1.ne
  cases h with
  | dangling _ hend =>
    cases h' with
    | dangling _ _ => rfl
    | needless _ hc _ => exact absurd hend (hbehind hc)
  | needless _ hc _ =>
    cases h' with
    | dangling _ hend => exact absurd hend (hbehind hc)
    | needless _ hc' _ =>
      rw [hc] at hc'
      cases hc'
      rfl

theorem not_badEscape_of_isReserved (hc : p[i + 1]? = some c) (hreserved : isReserved c = true) :
    ¬ BadEscape p i e := by
  intro h
  cases h with
  | dangling _ hend => exact (List.getElem?_eq_some_iff.mp hc).1.ne hend
  | needless _ hc' hspecial =>
    rw [hc] at hc'
    cases hc'
    exact hspecial (mem_specialCharacters.mpr hreserved)

/-! ## Escapes in a text that can be read -/

/-- A character that is no backslash does not escape the one behind it. -/
theorem escapes_cons_succ (hc : c ≠ backslash) : Escapes (c :: p) (i + 1) ↔ Escapes p i := by
  induction i with
  | zero => simp [Escapes, hc]
  | succ i ih =>
    rw [Escapes, ih, Escapes, List.getElem?_cons_succ]

/-- Neither does an escaped character. -/
theorem escapes_escape_add_two : Escapes (backslash :: d :: p) (i + 2) ↔ Escapes p i := by
  induction i with
  | zero => simp [Escapes]
  | succ i ih =>
    rw [Escapes, ih, Escapes, List.getElem?_cons_succ, List.getElem?_cons_succ]

/-- **Behind a text that can be read, escapes are those of what follows.** -/
theorem escapes_append (h : tokenizeFrom k p = .ok tokens) (q : List Char) (i : Nat) :
    Escapes (p ++ q) (p.length + i) ↔ Escapes q i := by
  fun_induction tokenizeFrom k p generalizing tokens with
  | case1 k => rw [List.nil_append, List.length_nil, Nat.zero_add]
  | case2 k | case4 k d p => cases h
  | case3 k d p hd ih =>
    obtain ⟨rest, hrest, -⟩ := exists_of_map_eq_ok h
    rw [← ih hrest, List.length_cons, List.length_cons,
      show p.length + 1 + 1 + i = p.length + i + 2 by omega]
    exact escapes_escape_add_two
  | case5 k c p hc ih =>
    obtain ⟨rest, hrest, -⟩ := exists_of_map_eq_ok h
    rw [← ih hrest, List.length_cons, Nat.add_right_comm]
    exact escapes_cons_succ hc

/-- **In a text that can be read, what is escaped has a meaning of its own.** -/
theorem exists_isReserved_of_escapes (h : tokenizeFrom k p = .ok tokens) (hi : i < p.length)
    (hescapes : Escapes (p ++ q) i) :
    ∃ c, (p ++ q)[i + 1]? = some c ∧ isReserved c = true := by
  fun_induction tokenizeFrom k p generalizing tokens i with
  | case1 k => exact absurd hi (Nat.not_lt_zero i)
  | case2 k | case4 k d p => cases h
  | case3 k d p hd ih =>
    obtain ⟨rest, hrest, -⟩ := exists_of_map_eq_ok h
    rcases i with _ | _ | i
    · exact ⟨d, rfl, hd⟩
    · -- the escaped character itself
      exact absurd rfl hescapes.2
    · simp only [List.length_cons] at hi
      exact ih hrest (by omega) (escapes_escape_add_two.mp hescapes)
  | case5 k c p hc ih =>
    obtain ⟨rest, hrest, -⟩ := exists_of_map_eq_ok h
    rcases i with _ | i
    · exact absurd (Option.some.inj hescapes) hc
    · simp only [List.length_cons] at hi
      exact ih hrest (by omega) ((escapes_cons_succ hc).mp hescapes)

theorem not_badEscape_of_tokenizeFrom (h : tokenizeFrom k p = .ok tokens) (hi : i < p.length) :
    ¬ BadEscape (p ++ q) i e := by
  intro hbad
  obtain ⟨c, hc, hreserved⟩ := exists_isReserved_of_escapes h hi hbad.escapes
  exact not_badEscape_of_isReserved hc hreserved hbad

/-! ## Where reading fails -/

/-- The first place where something is wrong with an escape. -/
def FirstBadEscape (p : List Char) (e : PatternError) : Prop :=
  ∃ i, BadEscape p i e ∧ ∀ j < i, ∀ e', ¬ BadEscape p j e'

theorem FirstBadEscape.unique (h : FirstBadEscape p e) (h' : FirstBadEscape p e') : e = e' := by
  obtain ⟨i, hbad, hfirst⟩ := h
  obtain ⟨j, hbad', hfirst'⟩ := h'
  obtain hij | rfl | hji := Nat.lt_trichotomy i j
  · exact absurd hbad (hfirst' i hij e)
  · exact hbad.unique hbad'
  · exact absurd hbad' (hfirst j hji e')

/-- **Reading stops at the first bad escape.** -/
theorem firstBadEscape_of_tokenize_eq_error (h : tokenize p = .error e) : FirstBadEscape p e := by
  obtain ⟨p₁, p₂, x, rfl, hx, hblame⟩ := exists_of_tokenizeFrom_eq_error h
  have hescapes : Escapes (p₁ ++ backslash :: p₂) p₁.length := (escapes_append hx _ 0).mpr rfl
  refine ⟨p₁.length, ?_, fun j hj e' => not_badEscape_of_tokenizeFrom hx hj⟩
  rw [Nat.zero_add] at hblame
  rcases hblame with ⟨rfl, rfl⟩ | ⟨c, q, rfl, hc, rfl⟩
  · exact .dangling hescapes (by simp)
  · refine .needless hescapes (by simp) fun hspecial => ?_
    rw [mem_specialCharacters.mp hspecial] at hc
    cases hc

/-- A text without bad escapes can be read, and no other one. -/
theorem exists_tokenize_iff :
    (∃ tokens, tokenize p = .ok tokens) ↔ ∀ i e, ¬ BadEscape p i e := by
  constructor
  · rintro ⟨tokens, htokens⟩ i e hbad
    rw [← List.append_nil p] at hbad
    refine not_badEscape_of_tokenizeFrom htokens ?_ hbad
    rw [← List.append_nil p]
    exact hbad.lt_length
  · intro hnone
    cases h : tokenize p with
    | ok tokens => exact ⟨tokens, rfl⟩
    | error e =>
      obtain ⟨i, hbad, -⟩ := firstBadEscape_of_tokenize_eq_error h
      exact absurd hbad (hnone i e)

theorem tokenize_eq_error_iff : tokenize p = .error e ↔ FirstBadEscape p e := by
  refine ⟨firstBadEscape_of_tokenize_eq_error, fun hfirst => ?_⟩
  cases h : tokenize p with
  | ok tokens =>
    obtain ⟨i, hbad, -⟩ := hfirst
    exact absurd hbad (exists_tokenize_iff.mp ⟨tokens, h⟩ i e)
  | error e' => rw [(firstBadEscape_of_tokenize_eq_error h).unique hfirst]

/-! ## Reading back and forth -/

@[simp] theorem Token.spell_nil : Token.spell [] = [] := rfl

@[simp] theorem Token.spell_cons (t : Token) (tokens : List Token) :
    Token.spell (t :: tokens) = t.symbol.text ++ Token.spell tokens := rfl

/-- **Tokens are written as the text they were read from.** -/
theorem spell_of_tokenizeFrom (h : tokenizeFrom k p = .ok tokens) : Token.spell tokens = p := by
  induction tokens generalizing k p with
  | nil => rw [eq_nil_of_tokenizeFrom_eq_nil h, Token.spell_nil]
  | cons t tokens ih =>
    obtain ⟨-, q, rfl, hq⟩ := tokenizeFrom_eq_cons_iff.mp h
    rw [Token.spell_cons, ih hq]

/-- **A token stands behind what the tokens before it are written as.** -/
theorem position_eq_length_spell (h : tokenize p = .ok (x ++ t :: y)) :
    t.position = (Token.spell x).length := by
  obtain ⟨p₁, p₂, rfl, hx, hy⟩ := tokenizeFrom_eq_append_iff.mp h
  rw [spell_of_tokenizeFrom hx, (tokenizeFrom_eq_cons_iff.mp hy).1, Nat.zero_add]

/-- **What is written is read as the same symbols**, wherever they stood. -/
theorem exists_tokenizeFrom_spell (tokens : List Token) (k : Nat) :
    ∃ placed, tokenizeFrom k (Token.spell tokens) = .ok placed ∧
      placed.map Token.symbol = tokens.map Token.symbol := by
  induction tokens generalizing k with
  | nil => exact ⟨[], rfl, rfl⟩
  | cons t tokens ih =>
    obtain ⟨placed, hplaced, hsymbols⟩ := ih (k + t.symbol.text.length)
    refine ⟨⟨t.symbol, k⟩ :: placed, ?_, by rw [List.map_cons, List.map_cons, hsymbols]⟩
    rw [Token.spell_cons, tokenizeFrom_text, hplaced]
    rfl

/-- **Reading and writing tokens are inverse.**  A text can be read exactly if there is no bad
escape in it, and otherwise the first one is reported.  The tokens of a text that can be read are
written as the text, and each of them begins at its position.  Any symbols can be read from what is
written for them. -/
theorem tokenize_spell_inverse :
    (∀ p, ((∃ e, tokenize p = .error e) ↔ ∃ i e, BadEscape p i e) ∧
      (∀ e, tokenize p = .error e ↔
        ∃ i, BadEscape p i e ∧ ∀ j < i, ∀ e', ¬ BadEscape p j e') ∧
      ((∀ i e, ¬ BadEscape p i e) → ∃ tokens, tokenize p = .ok tokens ∧
        Token.spell tokens = p ∧ ∀ x t y, tokens = x ++ t :: y →
          t.position = (Token.spell x).length ∧
            p = Token.spell x ++ t.symbol.text ++ Token.spell y)) ∧
    ∀ tokens : List Token, ∃ placed, tokenize (Token.spell tokens) = .ok placed ∧
      placed.map Token.symbol = tokens.map Token.symbol := by
  refine ⟨fun p => ⟨⟨?_, ?_⟩, fun e => tokenize_eq_error_iff, fun hnone => ?_⟩,
    fun tokens => exists_tokenizeFrom_spell tokens 0⟩
  · rintro ⟨e, h⟩
    obtain ⟨i, hbad, -⟩ := firstBadEscape_of_tokenize_eq_error h
    exact ⟨i, e, hbad⟩
  · rintro ⟨i, e, hbad⟩
    cases h : tokenize p with
    | ok tokens => exact absurd hbad (exists_tokenize_iff.mp ⟨tokens, h⟩ i e)
    | error e => exact ⟨e, rfl⟩
  · obtain ⟨tokens, htokens⟩ := exists_tokenize_iff.mpr hnone
    have hspell := spell_of_tokenizeFrom htokens
    refine ⟨tokens, htokens, hspell, ?_⟩
    rintro x t y rfl
    refine ⟨position_eq_length_spell htokens, ?_⟩
    rw [← hspell]
    simp [Token.spell]

/-- In `\\\*` the second backslash is escaped and the third one escapes the star.  In `\\\b\` the
third one escapes a letter, which is reported and not the backslash at the end. -/
theorem tokenize_spell_inverse_backslashes :
    (∃ tokens, tokenize ['\\', '\\', '\\', '*'] = .ok tokens ∧
      Token.spell tokens = ['\\', '\\', '\\', '*'] ∧
      ∀ x t y, tokens = x ++ t :: y → t.position = (Token.spell x).length) ∧
    tokenize ['\\', '\\', '\\', 'b', '\\'] = .error ⟨.needlessEscape 'b', 3⟩ := by
  obtain ⟨hread, -⟩ := tokenize_spell_inverse
  constructor
  · have hescaped : ∀ i < 4, Escapes ['\\', '\\', '\\', '*'] i →
        ['\\', '\\', '\\', '*'][i + 1]?.any isReserved = true := by decide
    obtain ⟨-, -, hinverse⟩ := hread ['\\', '\\', '\\', '*']
    obtain ⟨tokens, htokens, hspell, hposition⟩ := hinverse fun i e hbad => by
      obtain ⟨c, hc, hreserved⟩ :=
        (Option.any_eq_true _ _).mp (hescaped i hbad.lt_length hbad.escapes)
      exact not_badEscape_of_isReserved hc hreserved hbad
    exact ⟨tokens, htokens, hspell, fun x t y h => (hposition x t y h).1⟩
  · obtain ⟨-, hreport, -⟩ := hread ['\\', '\\', '\\', 'b', '\\']
    refine (hreport _).mpr ⟨2, .needless (by decide) rfl (by decide), fun j hj e hbad => ?_⟩
    have hescaped : ∀ i < 2, Escapes ['\\', '\\', '\\', 'b', '\\'] i →
        ['\\', '\\', '\\', 'b', '\\'][i + 1]?.any isReserved = true := by decide
    obtain ⟨c, hc, hreserved⟩ := (Option.any_eq_true _ _).mp (hescaped j hj hbad.escapes)
    exact not_badEscape_of_isReserved hc hreserved hbad

end PatternAutomata
