import PatternAutomata.Proofs.Pattern.Grammar
import PatternAutomata.Proofs.Pattern.Token

/-!
# Where tokens stand

Tokens cut a text into pieces.  Every token is written at its position, one behind the other, and
nothing is left over (`tokenizeFrom_eq_cons_iff`), so a text can be cut wherever its tokens can
(`tokenizeFrom_eq_append_iff`).

What a pattern says about a single character is the symbol that the character means where it stands
(`meanings`).  An escaped character means itself, and so does the backslash before it.  The symbols
of the tokens and the meanings of the characters open and close the same groups (`level_meanings`).
A question about parentheses can therefore be asked of the characters, without tokens.
-/

namespace PatternAutomata

variable {p q : List Char} {tokens x y : List Token} {t : Token} {s : Symbol} {k : Nat} {c : Char}
  {e : PatternError}

/-! ## Written forms -/

theorem Operator.char_of_ofChar? {o : Operator} (h : Operator.ofChar? c = some o) : c = o.char := by
  unfold Operator.ofChar? at h
  split at h <;> cases h <;> rfl

/-- A character that is not escaped is the written form of its meaning. -/
theorem Symbol.text_ofChar (hc : c ≠ backslash) : (Symbol.ofChar c).text = [c] := by
  unfold Symbol.ofChar
  split_ifs with hopening hclosing
  · rw [hopening, Symbol.text]
  · rw [hclosing, Symbol.text]
  · cases ho : Operator.ofChar? c with
    | none => simp [Symbol.text, isReserved, ho, hopening, hclosing, hc]
    | some o => rw [Operator.char_of_ofChar? ho, Symbol.text]

theorem Symbol.ofChar_of_not_isReserved (hc : isReserved c = false) :
    Symbol.ofChar c = .literal c ∧ c ≠ backslash := by
  simp only [isReserved, Bool.or_eq_false_iff, beq_eq_false_iff_ne, Option.isSome_eq_false_iff,
    Option.isNone_iff_eq_none] at hc
  obtain ⟨⟨⟨ho, hopening⟩, hclosing⟩, hbackslash⟩ := hc
  rw [Symbol.ofChar, if_neg hopening, if_neg hclosing, ho]
  exact ⟨rfl, hbackslash⟩

/-- **The written form of a symbol is read as the symbol.** -/
theorem tokenizeFrom_text (s : Symbol) (k : Nat) (q : List Char) :
    tokenizeFrom k (s.text ++ q) = (tokenizeFrom (k + s.text.length) q).map (⟨s, k⟩ :: ·) := by
  cases s with
  | literal c =>
    by_cases hc : isReserved c = true
    · rw [Symbol.text, if_pos hc]
      exact tokenizeFrom_escape hc k q
    · obtain ⟨hmeaning, hne⟩ := Symbol.ofChar_of_not_isReserved (Bool.eq_false_iff.mpr hc)
      rw [Symbol.text, if_neg hc, ← hmeaning]
      exact tokenizeFrom_cons hne k q
  | operator o => cases o <;> exact tokenizeFrom_cons (by decide) k q
  | opening => exact tokenizeFrom_cons (by decide) k q
  | closing => exact tokenizeFrom_cons (by decide) k q

/-- A symbol that is no literal is the meaning of one character. -/
theorem Symbol.exists_ofChar (hs : ∀ c, s ≠ .literal c) :
    ∃ c, c ≠ backslash ∧ s.text = [c] ∧ Symbol.ofChar c = s := by
  cases s with
  | literal c => exact absurd rfl (hs c)
  | operator o => exact ⟨o.char, by cases o <;> decide, rfl, by cases o <;> rfl⟩
  | opening => exact ⟨'(', by decide, rfl, rfl⟩
  | closing => exact ⟨')', by decide, rfl, rfl⟩

/-! ## Cutting a text -/

/-- **A text begins with the written form of its first token.** -/
theorem tokenizeFrom_eq_cons_iff : tokenizeFrom k p = .ok (t :: y) ↔
    t.position = k ∧ ∃ q, p = t.symbol.text ++ q ∧
      tokenizeFrom (k + t.symbol.text.length) q = .ok y := by
  constructor
  · intro h
    fun_induction tokenizeFrom k p with
    | case1 | case2 | case4 => cases h
    | case3 k d p hd =>
      obtain ⟨rest, hrest, hcons⟩ := exists_of_map_eq_ok h
      cases hcons
      exact ⟨rfl, p, by rw [Symbol.text, if_pos hd]; rfl, by rwa [Symbol.text, if_pos hd]⟩
    | case5 k c p hc =>
      obtain ⟨rest, hrest, hcons⟩ := exists_of_map_eq_ok h
      cases hcons
      exact ⟨rfl, p, by rw [Symbol.text_ofChar hc]; rfl, by rwa [Symbol.text_ofChar hc]⟩
  · rintro ⟨rfl, q, rfl, hq⟩
    rw [tokenizeFrom_text, hq]
    rfl

/-- **A text can be cut where its tokens can.** -/
theorem tokenizeFrom_eq_append_iff : tokenizeFrom k p = .ok (x ++ y) ↔
    ∃ p₁ p₂, p = p₁ ++ p₂ ∧ tokenizeFrom k p₁ = .ok x ∧
      tokenizeFrom (k + p₁.length) p₂ = .ok y := by
  constructor
  · intro h
    induction x generalizing k p with
    | nil => exact ⟨[], p, rfl, rfl, h⟩
    | cons t x ih =>
      obtain ⟨hposition, q, rfl, hq⟩ := tokenizeFrom_eq_cons_iff.mp h
      obtain ⟨p₁, p₂, rfl, hx, hy⟩ := ih hq
      refine ⟨t.symbol.text ++ p₁, p₂, (List.append_assoc _ _ _).symm,
        tokenizeFrom_eq_cons_iff.mpr ⟨hposition, p₁, rfl, hx⟩, ?_⟩
      rwa [List.length_append, ← Nat.add_assoc]
  · rintro ⟨p₁, p₂, rfl, hx, hy⟩
    rw [tokenizeFrom_append hx, hy]
    rfl

/-- Only the empty text has no tokens. -/
theorem eq_nil_of_tokenizeFrom_eq_nil (h : tokenizeFrom k p = .ok []) : p = [] := by
  fun_induction tokenizeFrom k p with
  | case1 => rfl
  | case2 | case4 => cases h
  | case3 | case5 =>
    obtain ⟨rest, -, hcons⟩ := exists_of_map_eq_ok h
    cases hcons

/-- A place between two tokens of a pattern, at its start or at its end. -/
def TokenBoundary (p : List Char) (k : Nat) : Prop :=
  ∃ tokens, tokenize p = .ok tokens ∧ (k = p.length ∨ ∃ t ∈ tokens, t.position = k)

/-- Both sides of a place between two tokens can be read. -/
theorem TokenBoundary.exists_append (h : TokenBoundary p k) : ∃ p₁ p₂ x y,
    p = p₁ ++ p₂ ∧ k = p₁.length ∧ tokenize p₁ = .ok x ∧ tokenizeFrom p₁.length p₂ = .ok y := by
  obtain ⟨tokens, htokens, rfl | ⟨t, ht, rfl⟩⟩ := h
  · exact ⟨p, [], tokens, [], (List.append_nil p).symm, rfl, htokens, rfl⟩
  · obtain ⟨x, y, rfl⟩ := List.append_of_mem ht
    obtain ⟨p₁, p₂, rfl, hx, hy⟩ := tokenizeFrom_eq_append_iff.mp htokens
    rw [Nat.zero_add] at hy
    exact ⟨p₁, p₂, x, t :: y, rfl, (tokenizeFrom_eq_cons_iff.mp hy).1, hx, hy⟩

/-- What cannot be read is a backslash: the last character, or one before a character that does not
need it.  What stands before it can be read. -/
theorem exists_of_tokenizeFrom_eq_error (h : tokenizeFrom k p = .error e) :
    ∃ p₁ p₂ x, p = p₁ ++ backslash :: p₂ ∧ tokenizeFrom k p₁ = .ok x ∧
      ((p₂ = [] ∧ e = ⟨.danglingBackslash, k + p₁.length⟩) ∨
        ∃ c q, p₂ = c :: q ∧ isReserved c = false ∧
          e = ⟨.needlessEscape c, k + p₁.length + 1⟩) := by
  have hmap : ∀ {t : Token} {r : Except PatternError (List Token)},
      r.map (t :: ·) = .error e → r = .error e := by
    rintro t (e | rest) h <;> cases h
    rfl
  fun_induction tokenizeFrom k p with
  | case1 k => cases h
  | case2 k =>
    cases h
    exact ⟨[], [], [], rfl, rfl, Or.inl ⟨rfl, rfl⟩⟩
  | case3 k d p hd ih =>
    obtain ⟨p₁, p₂, x, rfl, hx, hblame⟩ := ih (hmap h)
    refine ⟨backslash :: d :: p₁, p₂, _, rfl, by rw [tokenizeFrom_escape hd, hx]; rfl, ?_⟩
    rwa [show k + (backslash :: d :: p₁).length = k + 2 + p₁.length by
      rw [List.length_cons, List.length_cons]; omega]
  | case4 k d p hd =>
    cases h
    exact ⟨[], d :: p, [], rfl, rfl, Or.inr ⟨d, p, rfl, Bool.eq_false_iff.mpr hd, rfl⟩⟩
  | case5 k c p hc ih =>
    obtain ⟨p₁, p₂, x, rfl, hx, hblame⟩ := ih (hmap h)
    refine ⟨c :: p₁, p₂, _, rfl, by rw [tokenizeFrom_cons hc, hx]; rfl, ?_⟩
    rwa [List.length_cons, Nat.add_comm p₁.length, ← Nat.add_assoc]

/-! ## What the characters mean -/

/-- The meanings of characters, one for each.  A character behind a backslash that is itself not
escaped means itself. -/
def meaningsFrom (escaped : Bool) : List Char → List Symbol
  | [] => []
  | c :: rest =>
    (if escaped then .literal c else .ofChar c) :: meaningsFrom (!escaped && c == backslash) rest

/-- The meanings of the characters of a pattern, one for each. -/
def meanings (p : List Char) : List Symbol := meaningsFrom false p

theorem length_meanings (p : List Char) : (meanings p).length = p.length := by
  have hfrom : ∀ escaped, (meaningsFrom escaped p).length = p.length := by
    induction p with
    | nil => exact fun _ => rfl
    | cons c p ih => exact fun _ => congrArg (· + 1) (ih _)
  exact hfrom false

theorem meanings_cons (hc : c ≠ backslash) (p : List Char) :
    meanings (c :: p) = .ofChar c :: meanings p := by
  rw [meanings, meaningsFrom, beq_false_of_ne hc]
  rfl

/-- What follows a text that can be read means the same without it. -/
theorem meanings_append (h : tokenizeFrom k p = .ok tokens) (q : List Char) :
    meanings (p ++ q) = meanings p ++ meanings q := by
  fun_induction tokenizeFrom k p generalizing tokens with
  | case1 k => rfl
  | case2 k | case4 k d p => cases h
  | case3 k d p hd ih =>
    obtain ⟨rest, hrest, -⟩ := exists_of_map_eq_ok h
    exact congrArg (fun w => .literal backslash :: .literal d :: w) (ih hrest)
  | case5 k c p hc ih =>
    obtain ⟨rest, hrest, -⟩ := exists_of_map_eq_ok h
    rw [List.cons_append, meanings_cons hc, meanings_cons hc, ih hrest]
    rfl

/-- **Tokens and characters open and close the same groups.** -/
theorem level_meanings (h : tokenizeFrom k p = .ok tokens) (d : Nat) :
    level d (meanings p) = level d (tokens.map Token.symbol) := by
  fun_induction tokenizeFrom k p generalizing tokens d with
  | case1 k =>
    cases h
    rfl
  | case2 k | case4 k c p => cases h
  | case3 k c p hc ih =>
    obtain ⟨rest, hrest, rfl⟩ := exists_of_map_eq_ok h
    have hliteral :
        level d (meanings (backslash :: c :: p)) = level d (.literal c :: meanings p) := by
      cases d <;> rfl
    rw [hliteral]
    exact level_cons_congr (fun d => ih hrest d) (.literal c) d
  | case5 k c p hc ih =>
    obtain ⟨rest, hrest, rfl⟩ := exists_of_map_eq_ok h
    rw [meanings_cons hc]
    exact level_cons_congr (fun d => ih hrest d) (.ofChar c) d

/-- **A parenthesis or an operator stands in a text where it stands among the tokens.**  It is the
character at its position, with the same groups open before it and behind it. -/
theorem exists_place (h : tokenize p = .ok (x ++ t :: y)) (ht : ∀ c, t.symbol ≠ .literal c) :
    ∃ p₁ c p₂, p = p₁ ++ c :: p₂ ∧ t.position = p₁.length ∧ t.symbol.text = [c] ∧
      meanings p = meanings p₁ ++ t.symbol :: meanings p₂ ∧
      (∀ d, level d (meanings p₁) = level d (x.map Token.symbol)) ∧
      ∀ d, level d (meanings p₂) = level d (y.map Token.symbol) := by
  obtain ⟨p₁, q, rfl, hx, hq⟩ := tokenizeFrom_eq_append_iff.mp h
  rw [Nat.zero_add] at hq
  obtain ⟨hposition, p₂, rfl, hy⟩ := tokenizeFrom_eq_cons_iff.mp hq
  obtain ⟨c, hc, htext, hmeaning⟩ := Symbol.exists_ofChar ht
  refine ⟨p₁, c, p₂, by rw [htext]; rfl, hposition, htext, ?_, level_meanings hx, level_meanings hy⟩
  rw [meanings_append hx, htext, List.singleton_append, meanings_cons hc, hmeaning]

/-- The character at the position of a parenthesis or an operator. -/
theorem getElem?_position (h : tokenize p = .ok tokens) (ht : t ∈ tokens)
    (hliteral : ∀ c, t.symbol ≠ .literal c) :
    ∃ c, t.symbol.text = [c] ∧ p[t.position]? = some c ∧
      (meanings p)[t.position]? = some t.symbol := by
  obtain ⟨x, y, rfl⟩ := List.append_of_mem ht
  obtain ⟨p₁, c, p₂, rfl, hposition, htext, hmeanings, -⟩ := exists_place h hliteral
  refine ⟨c, htext, by simp [hposition], ?_⟩
  rw [hmeanings, hposition, ← length_meanings p₁]
  simp

end PatternAutomata
