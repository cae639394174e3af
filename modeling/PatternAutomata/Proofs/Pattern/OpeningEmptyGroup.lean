import PatternAutomata.Proofs.Pattern.Rejection

/-!
# When a pattern is said to open with an empty group

An empty group cannot precede the rest of its pattern: `()a` is rejected for it, and so is `(())`,
where the group around it becomes empty.  In both a non-empty front of the tokens vanishes
(`FrontVanishes`), and so the first token is an opening parenthesis.

The scan that erases empty groups does not look at the first token, however.  It counts how many
tokens stand before an empty group, and in front of a closing parenthesis one is too few, even if it
opens nothing.  So `a())` is rejected for its empty group as well (`ClosesBehindFirst`), whereas
`ab())` is rejected for its parentheses, which are unbalanced in both.

* `exists_parse_eq_openingEmptyGroup_iff`: these are the two ways to be rejected for an empty group.
* `ClosesBehindFirst.not_balanced`: in the second way the parentheses are never balanced.
* `openingEmptyGroup_exact`: if they are balanced, the rejection means what it says.
-/

namespace PatternAutomata

variable {p : List Char} {tokens w : List Token} {k : Nat}

/-- Something at the front vanishes when empty groups are erased. -/
def FrontVanishes (tokens : List Token) : Prop :=
  ∃ u v, tokens = u ++ v ∧ u ≠ [] ∧ ErasesTo u []

/-- Behind a first token that opens no group, something vanishes, and a group closes. -/
def ClosesBehindFirst (tokens : List Token) : Prop :=
  ∃ b u c v, tokens = b :: (u ++ c :: v) ∧ b.symbol ≠ .opening ∧ u ≠ [] ∧ ErasesTo u [] ∧
    c.symbol = .closing

theorem opensEmpty_iff : OpensEmpty w ↔
    (FrontVanishes w ∧ w.map Token.symbol ≠ [.opening, .closing]) ∨ ClosesBehindFirst w := by
  constructor
  · rintro (⟨hne, hempty, hmore⟩ | ⟨hb, hne, hempty, hc⟩)
    · exact Or.inl ⟨⟨_, _, rfl, hne, hempty.erased⟩, hmore⟩
    · exact Or.inr ⟨_, _, _, _, rfl, hb, hne, hempty.erased, hc⟩
  · rintro (⟨⟨u, v, rfl, hne, hempty⟩, hmore⟩ | ⟨b, u, c, v, rfl, hb, hne, hempty, hc⟩)
    · exact .beginning hne (normalForm_nil_iff.mpr hempty) hmore
    · exact .behindFirst hb hne (normalForm_nil_iff.mpr hempty) hc

/-- **What vanishes at the front begins with an opening parenthesis.** -/
theorem FrontVanishes.exists_opening (h : FrontVanishes tokens) :
    ∃ t rest, tokens = t :: rest ∧ t.symbol = .opening := by
  obtain ⟨u, v, rfl, hne, hempty⟩ := h
  obtain ⟨t, u, rfl⟩ := List.exists_cons_of_ne_nil hne
  exact ⟨t, u ++ v, rfl, (nested_of_erasesTo hempty).head_symbol⟩

/-- **A group that closes behind the first token was never opened.** -/
theorem ClosesBehindFirst.not_balanced (h : ClosesBehindFirst tokens) :
    ¬ Balanced (tokens.map Token.symbol) := by
  obtain ⟨b, u, c, v, rfl, hb, -, hempty, hc⟩ := h
  intro hbalanced
  -- without what vanishes, the closing parenthesis follows the first token
  have hleft : ErasesTo (b :: (u ++ c :: v)) (b :: c :: v) :=
    (hempty.append (.refl (c :: v))).cons b
  rw [Balanced, hleft.level_eq, List.map_cons, List.map_cons, hc] at hbalanced
  cases hsymbol : b.symbol with
  | opening => exact hb hsymbol
  | closing | operator o | literal c =>
    rw [hsymbol] at hbalanced
    cases hbalanced

/-! ## Rejections -/

/-- **A pattern is rejected for an empty group exactly if the scan stops at one.** -/
theorem parse_eq_openingEmptyGroup_iff : parse p = .error ⟨.openingEmptyGroup, k⟩ ↔
    ∃ tokens, tokenize p = .ok tokens ∧
      withoutEmptyGroups tokens = .error ⟨.openingEmptyGroup, k⟩ := by
  constructor
  · intro h
    have hp : p ≠ [] := by
      rintro rfl
      cases h
    rw [parse] at h
    cases hread : readTokens p with
    | error e =>
      rw [hread] at h
      cases h
      rcases (readTokens_eq_error_iff hp).mp hread with h | ⟨tokens, htokens, h | ⟨-, h⟩⟩
      · obtain ⟨p₁, p₂, x, -, -, ⟨-, h⟩ | ⟨c, q, -, -, h⟩⟩ := exists_of_tokenizeFrom_eq_error h
        · cases h
        · cases h
      · exact ⟨tokens, htokens, h⟩
      · cases h
    | ok prepared =>
      -- what is read is rejected for other causes
      rw [hread] at h
      obtain ⟨-, tokens, w, htokens, hw, rfl⟩ := (readTokens_eq_ok_iff hp).mp hread
      by_cases hbalanced : Balanced (meanings p)
      · obtain ⟨o, ho, -⟩ := ofTokens_of_balanced htokens hw hbalanced h
        cases ho
      · obtain ⟨i, hi, -⟩ := ofTokens_of_not_balanced htokens hw hbalanced
        cases hi.symm.trans h
  · rintro ⟨tokens, htokens, h⟩
    have hp : p ≠ [] := by
      rintro rfl
      cases htokens
      cases (eraseEmptyGroups_nil []).symm.trans h
    rw [parse, (readTokens_eq_error_iff hp).mpr (Or.inr ⟨tokens, htokens, Or.inl h⟩)]

/-- The two ways to be rejected for an empty group. -/
theorem exists_parse_eq_openingEmptyGroup_iff : (∃ k, parse p = .error ⟨.openingEmptyGroup, k⟩) ↔
    ∃ tokens, tokenize p = .ok tokens ∧
      (FrontVanishes tokens ∧ p ≠ ['(', ')'] ∨ ClosesBehindFirst tokens) := by
  constructor
  · rintro ⟨k, h⟩
    obtain ⟨tokens, htokens, h⟩ := parse_eq_openingEmptyGroup_iff.mp h
    have hopen := opensEmpty_iff.mp (exists_error_iff_opensEmpty.mp ⟨k, h⟩)
    exact ⟨tokens, htokens, hopen.imp_left (And.imp_right (map_symbol_eq_iff htokens).not.mp)⟩
  · rintro ⟨tokens, htokens, h⟩
    have hopen := opensEmpty_iff.mpr
      (h.imp_left (And.imp_right (map_symbol_eq_iff htokens).not.mpr))
    obtain ⟨k, hk⟩ := exists_error_iff_opensEmpty.mpr hopen
    exact ⟨k, parse_eq_openingEmptyGroup_iff.mpr ⟨tokens, htokens, hk⟩⟩

/-- If the scan passes, unbalanced parentheses are what is reported. -/
theorem exists_parse_eq_unmatchedParenthesis (htokens : tokenize p = .ok tokens)
    (hw : withoutEmptyGroups tokens = .ok w) (h : ¬ Balanced (meanings p)) :
    ∃ k, parse p = .error ⟨.unmatchedParenthesis, k⟩ := by
  have hp : p ≠ [] := by
    rintro rfl
    exact h balanced_nil
  obtain ⟨k, hk, -⟩ := ofTokens_of_not_balanced htokens hw h
  have hne : connectOperands w ≠ [] := fun hnil => by
    rw [hnil] at hk
    cases hk
  have hread := (readTokens_eq_ok_iff hp).mpr ⟨hne, tokens, w, htokens, hw, rfl⟩
  exact ⟨k, by rw [parse, hread]; exact hk⟩

/-- **When a pattern is rejected for an empty group.**  Either a front of it vanishes, and then it
begins with an opening parenthesis.  Or a group closes behind something that vanishes and a first
token that opens no group; its parentheses are unbalanced then, but this is not what is reported.
Other patterns with unbalanced parentheses are rejected for these. -/
theorem openingEmptyGroup_exact (p : List Char) :
    ((∃ k, parse p = .error ⟨.openingEmptyGroup, k⟩) ↔ ∃ tokens, tokenize p = .ok tokens ∧
      (FrontVanishes tokens ∧ p ≠ ['(', ')'] ∨ ClosesBehindFirst tokens)) ∧
    ∀ tokens, tokenize p = .ok tokens →
      (FrontVanishes tokens → ∃ t rest, tokens = t :: rest ∧ t.symbol = .opening) ∧
      (ClosesBehindFirst tokens → ¬ Balanced (meanings p)) ∧
      (¬ FrontVanishes tokens → ¬ ClosesBehindFirst tokens → ¬ Balanced (meanings p) →
        ∃ k, parse p = .error ⟨.unmatchedParenthesis, k⟩) := by
  refine ⟨exists_parse_eq_openingEmptyGroup_iff, fun tokens htokens =>
    ⟨FrontVanishes.exists_opening, fun h => ?_, fun hfront hbehind h => ?_⟩⟩
  · rw [Balanced, level_meanings htokens]
    exact h.not_balanced
  · have hopen : ¬ OpensEmpty tokens := fun hopen =>
      (opensEmpty_iff.mp hopen).elim (fun h => hfront h.1) hbehind
    exact exists_parse_eq_unmatchedParenthesis htokens
      (withoutEmptyGroups_eq_ok_iff.mpr ⟨hopen, rfl⟩) h

/-- `()a` opens with an empty group.  `a())` does not, and is rejected as if it did. -/
theorem openingEmptyGroup_exact_letter :
    (∃ k, parse ['(', ')', 'a'] = .error ⟨.openingEmptyGroup, k⟩) ∧
    (∃ k, parse ['a', '(', ')', ')'] = .error ⟨.openingEmptyGroup, k⟩) ∧
    ¬ Balanced (meanings ['a', '(', ')', ')']) := by
  have hpair : ∀ i j, ErasesTo [⟨.opening, i⟩, ⟨.closing, j⟩] [] := fun i j =>
    Relation.ReflTransGen.single (.pair [] [] ⟨rfl, rfl⟩)
  have hread : tokenize ['(', ')', 'a'] =
      .ok [⟨.opening, 0⟩, ⟨.closing, 1⟩, ⟨.literal 'a', 2⟩] := by cbv
  have hread' : tokenize ['a', '(', ')', ')'] =
      .ok [⟨.literal 'a', 0⟩, ⟨.opening, 1⟩, ⟨.closing, 2⟩, ⟨.closing, 3⟩] := by cbv
  have hbehind : ClosesBehindFirst
      [⟨.literal 'a', 0⟩, ⟨.opening, 1⟩, ⟨.closing, 2⟩, ⟨.closing, 3⟩] :=
    ⟨_, [⟨.opening, 1⟩, ⟨.closing, 2⟩], _, [], rfl, Symbol.noConfusion, List.cons_ne_nil _ _,
      hpair 1 2, rfl⟩
  obtain ⟨hiff, -⟩ := openingEmptyGroup_exact ['(', ')', 'a']
  obtain ⟨hiff', hcauses⟩ := openingEmptyGroup_exact ['a', '(', ')', ')']
  refine ⟨hiff.mpr ⟨_, hread, Or.inl ⟨⟨_, [⟨.literal 'a', 2⟩], rfl, List.cons_ne_nil _ _,
    hpair 0 1⟩, by decide⟩⟩, hiff'.mpr ⟨_, hread', Or.inr hbehind⟩, (hcauses _ hread').2.1 hbehind⟩

/-- `a())` is rejected for an empty group although it begins with a letter, so that nothing at its
front vanishes.  With one more letter its parentheses are blamed. -/
theorem openingEmptyGroup_behind_letter :
    (¬ ∀ p k tokens, parse p = .error ⟨.openingEmptyGroup, k⟩ → tokenize p = .ok tokens →
      FrontVanishes tokens ∧ ∃ t rest, tokens = t :: rest ∧ t.symbol = .opening) ∧
    parse ['a', '(', ')', ')'] = .error ⟨.openingEmptyGroup, 1⟩ ∧
    ∃ k, parse ['a', 'b', '(', ')', ')'] = .error ⟨.unmatchedParenthesis, k⟩ := by
  have hparse : parse ['a', '(', ')', ')'] = .error ⟨.openingEmptyGroup, 1⟩ := by cbv
  have hread : tokenize ['a', '(', ')', ')'] =
      .ok [⟨.literal 'a', 0⟩, ⟨.opening, 1⟩, ⟨.closing, 2⟩, ⟨.closing, 3⟩] := by cbv
  have hread' : tokenize ['a', 'b', '(', ')', ')'] = .ok [⟨.literal 'a', 0⟩, ⟨.literal 'b', 1⟩,
      ⟨.opening, 2⟩, ⟨.closing, 3⟩, ⟨.closing, 4⟩] := by cbv
  have herased : withoutEmptyGroups [⟨.literal 'a', 0⟩, ⟨.literal 'b', 1⟩, ⟨.opening, 2⟩,
      ⟨.closing, 3⟩, ⟨.closing, 4⟩] =
      .ok [⟨.literal 'a', 0⟩, ⟨.literal 'b', 1⟩, ⟨.closing, 4⟩] := by cbv
  refine ⟨fun h => ?_, hparse, exists_parse_eq_unmatchedParenthesis hread' herased (by decide)⟩
  obtain ⟨-, t, rest, hcons, hsymbol⟩ := h _ _ _ hparse hread
  cases hcons
  cases hsymbol

end PatternAutomata
