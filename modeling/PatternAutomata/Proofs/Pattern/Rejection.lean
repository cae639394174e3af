import PatternAutomata.Proofs.Pattern.BuildErrors
import PatternAutomata.Proofs.Pattern.EmptyGroupScan
import PatternAutomata.Proofs.Pattern.Place

/-!
# What a rejected pattern is blamed for

Every rejection names a cause and a position, and both can be checked on the characters of the
pattern (`Blames`), although they are found in tokens, after empty groups have been erased and
concatenation has been written out.  Whatever is left of the tokens stands in the pattern with the
same groups open on both sides (`Kept`).

What can be read, and is not empty without its empty groups, is rejected for two reasons only.

* Its parentheses are not balanced.  Then this is reported, at the leftmost of those without a
  partner, and no missing operand is (`ofTokens_of_not_balanced`).
* An operator lacks an operand (`ofTokens_of_balanced`).  Only an operator that was written is
  blamed.

Two causes never occur: a star is never followed by more of its scope, and symbols are never left
unconnected.
-/

namespace PatternAutomata

variable {p : List Char} {tokens w x y : List Token} {t : Token} {e : PatternError}

/-- What a rejection says about the characters of a pattern. -/
def Blames (p : List Char) : PatternError → Prop
  | ⟨.danglingBackslash, k⟩ => k + 1 = p.length ∧ p[k]? = some backslash
  | ⟨.needlessEscape c, k⟩ => ∃ j, k = j + 1 ∧ p[j]? = some backslash ∧ p[k]? = some c
  | ⟨.unmatchedParenthesis, k⟩ => IsLeast {i | Unmatched (meanings p) i} k
  | ⟨.onlyEmptyGroups, k⟩ => p = ['(', ')'] ∧ k = 0
  | ⟨.openingEmptyGroup, k⟩ => p[k]? = some '(' ∧ (meanings p)[k]? = some .opening
  | ⟨.missingOperand o, k⟩ => p[k]? = some o.char ∧ (meanings p)[k]? = some (.operator o)
  | ⟨.misplacedPostfix _, _⟩ | ⟨.unconnected, _⟩ => False

/-- Whatever is blamed is a character of the pattern. -/
theorem Blames.position_lt (h : Blames p e) : e.position < p.length := by
  obtain ⟨cause, k⟩ := e
  cases cause with
  | danglingBackslash => exact Nat.lt_of_succ_le h.1.le
  | needlessEscape c =>
    obtain ⟨j, rfl, -, hc⟩ := h
    exact (List.getElem?_eq_some_iff.mp hc).1
  | unmatchedParenthesis =>
    rw [← length_meanings p]
    exact h.1.lt_length
  | onlyEmptyGroups =>
    obtain ⟨rfl, rfl⟩ := h
    decide
  | openingEmptyGroup | missingOperand o => exact (List.getElem?_eq_some_iff.mp h.1).1
  | misplacedPostfix o => exact h.elim
  | unconnected => exact h.elim

/-! ## Patterns that cannot be read -/

theorem blames_of_tokenize_eq_error (h : tokenize p = .error e) : Blames p e := by
  obtain ⟨p₁, p₂, -, rfl, -, ⟨rfl, rfl⟩ | ⟨c, q, rfl, -, rfl⟩⟩ :=
    exists_of_tokenizeFrom_eq_error h
  · rw [Nat.zero_add]
    exact ⟨by simp, by simp⟩
  · rw [Nat.zero_add]
    exact ⟨p₁.length, rfl, by simp, by simp⟩

/-! ## Patterns that are empty, or open with something empty -/

theorem blames_of_withoutEmptyGroups_eq_error (htokens : tokenize p = .ok tokens)
    (h : withoutEmptyGroups tokens = .error e) : Blames p e := by
  obtain ⟨t, ht, hsymbol, rfl⟩ := exists_of_eraseEmptyGroups_eq_error h
  obtain ⟨c, htext, hc, hmeaning⟩ := getElem?_position htokens ht (by rw [hsymbol]; simp)
  rw [hsymbol] at htext hmeaning
  cases htext
  exact ⟨hc, hmeaning⟩

/-- Only `()` is read as an empty group and nothing else. -/
theorem map_symbol_eq_iff (htokens : tokenize p = .ok tokens) :
    tokens.map Token.symbol = [.opening, .closing] ↔ p = ['(', ')'] := by
  constructor
  · intro hsymbols
    obtain ⟨t, rest, rfl, ht, hrest⟩ := List.map_eq_cons_iff.mp hsymbols
    obtain ⟨s, rest, rfl, hs, hrest⟩ := List.map_eq_cons_iff.mp hrest
    obtain rfl := List.map_eq_nil_iff.mp hrest
    obtain ⟨-, q, rfl, hq⟩ := tokenizeFrom_eq_cons_iff.mp htokens
    obtain ⟨-, r, rfl, hr⟩ := tokenizeFrom_eq_cons_iff.mp hq
    rw [eq_nil_of_tokenizeFrom_eq_nil hr, ht, hs]
    rfl
  · rintro rfl
    have hread : tokenize ['(', ')'] = .ok [⟨.opening, 0⟩, ⟨.closing, 1⟩] := by cbv
    rw [hread] at htokens
    cases htokens
    rfl

/-- Only `()` is empty without its empty groups. -/
theorem eq_of_withoutEmptyGroups_eq_nil (hp : p ≠ []) (htokens : tokenize p = .ok tokens)
    (h : withoutEmptyGroups tokens = .ok []) : p = ['(', ')'] := by
  obtain ⟨hopen, hnil⟩ := withoutEmptyGroups_eq_ok_iff.mp h
  have hne : tokens ≠ [] := by
    rintro rfl
    exact hp (eq_nil_of_tokenizeFrom_eq_nil htokens)
  refine (map_symbol_eq_iff htokens).mp ?_
  by_contra hmore
  have hempty : NormalForm tokens [] := normalForm_nil_iff.mpr (erasesTo_nil_iff.mpr hnil.symm)
  have hopen' := OpensEmpty.beginning (v := []) hne hempty (by rwa [List.append_nil])
  rw [List.append_nil] at hopen'
  exact hopen hopen'

/-! ## Patterns that are read -/

/-- A token that is no literal stands in the text with the same groups open on both sides. -/
theorem Kept.exists_place (h : Kept tokens x t y) (htokens : tokenize p = .ok tokens)
    (ht : ∀ c, t.symbol ≠ .literal c) : ∃ u v, meanings p = u ++ t.symbol :: v ∧
      t.position = u.length ∧ (∀ d, level d u = level d (x.map Token.symbol)) ∧
      ∀ d, level d v = level d (y.map Token.symbol) := by
  obtain ⟨x', y', rfl, hx, hy⟩ := h
  obtain ⟨p₁, c, p₂, rfl, hposition, -, hmeanings, hx', hy'⟩ := exists_place htokens ht
  exact ⟨meanings p₁, meanings p₂, hmeanings, by rw [hposition, length_meanings],
    fun d => (hx' d).trans (hx d).symm, fun d => (hy' d).trans (hy d).symm⟩

/-- Whether the parentheses of a pattern are balanced can be seen from its prepared tokens. -/
theorem balanced_prepared (htokens : tokenize p = .ok tokens)
    (hw : withoutEmptyGroups tokens = .ok w) :
    Balanced ((connectOperands w).map Token.symbol) ↔ Balanced (meanings p) := by
  rw [Balanced, level_connectOperands, ← Balanced, balanced_withoutEmptyGroups hw, Balanced,
    ← level_meanings htokens]
  rfl

theorem slice_toArray_left (x y : List Token) :
    slice (x ++ y).toArray 0 x.length = x.map Token.symbol := by
  simp [slice]

theorem slice_toArray_right (x y : List Token) (t : Token) :
    slice (x ++ t :: y).toArray (x.length + 1) (x ++ t :: y).length = y.map Token.symbol := by
  rw [slice, List.take_length, ← List.singleton_append, ← List.append_assoc, List.drop_left']
  simp

/-- **Unbalanced parentheses are reported at the leftmost one without a partner**, whatever else is
wrong with a pattern. -/
theorem ofTokens_of_not_balanced (htokens : tokenize p = .ok tokens)
    (hw : withoutEmptyGroups tokens = .ok w) (h : ¬ Balanced (meanings p)) :
    ∃ k, SyntaxTree.ofTokens (connectOperands w) = .error ⟨.unmatchedParenthesis, k⟩ ∧
      IsLeast {i | Unmatched (meanings p) i} k := by
  rw [← balanced_prepared htokens hw] at h
  have hne : connectOperands w ≠ [] := fun hnil => h (by rw [hnil]; exact balanced_nil)
  rw [← slice_toArray] at h
  obtain ⟨k, t, -, hk, ht, hbreaks, hbuild⟩ :=
    build_eq_error_of_not_balanced (Nat.zero_le _) List.size_toArray.ge h
  rw [List.getElem?_toArray] at ht
  obtain ⟨x, y, hcut, rfl⟩ := exists_append_of_getElem? ht
  rw [hcut, slice_toArray_left, slice_toArray_right] at hbreaks
  -- a parenthesis was not put in, so it stands in the pattern
  have hkept : Kept w x t y := (kept_or_betweenOperands hcut).resolve_right fun hinserted => by
    rcases hbreaks.2 with hsymbol | ⟨hsymbol, -⟩ <;>
      exact Symbol.noConfusion (hinserted.1.symm.trans hsymbol)
  obtain ⟨u, v, hmeanings, hposition, hu, hv⟩ :=
    (hkept.of_erasesTo (erasesTo_of_eraseEmptyGroups hw)).exists_place htokens hbreaks.ne_literal
  refine ⟨t.position, ofTokens_eq_error_iff.mpr ⟨hne, _, hbuild, rfl⟩, ?_⟩
  rw [hmeanings, hposition]
  exact isLeast_unmatched (hbreaks.congr hu hv)

/-- **In a pattern with balanced parentheses an operator that was written lacks an operand.** -/
theorem ofTokens_of_balanced (htokens : tokenize p = .ok tokens)
    (hw : withoutEmptyGroups tokens = .ok w) (h : Balanced (meanings p))
    (herror : SyntaxTree.ofTokens (connectOperands w) = .error e) :
    ∃ o, e.cause = .missingOperand o ∧ p[e.position]? = some o.char ∧
      (meanings p)[e.position]? = some (.operator o) := by
  rw [← balanced_prepared htokens hw, ← slice_toArray] at h
  obtain ⟨hne, e', hbuild, rfl⟩ := ofTokens_eq_error_iff.mp herror
  have hclean : Clean w := clean_iff.mpr (normalForm_of_withoutEmptyGroups hw).finished
  have htidy := tidy_connectOperands hclean
  rw [← slice_toArray] at htidy
  obtain ⟨k, t, o, ht, ho, hside, rfl⟩ := blamedOperator_of_build_eq_error
    (List.length_pos_iff.mpr hne) List.size_toArray.ge htidy h
    (fun j s hj => (by omega)) (fun s hs => (by simp at hs)) hbuild
  rw [List.getElem?_toArray] at ht
  obtain ⟨x, y, hcut, rfl⟩ := exists_append_of_getElem? ht
  have hkept : Kept w x t y := (kept_or_betweenOperands hcut).resolve_right fun hinserted => by
    -- the operands next to it would be there
    obtain ⟨-, x', l, r, y', rfl, rfl, hl, hr⟩ := hinserted
    rcases hside with hbefore | hbehind
    · have hnone := hbefore x'.length l (by simp) (by rw [hcut]; simp)
      rw [hl] at hnone
      cases hnone
    · have hnone := hbehind r (by
        rw [List.getElem?_toArray, hcut, List.getElem?_append_right (by omega)]
        simp)
      rw [hr] at hnone
      cases hnone
  obtain ⟨x', y', rfl, -⟩ := hkept.of_erasesTo (erasesTo_of_eraseEmptyGroups hw)
  obtain ⟨c, htext, hc, hmeaning⟩ := getElem?_position htokens
    (List.mem_append_right x' List.mem_cons_self) (by rw [ho]; simp)
  rw [ho] at htext hmeaning
  cases htext
  exact ⟨o, rfl, hc, hmeaning⟩

/-! ## All rejections -/

theorem blames_of_parse_eq_error (h : parse p = .error e) : Blames p e := by
  have hp : p ≠ [] := by
    rintro rfl
    cases h
  rw [parse] at h
  cases hread : readTokens p with
  | error e' =>
    rw [hread] at h
    cases h
    rcases (readTokens_eq_error_iff hp).mp hread with h | ⟨tokens, htokens, h | ⟨h, rfl⟩⟩
    · exact blames_of_tokenize_eq_error h
    · exact blames_of_withoutEmptyGroups_eq_error htokens h
    · exact ⟨eq_of_withoutEmptyGroups_eq_nil hp htokens h, rfl⟩
  | ok prepared =>
    rw [hread] at h
    obtain ⟨-, tokens, w, htokens, hw, rfl⟩ := (readTokens_eq_ok_iff hp).mp hread
    by_cases hbalanced : Balanced (meanings p)
    · obtain ⟨cause, k⟩ := e
      obtain ⟨o, rfl, hblame⟩ := ofTokens_of_balanced htokens hw hbalanced h
      exact hblame
    · obtain ⟨k, hk, hleast⟩ := ofTokens_of_not_balanced htokens hw hbalanced
      rw [show SyntaxTree.ofTokens (connectOperands w) = .error e from h] at hk
      cases hk
      exact hleast

/-- **Rejections are classified by the pattern.**  What a rejection blames is a character of the
pattern, and the one that its cause speaks of.  Only `()` is rejected for being empty.  Whatever can
be read, and is not empty without its empty groups, is rejected because of the leftmost parenthesis
without a partner exactly if there is one, and otherwise only because of an operator that lacks an
operand. -/
theorem parse_rejections (p : List Char) :
    (∀ e, parse p = .error e → Blames p e ∧ e.position < p.length) ∧
    ((∃ k, parse p = .error ⟨.onlyEmptyGroups, k⟩) ↔ p = ['(', ')']) ∧
    ∀ prepared, prepared ≠ [] → readTokens p = .ok prepared →
      ((∃ k, parse p = .error ⟨.unmatchedParenthesis, k⟩) ↔ ¬ Balanced (meanings p)) ∧
      (Balanced (meanings p) → ∀ e, parse p = .error e → ∃ o, e.cause = .missingOperand o) := by
  refine ⟨fun e h => ?_, ⟨?_, ?_⟩, fun prepared hne hread => ?_⟩
  · have hblames := blames_of_parse_eq_error h
    exact ⟨hblames, hblames.position_lt⟩
  · rintro ⟨k, h⟩
    exact (blames_of_parse_eq_error h).1
  · rintro rfl
    exact ⟨0, by cbv⟩
  · have hp : p ≠ [] := by
      rintro rfl
      exact hne (Except.ok.inj hread).symm
    obtain ⟨-, tokens, w, htokens, hw, rfl⟩ := (readTokens_eq_ok_iff hp).mp hread
    have hparse : parse p = SyntaxTree.ofTokens (connectOperands w) := by rw [parse, hread]
    rw [hparse]
    refine ⟨⟨?_, fun hunbalanced => ?_⟩, fun hbalanced e h => ?_⟩
    · rintro ⟨k, h⟩ hbalanced
      obtain ⟨o, ho, -⟩ := ofTokens_of_balanced htokens hw hbalanced h
      cases ho
    · obtain ⟨k, hk, -⟩ := ofTokens_of_not_balanced htokens hw hunbalanced
      exact ⟨k, hk⟩
    · obtain ⟨o, ho, -⟩ := ofTokens_of_balanced htokens hw hbalanced h
      exact ⟨o, ho⟩

/-- In `a|*)(b` the star lacks an operand, but its parentheses are blamed.  In `a|` only an operand is
missing. -/
theorem parse_rejections_unmatched :
    (∃ k, parse ['a', '|', '*', ')', '(', 'b'] = .error ⟨.unmatchedParenthesis, k⟩ ∧ k < 6 ∧
      IsLeast {i | Unmatched (meanings ['a', '|', '*', ')', '(', 'b']) i} k) ∧
    ∃ o k, parse ['a', '|'] = .error ⟨.missingOperand o, k⟩ ∧ k < 2 ∧
      ['a', '|'][k]? = some o.char := by
  constructor
  · have hread : readTokens ['a', '|', '*', ')', '(', 'b'] =
        .ok [⟨.literal 'a', 0⟩, ⟨.operator .union, 1⟩, ⟨.operator .star, 2⟩, ⟨.closing, 3⟩,
          ⟨.operator .concatenation, 4⟩, ⟨.opening, 4⟩, ⟨.literal 'b', 5⟩] := by cbv
    obtain ⟨hblames, -, hprepared⟩ := parse_rejections ['a', '|', '*', ')', '(', 'b']
    obtain ⟨k, hk⟩ := (hprepared _ (List.cons_ne_nil _ _) hread).1.mpr (by decide)
    exact ⟨k, hk, (hblames _ hk).2, (hblames _ hk).1⟩
  · have hread : readTokens ['a', '|'] = .ok [⟨.literal 'a', 0⟩, ⟨.operator .union, 1⟩] := by cbv
    obtain ⟨hblames, -, hprepared⟩ := parse_rejections ['a', '|']
    cases h : parse ['a', '|'] with
    | ok t =>
      rw [parse, hread] at h
      cases ((ofTokens_eq_ok_iff (List.cons_ne_nil _ _) t).mp h).operandDue_eq
    | error e =>
      obtain ⟨cause, k⟩ := e
      obtain ⟨o, rfl⟩ := (hprepared _ (List.cons_ne_nil _ _) hread).2 (by decide) _ h
      exact ⟨o, k, rfl, (hblames _ h).2, (hblames _ h).1.1⟩

end PatternAutomata
