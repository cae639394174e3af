import PatternAutomata.Proofs.Pattern.EmptyGroupScan
import PatternAutomata.Proofs.Pattern.Positions
import PatternAutomata.Proofs.Pattern.Spelling
import PatternAutomata.Proofs.Pattern.Tidy

/-!
# Prepared patterns are patterns

Preparing tokens erases the empty groups among them and writes concatenation out.  Neither of the
two passes gives the other one more to do: what is put between two operands is no parenthesis.  What
is left is tidy, so preparing it once more changes nothing (`prepare_of_tidy`).

So the prepared tokens of a pattern can be written as a pattern that means the same.  Reading what
is written yields the same symbols, which are prepared already.  They are at other positions, but
this changes no more than the position that an error reports (`mapError_cause_ofTokens`).
-/

namespace PatternAutomata

variable {tokens prepared w v : List Token} {previous : Token} {p : List Char}

/-! ## Preparing twice -/

/-- Concatenations are put into tokens, each of them at the position of the token behind it. -/
inductive Connects : List Token → List Token → Prop where
  | nil : Connects [] []
  | keep {w v : List Token} (t : Token) (h : Connects w v) : Connects (t :: w) (t :: v)
  | insert {w v : List Token} (t : Token) (h : Connects w v) :
      Connects (t :: w) (⟨.operator .concatenation, t.position⟩ :: t :: v)

theorem connects_connectOperandsAfter (previous : Token) (tokens : List Token) :
    Connects tokens (connectOperandsAfter previous tokens) := by
  induction tokens generalizing previous with
  | nil => exact .nil
  | cons t rest ih =>
    rw [connectOperandsAfter]
    split
    · exact .insert t (ih t)
    · exact .keep t (ih t)

theorem connects_connectOperands (tokens : List Token) :
    Connects tokens (connectOperands tokens) := by
  cases tokens with
  | nil => exact .nil
  | cons t rest => exact .keep t (connects_connectOperandsAfter t rest)

/-- Nothing is missing in tidy tokens. -/
theorem connectOperandsAfter_of_tidy (h : Tidy (previous.symbol :: tokens.map Token.symbol)) :
    connectOperandsAfter previous tokens = tokens := by
  induction tokens generalizing previous with
  | nil => rfl
  | cons t rest ih =>
    obtain ⟨hpair, hrest⟩ := List.isChain_cons_cons.mp h
    rw [connectOperandsAfter, if_neg (by simpa using hpair.1), ih hrest]

theorem connectOperands_of_tidy (h : Tidy (tokens.map Token.symbol)) :
    connectOperands tokens = tokens := by
  cases tokens with
  | nil => rfl
  | cons t rest => rw [connectOperands_cons, connectOperandsAfter_of_tidy h]

theorem clean_of_tidy (h : Tidy (tokens.map Token.symbol)) : Clean tokens :=
  (List.isChain_map _ |>.mp h).imp fun _ _ hpair => hpair.2

/-- Where there are no empty groups, nothing empty stands anywhere. -/
theorem Clean.not_opensEmpty (h : Clean w) : ¬ OpensEmpty w := by
  have hvanish : ∀ {u : List Token}, Clean u → u ≠ [] → ¬ NormalForm u [] := by
    intro u hu hne hempty
    rw [normalForm_nil_iff, erasesTo_nil_iff, remainder_of_clean hu] at hempty
    exact hne hempty
  intro hopen
  cases hopen with
  | beginning hne hempty _ => exact hvanish h.left_of_append hne hempty
  | behindFirst _ hne hempty _ => exact hvanish h.tail.left_of_append hne hempty

/-- **Tidy tokens are prepared already.** -/
theorem prepare_of_tidy (h : Tidy (tokens.map Token.symbol)) : prepare tokens = .ok tokens := by
  have hclean := clean_of_tidy h
  have herased : withoutEmptyGroups tokens = .ok tokens :=
    withoutEmptyGroups_eq_ok_iff.mpr ⟨hclean.not_opensEmpty, (remainder_of_clean hclean).symm⟩
  rw [prepare, herased]
  exact congrArg Except.ok (connectOperands_of_tidy h)

theorem exists_of_prepare (h : prepare tokens = .ok prepared) :
    ∃ w, withoutEmptyGroups tokens = .ok w ∧ connectOperands w = prepared :=
  exists_of_map_eq_ok h

theorem tidy_of_prepare (h : prepare tokens = .ok prepared) :
    Tidy (prepared.map Token.symbol) := by
  obtain ⟨w, hw, rfl⟩ := exists_of_prepare h
  exact tidy_connectOperands (clean_iff.mpr (normalForm_of_withoutEmptyGroups hw).finished)

/-! ## Writing prepared tokens -/

theorem parse_of_prepare (htokens : tokenize p = .ok tokens) (h : prepare tokens = .ok prepared)
    (hne : prepared ≠ []) : parse p = SyntaxTree.ofTokens prepared := by
  obtain ⟨w, hw, rfl⟩ := exists_of_prepare h
  have hp : p ≠ [] := by
    rintro rfl
    cases htokens
    cases (eraseEmptyGroups_nil []).symm.trans hw
    exact hne rfl
  have hread := (readTokens_eq_ok_iff hp).mpr ⟨hne, tokens, w, htokens, hw, rfl⟩
  rw [parse, hread]

/-- **Prepared tokens are written as a pattern that means the same.** -/
theorem mapError_cause_parse_spell (htokens : tokenize p = .ok tokens)
    (h : prepare tokens = .ok prepared) (hne : prepared ≠ []) :
    (parse (Token.spell prepared)).mapError PatternError.cause =
      (parse p).mapError PatternError.cause := by
  obtain ⟨placed, hplaced, hsymbols⟩ := exists_tokenizeFrom_spell prepared 0
  have htidy : Tidy (placed.map Token.symbol) := by
    rw [hsymbols]
    exact tidy_of_prepare h
  have hne' : placed ≠ [] := by
    rintro rfl
    exact hne (List.map_eq_nil_iff.mp hsymbols.symm)
  calc (parse (Token.spell prepared)).mapError PatternError.cause
    _ = (SyntaxTree.ofTokens placed).mapError PatternError.cause := by
      rw [parse_of_prepare hplaced (prepare_of_tidy htidy) hne']
    _ = (SyntaxTree.ofTokens prepared).mapError PatternError.cause :=
      mapError_cause_ofTokens hsymbols
    _ = (parse p).mapError PatternError.cause := by rw [parse_of_prepare htokens h hne]

theorem endsOperand_iff {s : Symbol} : s.endsOperand = true ↔
    (∃ c, s = .literal c) ∨ s = .operator .star ∨ s = .closing := by
  rcases s with c | (_ | _ | _) | _ | _ <;> simp [Symbol.endsOperand, Symbol.isBinaryOperator,
    Symbol.isOpening, Operator.isBinary, Operator.arity]

theorem beginsOperand_iff {s : Symbol} : s.beginsOperand = true ↔
    (∃ c, s = .literal c) ∨ s = .opening := by
  rcases s with c | (_ | _ | _) | _ | _ <;> simp [Symbol.beginsOperand, Symbol.isOperator,
    Symbol.isClosing]

/-- **Preparing reaches a normal form that can be read back.**  In prepared tokens there is no empty
group, and no operand begins right behind another one.  They are what is left of the tokens without
empty groups, with concatenations put in, each at the position of the token behind it, and preparing
them again changes nothing.  Written as a pattern they have the tree of the pattern they come from,
or are rejected for the same cause. -/
theorem prepare_reads_back :
    (∀ tokens prepared, prepare tokens = .ok prepared →
      (∀ x s t y, prepared = x ++ s :: t :: y →
        ¬ (s.symbol = .opening ∧ t.symbol = .closing) ∧
        ¬ (((∃ c, s.symbol = .literal c) ∨ s.symbol = .operator .star ∨ s.symbol = .closing) ∧
          ((∃ c, t.symbol = .literal c) ∨ t.symbol = .opening))) ∧
      (∃ w, withoutEmptyGroups tokens = .ok w ∧ NormalForm tokens w ∧ Connects w prepared) ∧
      prepare prepared = .ok prepared) ∧
    ∀ p tokens prepared, tokenize p = .ok tokens → prepare tokens = .ok prepared →
      prepared ≠ [] → (parse (Token.spell prepared)).mapError PatternError.cause =
        (parse p).mapError PatternError.cause := by
  refine ⟨fun tokens prepared h => ⟨?_, ?_, prepare_of_tidy (tidy_of_prepare h)⟩,
    fun p tokens prepared htokens h hne => mapError_cause_parse_spell htokens h hne⟩
  · rintro x s t y rfl
    have htidy := tidy_of_prepare h
    rw [List.map_append, List.map_cons, List.map_cons] at htidy
    obtain ⟨hoperands, hgroup⟩ := (List.isChain_append_cons_cons.mp htidy).2.1
    rw [endsOperand_iff, beginsOperand_iff] at hoperands
    exact ⟨hgroup, hoperands⟩
  · obtain ⟨w, hw, rfl⟩ := exists_of_prepare h
    exact ⟨w, hw, normalForm_of_withoutEmptyGroups hw, connects_connectOperands w⟩

/-- The pattern `a()(b*)` is prepared as `a·(b*)`, and `a()|` as `a|`, where the same operand is
missing. -/
theorem prepare_reads_back_inserted :
    (parse ['a', '·', '(', 'b', '*', ')']).mapError PatternError.cause =
      (parse ['a', '(', ')', '(', 'b', '*', ')']).mapError PatternError.cause ∧
    (parse ['a', '|']).mapError PatternError.cause =
      (parse ['a', '(', ')', '|']).mapError PatternError.cause ∧
    ∃ prepared, prepare [⟨.literal 'a', 0⟩, ⟨.opening, 1⟩, ⟨.closing, 2⟩, ⟨.literal 'b', 3⟩] =
      .ok prepared ∧ prepare prepared = .ok prepared := by
  obtain ⟨hprepared, hparse⟩ := prepare_reads_back
  refine ⟨?_, ?_, ?_⟩
  · exact hparse ['a', '(', ')', '(', 'b', '*', ')'] _
      [⟨.literal 'a', 0⟩, ⟨.operator .concatenation, 3⟩, ⟨.opening, 3⟩, ⟨.literal 'b', 4⟩,
        ⟨.operator .star, 5⟩, ⟨.closing, 6⟩] rfl (by cbv) (List.cons_ne_nil _ _)
  · exact hparse ['a', '(', ')', '|'] _ [⟨.literal 'a', 0⟩, ⟨.operator .union, 3⟩] rfl (by cbv)
      (List.cons_ne_nil _ _)
  · have h : prepare [⟨.literal 'a', 0⟩, ⟨.opening, 1⟩, ⟨.closing, 2⟩, ⟨.literal 'b', 3⟩] =
        .ok [⟨.literal 'a', 0⟩, ⟨.operator .concatenation, 3⟩, ⟨.literal 'b', 3⟩] := by cbv
    exact ⟨_, h, (hprepared _ _ h).2.2⟩

end PatternAutomata
