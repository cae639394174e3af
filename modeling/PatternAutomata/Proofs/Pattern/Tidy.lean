import PatternAutomata.Proofs.Pattern.Concatenation
import PatternAutomata.Proofs.Pattern.Erasure
import PatternAutomata.Proofs.Pattern.Parentheses

/-!
# What the tree builder is given

Once empty groups are erased and concatenation is written out, no operand begins right behind
another one, and no group is empty (`tidy_connectOperands`).  Of such symbols the builder never has
to say that two of them are not connected.  Behind a star, or behind all that it takes for an operand,
nothing is left but a closing parenthesis or an operator (`Tidy.eq_nil_of_endsOperand`).

A token of the result was written in the pattern, with the same groups open on both sides, or it is a
concatenation between two operands (`kept_or_betweenOperands`).
-/

namespace PatternAutomata

variable {u v w : List Symbol} {s : Symbol} {tokens x y : List Token} {previous t : Token}

/-- No operand begins right behind another one, and no group is empty. -/
def Tidy (w : List Symbol) : Prop :=
  w.IsChain fun x y =>
    ¬ (x.endsOperand = true ∧ y.beginsOperand = true) ∧ ¬ (x = .opening ∧ y = .closing)

/-- An operator ends an operand if it stands behind its only one. -/
theorem endsOperand_operator (o : Operator) : (Symbol.operator o).endsOperand = o.isUnary := by
  cases o <;> rfl

/-! ## Prepared tokens -/

theorem tidy_connectOperandsAfter (h : Clean (previous :: tokens)) :
    Tidy (previous.symbol :: (connectOperandsAfter previous tokens).map Token.symbol) := by
  induction tokens generalizing previous with
  | nil => exact List.isChain_singleton _
  | cons t rest ih =>
    obtain ⟨hpair, hrest⟩ := List.isChain_cons_cons.mp h
    by_cases hmissing : previous.symbol.endsOperand = true ∧ t.symbol.beginsOperand = true
    · rw [connectOperandsAfter_cons_of_missing hmissing.1 hmissing.2, connectOperands_cons]
      refine List.isChain_cons_cons.mpr ⟨?_, List.isChain_cons_cons.mpr ⟨?_, ih hrest⟩⟩
      · exact ⟨fun h => Bool.noConfusion h.2, fun h => Symbol.noConfusion h.2⟩
      · exact ⟨fun h => Bool.noConfusion h.1, fun h => Symbol.noConfusion h.1⟩
    · rw [connectOperandsAfter, if_neg (by simpa using hmissing)]
      exact List.isChain_cons_cons.mpr ⟨⟨hmissing, hpair⟩, ih hrest⟩

/-- **Prepared tokens are tidy.** -/
theorem tidy_connectOperands (h : Clean tokens) :
    Tidy ((connectOperands tokens).map Token.symbol) := by
  cases tokens with
  | nil => exact List.isChain_nil
  | cons t rest => exact tidy_connectOperandsAfter h

/-- A token stands among others with the same groups open before it and behind it as between two
lists. -/
def Kept (tokens x : List Token) (t : Token) (y : List Token) : Prop :=
  ∃ x' y', tokens = x' ++ t :: y' ∧
    (∀ d, level d (x.map Token.symbol) = level d (x'.map Token.symbol)) ∧
    ∀ d, level d (y.map Token.symbol) = level d (y'.map Token.symbol)

/-- An operand ends before a place between two lists, and one begins behind it. -/
def BetweenOperands (x y : List Token) : Prop :=
  ∃ x' l r y', x = x' ++ [l] ∧ y = r :: y' ∧
    l.symbol.endsOperand = true ∧ r.symbol.beginsOperand = true

/-- Erasing empty groups keeps the tokens that are left. -/
theorem Kept.of_erasesTo {w : List Token} (h : Kept w x t y) (hw : ErasesTo tokens w) :
    Kept tokens x t y := by
  obtain ⟨x', y', rfl, hx, hy⟩ := h
  obtain ⟨x'', y'', rfl, hx', hy'⟩ := exists_of_erasesTo_append_cons hw
  exact ⟨x'', y'', rfl, fun d => (hx d).trans (hx'.level_eq d).symm,
    fun d => (hy d).trans (hy'.level_eq d).symm⟩

theorem Kept.cons (h : Kept tokens x t y) (u : Token) : Kept (u :: tokens) (u :: x) t y := by
  obtain ⟨x', y', rfl, hx, hy⟩ := h
  exact ⟨u :: x', y', rfl, level_cons_congr hx u.symbol, hy⟩

/-- An operator opens and closes nothing. -/
theorem Kept.cons_operator {o : Operator} {k : Nat} (h : Kept tokens x t y) :
    Kept tokens (⟨.operator o, k⟩ :: x) t y := by
  obtain ⟨x', y', rfl, hx, hy⟩ := h
  exact ⟨x', y', rfl, fun d => (level_operator d o _).trans (hx d), hy⟩

theorem BetweenOperands.cons (h : BetweenOperands x y) (u : Token) :
    BetweenOperands (u :: x) y := by
  obtain ⟨x', l, r, y', rfl, hr⟩ := h
  exact ⟨u :: x', l, r, y', rfl, hr⟩

/-- **A prepared token was written, or it was put between two operands.** -/
theorem kept_or_betweenOperands (h : connectOperands tokens = x ++ t :: y) :
    Kept tokens x t y ∨ (t.symbol = .operator .concatenation ∧ BetweenOperands x y) := by
  induction tokens generalizing x with
  | nil => simp [connectOperands] at h
  | cons u rest ih =>
    rw [connectOperands_cons] at h
    rcases List.cons_eq_append_iff.mp h with ⟨rfl, hrest⟩ | ⟨x, rfl, hrest⟩
    · cases hrest
      exact Or.inl ⟨[], rest, rfl, fun _ => rfl, level_connectOperandsAfter t rest⟩
    · rcases rest with _ | ⟨r, rest⟩
      · simp [connectOperandsAfter] at hrest
      by_cases hmissing : u.symbol.endsOperand = true ∧ r.symbol.beginsOperand = true
      · rw [connectOperandsAfter_cons_of_missing hmissing.1 hmissing.2] at hrest
        rcases List.cons_eq_append_iff.mp hrest with ⟨rfl, hbehind⟩ | ⟨x, rfl, hbehind⟩
        · cases hbehind
          exact Or.inr ⟨rfl, [], u, r, _, rfl, rfl, hmissing⟩
        · exact (ih hbehind).imp (fun h => h.cons_operator.cons u)
            fun h => ⟨h.1, (h.2.cons _).cons u⟩
      · rw [connectOperandsAfter, if_neg (by simpa using hmissing)] at hrest
        exact (ih hrest).imp (fun h => h.cons u) fun h => ⟨h.1, h.2.cons u⟩

/-! ## Ranges without operators -/

/-- **Nothing follows the end of an operand** in tidy symbols without operators behind it. -/
theorem Tidy.eq_nil_of_endsOperand (h : Tidy (u ++ s :: v)) (hb : Balanced (u ++ s :: v))
    (hu : Balanced (u ++ [s])) (hs : s.endsOperand = true) (hnone : ∀ o, NoneAtTop o v) : v = [] := by
  rcases v with _ | ⟨r, v⟩
  · rfl
  have hr : r.beginsOperand ≠ true := fun hr =>
    (List.isChain_append_cons_cons.mp h).2.1.1 ⟨hs, hr⟩
  rw [← List.singleton_append, ← List.append_assoc, balanced_append_iff hu] at hb
  cases r with
  | literal c | opening => exact absurd rfl hr
  | operator o => exact absurd balanced_nil (hnone o [] v rfl)
  | closing => exact absurd rfl hb.head_ne

/-- What is left without an operator and is no group is a literal. -/
theorem Tidy.exists_literal (h : Tidy w) (hb : Balanced w) (hne : w ≠ [])
    (hnone : ∀ o, NoneAtTop o w) (hgroup : ∀ u, Balanced u → w ≠ .opening :: u ++ [.closing]) :
    ∃ c, w = [.literal c] := by
  rcases w with _ | ⟨s, w⟩
  · exact absurd rfl hne
  have hafter : ∀ {u v : List Symbol}, Balanced u → s :: w = u ++ v → ∀ o, NoneAtTop o v :=
    fun hu hcut o => ((noneAtTop_append hu).mp (hcut ▸ hnone o)).2
  cases s with
  | closing => exact absurd rfl hb.head_ne
  | operator o => exact absurd balanced_nil (hnone o [] w rfl)
  | literal c =>
    have hw : w = [] := h.eq_nil_of_endsOperand (u := []) hb (balanced_literal c) rfl
      (hafter (balanced_literal c) rfl)
    exact ⟨c, by rw [hw]⟩
  | opening =>
    obtain ⟨y, z, rfl, hy⟩ := exists_closing hb
    have hz : z = [] := Tidy.eq_nil_of_endsOperand (u := .opening :: y) h hb (balanced_group hy) rfl
      (hafter (balanced_group hy) (by simp))
    exact absurd (by rw [hz]; rfl) (hgroup y hy)

end PatternAutomata
