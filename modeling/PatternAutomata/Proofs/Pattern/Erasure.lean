import Mathlib.Data.List.Chain
import Mathlib.Logic.Relation
import PatternAutomata.Proofs.Pattern.Grammar

/-!
# What is left when empty groups are erased

An empty group can be erased wherever it stands (`Erases`).  Erasing on and on ends with tokens that
hold no empty group any more, the `NormalForm` of the first ones.  There is one of them only,
whatever is erased first: folding the tokens from the right, each cancelled against a closing
parenthesis behind it, computes it (`remainder`), and no erasure changes the result
(`existsUnique_normalForm`).

Erasing takes tokens away and moves none.  So what stands on both sides of a token that is left
comes from what stood on both sides of it before (`exists_of_erasesTo_append_cons`).  Tokens of
which nothing is left are empty groups nested in each other or following each other
(`nested_of_erasesTo`).
-/

namespace PatternAutomata

open Relation (ReflTransGen)

/-- Two tokens that are an empty group. -/
abbrev EmptyPair (t u : Token) : Prop := t.symbol = .opening ∧ u.symbol = .closing

/-- One empty group is erased. -/
inductive Erases : List Token → List Token → Prop where
  | pair (before after : List Token) {t u : Token} (h : EmptyPair t u) :
      Erases (before ++ t :: u :: after) (before ++ after)

/-- Any number of empty groups are erased, one after the other. -/
def ErasesTo : List Token → List Token → Prop := ReflTransGen Erases

/-- What is left of tokens when empty groups are erased until there are none. -/
structure NormalForm (w n : List Token) : Prop where
  erased : ErasesTo w n
  finished : ∀ v, ¬ Erases n v

variable {w w' n u v x y before after rest : List Token} {b c t s : Token}

/-! ## Erasing in a context -/

theorem Erases.append_left (x : List Token) (h : Erases u v) : Erases (x ++ u) (x ++ v) := by
  cases h with
  | pair before after h =>
    rw [← List.append_assoc, ← List.append_assoc]
    exact .pair (x ++ before) after h

theorem Erases.append_right (x : List Token) (h : Erases u v) : Erases (u ++ x) (v ++ x) := by
  cases h with
  | pair before after h =>
    rw [List.append_assoc, List.append_assoc]
    exact .pair before (after ++ x) h

namespace ErasesTo

theorem refl (w : List Token) : ErasesTo w w := ReflTransGen.refl

theorem append (hu : ErasesTo u x) (hv : ErasesTo v y) : ErasesTo (u ++ v) (x ++ y) :=
  ReflTransGen.trans (ReflTransGen.lift (· ++ v) (fun _ _ h => Erases.append_right v h) u x hu)
    (ReflTransGen.lift (x ++ ·) (fun _ _ h => Erases.append_left x h) v y hv)

theorem trans (hu : ErasesTo u v) (hv : ErasesTo v w) : ErasesTo u w := ReflTransGen.trans hu hv

theorem cons (t : Token) (h : ErasesTo u v) : ErasesTo (t :: u) (t :: v) := (refl [t]).append h

/-- The tokens that are left keep their order and their positions. -/
theorem sublist (h : ErasesTo w v) : v.Sublist w := by
  induction h with
  | refl => exact List.Sublist.refl w
  | tail _ hstep ih =>
    cases hstep with
    | pair before after h =>
      refine List.Sublist.trans ?_ ih
      exact (List.Sublist.refl before).append ((List.sublist_cons_self _ _).trans
        (List.sublist_cons_self _ _))

/-- What is erased around an empty group may be erased before it. -/
theorem of_pair (h : EmptyPair t s) (hw : ErasesTo (before ++ after) v) :
    ErasesTo (before ++ t :: s :: after) v :=
  ReflTransGen.head (.pair before after h) hw

end ErasesTo

/-- **A token that is left was there before**, with what is erased on both sides of it. -/
theorem exists_of_erasesTo_append_cons (h : ErasesTo w (x ++ t :: y)) :
    ∃ x' y', w = x' ++ t :: y' ∧ ErasesTo x' x ∧ ErasesTo y' y := by
  induction h using ReflTransGen.head_induction_on with
  | refl => exact ⟨x, y, rfl, .refl x, .refl y⟩
  | head hstep _ ih =>
    obtain ⟨x', y', hw, hx, hy⟩ := ih
    cases hstep with
    | pair before after hpair =>
      rcases List.append_eq_append_iff.mp hw with ⟨z, rfl, rfl⟩ | ⟨z, rfl, hz⟩
      · -- the group stood before the token
        exact ⟨before ++ _ :: _ :: z, y', by simp, hx.of_pair hpair, hy⟩
      · rcases List.cons_eq_append_iff.mp hz with ⟨rfl, rfl⟩ | ⟨z, rfl, rfl⟩
        · -- right before it
          exact ⟨x' ++ [_, _], y', by simp, .of_pair hpair (by rwa [List.append_nil]), hy⟩
        · -- behind it
          exact ⟨x', z ++ _ :: _ :: after, by simp, hx, hy.of_pair hpair⟩

/-- What is left can be cut, and so could what was there before. -/
theorem exists_of_erasesTo_append (h : ErasesTo w (x ++ y)) :
    ∃ x' y', w = x' ++ y' ∧ ErasesTo x' x ∧ ErasesTo y' y := by
  rcases y with _ | ⟨t, y⟩
  · exact ⟨w, [], (List.append_nil w).symm, by rwa [List.append_nil] at h, .refl []⟩
  · obtain ⟨x', y', rfl, hx, hy⟩ := exists_of_erasesTo_append_cons h
    exact ⟨x', t :: y', rfl, hx, hy.cons t⟩

/-! ## Normal forms -/

/-- A token before tokens without empty groups: an opening parenthesis is cancelled against a
closing one behind it. -/
def cancel (t : Token) : List Token → List Token
  | [] => [t]
  | u :: w => if EmptyPair t u then w else t :: u :: w

/-- The tokens that are left when every empty group is erased. -/
def remainder (w : List Token) : List Token := w.foldr cancel []

theorem remainder_cons (t : Token) (w : List Token) :
    remainder (t :: w) = cancel t (remainder w) := rfl

theorem remainder_append (u v : List Token) : remainder (u ++ v) = u.foldr cancel (remainder v) :=
  List.foldr_append

/-- Erasing an empty group does not change what is left. -/
theorem remainder_append_pair (h : EmptyPair t s) (before after : List Token) :
    remainder (before ++ t :: s :: after) = remainder (before ++ after) := by
  have hpair : remainder (t :: s :: after) = remainder after := by
    have hs : ∀ w, cancel s w = s :: w := by
      rintro (_ | ⟨r, w⟩)
      · rfl
      · exact if_neg fun hr => Symbol.noConfusion (h.2.symm.trans hr.1)
    rw [remainder_cons, remainder_cons, hs]
    exact if_pos h
  rw [remainder_append, remainder_append, hpair]

theorem ErasesTo.remainder_eq (h : ErasesTo w v) : remainder w = remainder v := by
  induction h with
  | refl => rfl
  | tail _ hstep ih =>
    cases hstep with
    | pair before after h => rw [ih, remainder_append_pair h]

/-- Tokens without empty groups. -/
def Clean (w : List Token) : Prop := w.IsChain fun t u => ¬ EmptyPair t u

theorem clean_iff : Clean w ↔ ∀ v, ¬ Erases w v := by
  rw [Clean, List.isChain_iff_forall_rel_of_append_cons_cons]
  constructor
  · rintro hclean v ⟨before, after, h⟩
    exact hclean rfl h
  · rintro h t s before after rfl hpair
    exact h _ (.pair before after hpair)

theorem clean_cancel (h : Clean w) (t : Token) : Clean (cancel t w) := by
  rcases w with _ | ⟨u, w⟩
  · exact List.isChain_singleton t
  · rw [cancel]
    split_ifs with hpair
    · exact List.IsChain.tail h
    · exact List.isChain_cons_cons.mpr ⟨hpair, h⟩

theorem erasesTo_cancel (t : Token) (w : List Token) : ErasesTo (t :: w) (cancel t w) := by
  rcases w with _ | ⟨u, w⟩
  · exact .refl [t]
  · rw [cancel]
    split_ifs with hpair
    · exact ReflTransGen.single (.pair [] w hpair)
    · exact .refl _

theorem clean_remainder (w : List Token) : Clean (remainder w) := by
  induction w with
  | nil => exact List.isChain_nil
  | cons t w ih => exact clean_cancel ih t

/-- **Everything can be erased down to the remainder.** -/
theorem erasesTo_remainder (w : List Token) : ErasesTo w (remainder w) := by
  induction w with
  | nil => exact .refl []
  | cons t w ih => exact (ih.cons t).trans (erasesTo_cancel t (remainder w))

theorem normalForm_remainder (w : List Token) : NormalForm w (remainder w) :=
  ⟨erasesTo_remainder w, clean_iff.mp (clean_remainder w)⟩

theorem remainder_of_clean (h : Clean n) : remainder n = n := by
  induction n with
  | nil => rfl
  | cons t n ih =>
    rw [remainder_cons, ih h.tail]
    rcases n with _ | ⟨u, n⟩
    · rfl
    · exact if_neg (List.isChain_cons_cons.mp h).1

theorem NormalForm.eq_remainder (h : NormalForm w n) : n = remainder w := by
  rw [h.erased.remainder_eq, remainder_of_clean (clean_iff.mpr h.finished)]

/-- **The order in which empty groups are erased does not matter.** -/
theorem existsUnique_normalForm (w : List Token) : ∃! n, NormalForm w n :=
  ⟨remainder w, normalForm_remainder w, fun _ h => h.eq_remainder⟩

/-- An empty group opens and closes nothing. -/
theorem level_append_pair (h : EmptyPair t s) (d : Nat) (before after : List Token) :
    level d ((before ++ t :: s :: after).map Token.symbol) =
      level d ((before ++ after).map Token.symbol) := by
  rw [List.map_append, List.map_cons, List.map_cons, h.1, h.2, level_append_emptyGroup,
    List.map_append]

/-- **Erasing keeps what is open.** -/
theorem ErasesTo.level_eq (h : ErasesTo w v) (d : Nat) :
    level d (w.map Token.symbol) = level d (v.map Token.symbol) := by
  induction h with
  | refl => rfl
  | tail _ hstep ih =>
    cases hstep with
    | pair before after h => rw [ih, level_append_pair h]

/-! ## What vanishes -/

theorem not_erases_nil (v : List Token) : ¬ Erases [] v := by
  intro h
  generalize hw : ([] : List Token) = w at h
  cases h with
  | pair before after h => simp at hw

theorem normalForm_nil_iff : NormalForm w [] ↔ ErasesTo w [] :=
  ⟨NormalForm.erased, fun h => ⟨h, not_erases_nil⟩⟩

/-- Whether everything vanishes can be computed. -/
theorem erasesTo_nil_iff : ErasesTo w [] ↔ remainder w = [] :=
  ⟨fun h => h.remainder_eq, fun h => h ▸ erasesTo_remainder w⟩

theorem map_symbol_cancel (ht : t.symbol = s.symbol)
    (h : w.map Token.symbol = w'.map Token.symbol) :
    (cancel t w).map Token.symbol = (cancel s w').map Token.symbol := by
  rcases w with _ | ⟨u, w⟩
  · rw [List.map_eq_nil_iff.mp h.symm]
    simp [cancel, ht]
  · obtain ⟨u', v, rfl, hu, hv⟩ := List.map_eq_cons_iff.mp h.symm
    have hpair : EmptyPair s u' ↔ EmptyPair t u := by rw [EmptyPair, EmptyPair, ht, hu]
    rw [cancel, cancel]
    by_cases h : EmptyPair t u
    · rw [if_pos h, if_pos (hpair.mpr h), hv]
    · rw [if_neg h, if_neg (hpair.not.mpr h), List.map_cons, List.map_cons, List.map_cons,
        List.map_cons, ht, hu, hv]

/-- The symbols decide what is left. -/
theorem map_symbol_remainder (h : w.map Token.symbol = w'.map Token.symbol) :
    (remainder w).map Token.symbol = (remainder w').map Token.symbol := by
  induction w generalizing w' with
  | nil => rw [List.map_eq_nil_iff.mp h.symm]
  | cons t w ih =>
    obtain ⟨s, v, rfl, hs, hv⟩ := List.map_eq_cons_iff.mp h.symm
    exact map_symbol_cancel hs.symm (ih hv.symm)

/-- Empty groups that are nested in each other or follow each other. -/
inductive Nested : List Token → Prop where
  | nil : Nested []
  | group {t s : Token} {inside behind : List Token} (h : EmptyPair t s) :
      Nested inside → Nested behind → Nested (t :: (inside ++ s :: behind))

theorem Nested.head_symbol (h : Nested (t :: w)) : t.symbol = .opening := by
  cases h with
  | group hpair => exact hpair.1

/-- An empty group may be put anywhere. -/
theorem Nested.insert (h : EmptyPair t s) (hw : Nested (before ++ after)) :
    Nested (before ++ t :: s :: after) := by
  generalize hcut : before ++ after = w at hw
  induction hw generalizing before after with
  | nil =>
    obtain ⟨rfl, rfl⟩ := List.append_eq_nil_iff.mp hcut
    exact .group h .nil .nil
  | @group t' s' inside behind hpair hinside hbehind ihinside ihbehind =>
    rcases List.append_eq_cons_iff.mp hcut with ⟨rfl, rfl⟩ | ⟨before, rfl, hrest⟩
    · exact .group h .nil (.group hpair hinside hbehind)
    · rcases List.append_eq_append_iff.mp hrest.symm with ⟨z, rfl, rfl⟩ | ⟨z, rfl, hz⟩
      · have hinside' := ihinside rfl
        simpa using Nested.group hpair hinside' hbehind
      · rcases List.cons_eq_append_iff.mp hz with ⟨rfl, rfl⟩ | ⟨z, rfl, rfl⟩
        · have hinside' := ihinside (List.append_nil inside)
          simpa using Nested.group hpair hinside' hbehind
        · have hbehind' := ihbehind rfl
          simpa using Nested.group hpair hinside hbehind'

/-- **What vanishes consists of nested groups.** -/
theorem nested_of_erasesTo (h : ErasesTo w []) : Nested w := by
  induction h using ReflTransGen.head_induction_on with
  | refl => exact .nil
  | head hstep _ ih =>
    cases hstep with
    | pair before after h => exact ih.insert h

end PatternAutomata
