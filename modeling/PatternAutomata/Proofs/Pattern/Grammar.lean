import Mathlib.Data.List.Basic
import PatternAutomata.Pattern.Parse
import PatternAutomata.Proofs.Pattern.Language

/-!
# The grammar of patterns

Patterns are expressions of a grammar with one category for each operator and one for operands that
no operator joins.  `Derives` gives the tree of a derivation with it: union and concatenation lean to
the right, every further star wraps the tree before it, and parentheses leave nothing behind.

The parser does not follow these rules.  It looks for the operator to split at.  The lemmas here say
that this comes to the same: a list derives a tree exactly if the two sides of the operator that is
applied last do (`derives_union_iff`, `derives_concatenation_iff`, `derives_star_iff`).  What
happens inside parentheses does not matter, and `level` keeps track of them: an operator is on the
top level if what stands before it is `Balanced`.
-/

namespace PatternAutomata

/-! ## Parentheses -/

/-- How many groups are open after some symbols, if a number of them is open before.  There is no
answer if a parenthesis closes what was not opened. -/
def level : Nat → List Symbol → Option Nat
  | depth, [] => some depth
  | depth, .opening :: w => level (depth + 1) w
  | 0, .closing :: _ => none
  | depth + 1, .closing :: w => level depth w
  | depth, .operator _ :: w => level depth w
  | depth, .literal _ :: w => level depth w

/-- Every parenthesis has its partner. -/
def Balanced (w : List Symbol) : Prop := level 0 w = some 0

instance (w : List Symbol) : Decidable (Balanced w) := inferInstanceAs (Decidable (_ = _))

variable {u v w u' v' : List Symbol} {o o' : Operator} {x : Symbol} {c : Char}
  {t left right : SyntaxTree} {d e : Nat}

theorem level_append (d : Nat) (u v : List Symbol) :
    level d (u ++ v) = (level d u).bind fun e => level e v := by
  fun_induction level d u with
  | case1 d => rfl
  | case2 d u ih => exact ih
  | case3 u => rfl
  | case4 d u ih => exact ih
  | case5 d o u ih => simpa [level] using ih
  | case6 d c u ih => simpa [level] using ih

/-- Groups that are open before stay open. -/
theorem level_succ (h : level d u = some e) : level (d + 1) u = some (e + 1) := by
  fun_induction level d u with
  | case1 d => cases h; rfl
  | case2 d u ih => exact ih h
  | case3 u => cases h
  | case4 d u ih => exact ih h
  | case5 d o u ih => simpa [level] using ih h
  | case6 d c u ih => simpa [level] using ih h

/-- Of symbols that close nothing too much, the first ones do not either. -/
theorem exists_level_of_append (h : level d (u ++ v) = some e) : ∃ e', level d u = some e' := by
  rw [level_append] at h
  obtain ⟨e', he', -⟩ := Option.bind_eq_some_iff.mp h
  exact ⟨e', he'⟩

theorem level_append_of_balanced (h : Balanced u) : level 0 (u ++ v) = level 0 v := by
  rw [level_append, h, Option.bind_some]

theorem balanced_append_iff (h : Balanced u) : Balanced (u ++ v) ↔ Balanced v := by
  rw [Balanced, level_append_of_balanced h, Balanced]

theorem balanced_nil : Balanced [] := rfl

theorem balanced_operator (o : Operator) : Balanced [.operator o] := rfl

theorem balanced_literal (c : Char) : Balanced [.literal c] := rfl

theorem balanced_group (h : Balanced u) : Balanced (.opening :: u ++ [.closing]) := by
  rw [Balanced, List.cons_append, level, level_append, level_succ h]
  rfl

theorem Balanced.head_ne (h : Balanced (x :: w)) : x ≠ .closing := by
  rintro rfl
  cases h

theorem Balanced.last_ne (h : Balanced (w ++ [x])) : x ≠ .opening := by
  rintro rfl
  rw [Balanced, level_append] at h
  obtain ⟨e, -, he⟩ := Option.bind_eq_some_iff.mp h
  cases he

/-- An empty group opens nothing. -/
theorem level_append_emptyGroup (d : Nat) (u v : List Symbol) :
    level d (u ++ .opening :: .closing :: v) = level d (u ++ v) := by
  rw [level_append, level_append]
  rfl

theorem level_operator (d : Nat) (o : Operator) (w : List Symbol) :
    level d (.operator o :: w) = level d w := by
  cases d <;> rfl

/-- Lists that open and close the same still do behind a symbol. -/
theorem level_cons_congr (h : ∀ d, level d u = level d v) (x : Symbol) (d : Nat) :
    level d (x :: u) = level d (x :: v) := by
  have hhead : ∀ w, level d (x :: w) = (level d [x]).bind fun e => level e w := fun w =>
    level_append d [x] w
  rw [hhead u, hhead v]
  exact Option.bind_congr fun e _ => h e

/-! ## Operators on the top level -/

/-- An operator does not occur outside of parentheses. -/
def NoneAtTop (o : Operator) (w : List Symbol) : Prop :=
  ∀ u v, w = u ++ .operator o :: v → ¬ Balanced u

theorem noneAtTop_append (hu : Balanced u) :
    NoneAtTop o (u ++ v) ↔ NoneAtTop o u ∧ NoneAtTop o v := by
  constructor
  · intro h
    refine ⟨fun x y hxy => h x (y ++ v) (by rw [hxy]; simp), fun x y hxy hx => ?_⟩
    exact h (u ++ x) y (by rw [hxy, List.append_assoc]) ((balanced_append_iff hu).mpr hx)
  · rintro ⟨hl, hr⟩ x y hxy
    rcases List.append_eq_append_iff.mp hxy with ⟨z, rfl, hz⟩ | ⟨z, rfl, hz⟩
    · rw [balanced_append_iff hu]
      exact hr z y hz
    · cases z with
      | nil => exact fun _ => hr [] y hz.symm balanced_nil
      | cons s z =>
        cases hz
        exact hl x z rfl

theorem noneAtTop_singleton : NoneAtTop o [x] ↔ x ≠ .operator o := by
  constructor
  · rintro h rfl
    exact h [] [] rfl balanced_nil
  · rintro h u v huv
    rcases List.cons_eq_append_iff.mp huv with ⟨-, hv⟩ | ⟨u', -, hv⟩
    · cases hv
      exact absurd rfl h
    · simp at hv

theorem noneAtTop_nil : NoneAtTop o [] := fun u v h => by simp at h

/-- An operator on the top level, and what stands on both sides of it. -/
theorem noneAtTop_operator (hu : Balanced u) : NoneAtTop o (u ++ .operator o' :: v) ↔
    NoneAtTop o u ∧ o' ≠ o ∧ NoneAtTop o v := by
  rw [noneAtTop_append hu, show Symbol.operator o' :: v = [.operator o'] ++ v from rfl,
    noneAtTop_append (balanced_operator o'), noneAtTop_singleton, Ne, Symbol.operator.injEq]

theorem noneAtTop_group (h : Balanced w) : NoneAtTop o (.opening :: w ++ [.closing]) := by
  intro u v huv hu
  cases u with
  | nil => cases huv
  | cons s u =>
    have hs : Symbol.opening = s := (List.cons.inj huv).1
    have hinside : w ++ [.closing] = u ++ .operator o :: v := (List.cons.inj huv).2
    subst hs
    rcases List.eq_nil_or_concat' v with rfl | ⟨v, s, rfl⟩
    · obtain ⟨-, hlast⟩ := List.append_inj' hinside rfl
      cases hlast
    · rw [← List.cons_append, ← List.append_assoc] at hinside
      obtain ⟨rfl, -⟩ := List.append_inj' hinside rfl
      obtain ⟨e, he⟩ := exists_level_of_append h
      rw [Balanced, level, level_succ he] at hu
      cases hu

/-- The first of the equal operators on the top level is determined. -/
theorem first_unique (h : u ++ .operator o :: v = u' ++ .operator o :: v') (hu : Balanced u)
    (hu' : Balanced u') (hnone : NoneAtTop o u) (hnone' : NoneAtTop o u') : u = u' ∧ v = v' := by
  rcases List.append_eq_append_iff.mp h with ⟨z, rfl, hz⟩ | ⟨z, rfl, hz⟩
  · cases z with
    | nil =>
      cases hz
      exact ⟨(List.append_nil u).symm, rfl⟩
    | cons s z =>
      cases hz
      exact absurd hu (hnone' u z rfl)
  · cases z with
    | nil =>
      cases hz
      exact ⟨List.append_nil u', rfl⟩
    | cons s z =>
      cases hz
      exact absurd hu' (hnone u' z rfl)

/-! ## Derivations -/

/-- The categories of the grammar, from the loosest to the tightest. -/
inductive Category where
  | expression
  | term
  | factor
  | atom
  deriving DecidableEq, Repr

/-- The derivations of the grammar, with their trees. -/
inductive Derives : Category → List Symbol → SyntaxTree → Prop where
  | term {w : List Symbol} {t : SyntaxTree} : Derives .term w t → Derives .expression w t
  | union {u v : List Symbol} {left right : SyntaxTree} :
      Derives .term u left → Derives .expression v right →
      Derives .expression (u ++ .operator .union :: v) (.node .union [left, right])
  | factor {w : List Symbol} {t : SyntaxTree} : Derives .factor w t → Derives .term w t
  | concatenation {u v : List Symbol} {left right : SyntaxTree} :
      Derives .factor u left → Derives .term v right →
      Derives .term (u ++ .operator .concatenation :: v) (.node .concatenation [left, right])
  | atom {w : List Symbol} {t : SyntaxTree} : Derives .atom w t → Derives .factor w t
  | star {w : List Symbol} {t : SyntaxTree} :
      Derives .factor w t → Derives .factor (w ++ [.operator .star]) (.node .star [t])
  | literal (c : Char) : Derives .atom [.literal c] (.leaf c)
  | group {w : List Symbol} {t : SyntaxTree} :
      Derives .expression w t → Derives .atom (.opening :: w ++ [.closing]) t

/-- The operators that lists of a category do not have on their top level. -/
def Category.excludes : Category → Operator → Bool
  | .expression, _ => false
  | .term, o => o == .union
  | .factor, o => o == .union || o == .concatenation
  | .atom, _ => true

namespace Derives

variable {k : Category}

theorem balanced (h : Derives k w t) : Balanced w := by
  induction h with
  | term _ ih => exact ih
  | union _ _ ihl ihr =>
    rw [balanced_append_iff ihl]
    exact (balanced_append_iff (balanced_operator _)).mpr ihr
  | factor _ ih => exact ih
  | concatenation _ _ ihl ihr =>
    rw [balanced_append_iff ihl]
    exact (balanced_append_iff (balanced_operator _)).mpr ihr
  | atom _ ih => exact ih
  | star _ ih => exact (balanced_append_iff ih).mpr (balanced_operator _)
  | literal c => exact balanced_literal c
  | group _ ih => exact balanced_group ih

theorem ne_nil (h : Derives k w t) : w ≠ [] := by
  induction h with
  | term _ ih => exact ih
  | union => simp
  | factor _ ih => exact ih
  | concatenation => simp
  | atom _ ih => exact ih
  | star => simp
  | literal => simp
  | group => simp

theorem wellShaped (h : Derives k w t) : t.WellShaped := by
  induction h with
  | term _ ih => exact ih
  | union _ _ ihl ihr => exact .union ihl ihr
  | factor _ ih => exact ih
  | concatenation _ _ ihl ihr => exact .concatenation ihl ihr
  | atom _ ih => exact ih
  | star _ ih => exact .star ih
  | literal c => exact .leaf c
  | group _ ih => exact ih

theorem noneAtTop (h : Derives k w t) (ho : k.excludes o = true) : NoneAtTop o w := by
  induction h with
  | term => cases ho
  | union => cases ho
  | factor _ ih =>
    obtain rfl : o = .union := beq_iff_eq.mp ho
    exact ih rfl
  | concatenation hl _ ihl ihr =>
    obtain rfl : o = .union := beq_iff_eq.mp ho
    rw [noneAtTop_operator hl.balanced]
    exact ⟨ihl rfl, by decide, ihr rfl⟩
  | atom _ ih => exact ih rfl
  | star h ih =>
    rw [noneAtTop_append h.balanced, noneAtTop_singleton]
    refine ⟨ih ho, ?_⟩
    rintro ⟨⟩
    cases ho
  | literal c => exact noneAtTop_singleton.mpr Symbol.noConfusion
  | group h _ => exact noneAtTop_group h.balanced

/-! A list is of the tightest category that its operators on the top level allow. -/

theorem to_term (h : Derives .expression w t) (hw : NoneAtTop .union w) : Derives .term w t := by
  cases h with
  | term h => exact h
  | union hl _ => exact absurd hl.balanced (hw _ _ rfl)

theorem to_factor (h : Derives .term w t) (hw : NoneAtTop .concatenation w) :
    Derives .factor w t := by
  cases h with
  | factor h => exact h
  | concatenation hl _ => exact absurd hl.balanced (hw _ _ rfl)

theorem to_atom (h : Derives .factor w t) (hw : NoneAtTop .star w) : Derives .atom w t := by
  cases h with
  | atom h => exact h
  | star h => exact absurd h.balanced (hw _ _ rfl)

end Derives

/-! ## Splitting at the operator that is applied last -/

theorem derives_union_iff (hu : Balanced u) (hfirst : NoneAtTop .union u) :
    Derives .expression (u ++ .operator .union :: v) t ↔ ∃ left right,
      Derives .expression u left ∧ Derives .expression v right ∧ t = .node .union [left, right] := by
  constructor
  · intro h
    generalize hw : u ++ .operator .union :: v = w at h
    cases h with
    | term h => exact absurd hu (h.noneAtTop rfl u v hw.symm)
    | union hl hr =>
      obtain ⟨rfl, rfl⟩ := first_unique hw hu hl.balanced hfirst (hl.noneAtTop rfl)
      exact ⟨_, _, .term hl, hr, rfl⟩
  · rintro ⟨left, right, hl, hr, rfl⟩
    exact .union (hl.to_term hfirst) hr

theorem derives_concatenation_iff (hu : Balanced u) (hunion : NoneAtTop .union u)
    (hunion' : NoneAtTop .union v) (hfirst : NoneAtTop .concatenation u) :
    Derives .expression (u ++ .operator .concatenation :: v) t ↔ ∃ left right,
      Derives .expression u left ∧ Derives .expression v right ∧
        t = .node .concatenation [left, right] := by
  constructor
  · intro h
    have hterm := h.to_term ((noneAtTop_operator hu).mpr ⟨hunion, by simp, hunion'⟩)
    generalize hw : u ++ .operator .concatenation :: v = w at hterm
    cases hterm with
    | factor h => exact absurd hu (h.noneAtTop rfl u v hw.symm)
    | concatenation hl hr =>
      obtain ⟨rfl, rfl⟩ := first_unique hw hu hl.balanced hfirst (hl.noneAtTop rfl)
      exact ⟨_, _, .term (.factor hl), .term hr, rfl⟩
  · rintro ⟨left, right, hl, hr, rfl⟩
    exact .term (.concatenation ((hl.to_term hunion).to_factor hfirst) (hr.to_term hunion'))

theorem derives_star_iff (hu : Balanced u) (hunion : NoneAtTop .union u)
    (hunion' : NoneAtTop .union v) (hconcatenation : NoneAtTop .concatenation u)
    (hconcatenation' : NoneAtTop .concatenation v) (hlast : NoneAtTop .star v) :
    Derives .expression (u ++ .operator .star :: v) t ↔
      v = [] ∧ ∃ body, Derives .expression u body ∧ t = .node .star [body] := by
  constructor
  · intro h
    have hfactor := (h.to_term ((noneAtTop_operator hu).mpr ⟨hunion, by simp, hunion'⟩)).to_factor
      ((noneAtTop_operator hu).mpr ⟨hconcatenation, by simp, hconcatenation'⟩)
    generalize hw : u ++ .operator .star :: v = w at hfactor
    cases hfactor with
    | atom h => exact absurd hu (h.noneAtTop rfl u v hw.symm)
    | @star w t hbody =>
      rcases List.eq_nil_or_concat' v with rfl | ⟨v, s, rfl⟩
      · obtain ⟨rfl, -⟩ := List.append_inj' hw rfl
        exact ⟨rfl, _, .term (.factor hbody), rfl⟩
      · -- a star at the end would be a later one on the top level
        rw [← List.cons_append, ← List.append_assoc] at hw
        obtain ⟨rfl, hs⟩ := List.append_inj' hw rfl
        cases hs
        have hv : Balanced v := (balanced_append_iff (balanced_operator .star)).mp
          ((balanced_append_iff hu).mp hbody.balanced)
        exact absurd hv (hlast v [] rfl)
  · rintro ⟨rfl, body, hbody, rfl⟩
    exact .term (.factor (.star ((hbody.to_term hunion).to_factor hconcatenation)))

theorem Operator.outranks_some : o'.outranks (some o) = true ↔
    o.rank < o'.rank ∨ (o'.rank = o.rank ∧ o'.isUnary = true) := by
  cases o <;> cases o' <;> decide

/-- The operator between two lists is applied last to them: it is on the top level, no operator of
higher rank is, and among its equals it is the first one, or the last one if it is unary. -/
structure AppliedLast (o : Operator) (u v : List Symbol) : Prop where
  balanced : Balanced u
  higher : ∀ o', o.rank < o'.rank → NoneAtTop o' u ∧ NoneAtTop o' v
  first : o.isUnary = false → NoneAtTop o u
  last : o.isUnary = true → NoneAtTop o v

namespace AppliedLast

theorem of_none (hw : Balanced w) (h : ∀ o, NoneAtTop o w) (o : Operator) : AppliedLast o w [] :=
  ⟨hw, fun o' _ => ⟨h o', noneAtTop_nil⟩, fun _ => h o, fun _ => noneAtTop_nil⟩

/-- What has no operators on its top level changes nothing. -/
theorem append (h : AppliedLast o u v) (hv : Balanced v) (hw : ∀ o, NoneAtTop o w) :
    AppliedLast o u (v ++ w) :=
  ⟨h.balanced, fun o' ho => ⟨(h.higher o' ho).1, (noneAtTop_append hv).mpr ⟨(h.higher o' ho).2, hw o'⟩⟩,
    h.first, fun ho => (noneAtTop_append hv).mpr ⟨h.last ho, hw o⟩⟩

/-- An operator that does not outrank it changes nothing. -/
theorem append_operator (h : AppliedLast o u v) (hv : Balanced v)
    (ho : o'.outranks (some o) = false) : AppliedLast o u (v ++ [.operator o']) := by
  have hle : o'.rank ≤ o.rank ∧ (o'.rank = o.rank → o'.isUnary = false) := by
    rw [Bool.eq_false_iff, Ne, Operator.outranks_some, not_or, not_and, Nat.not_lt] at ho
    exact ⟨ho.1, fun heq => Bool.eq_false_iff.mpr (ho.2 heq)⟩
  refine ⟨h.balanced, fun o'' ho'' => ⟨(h.higher o'' ho'').1, (noneAtTop_append hv).mpr
    ⟨(h.higher o'' ho'').2, noneAtTop_singleton.mpr fun heq => ?_⟩⟩, h.first,
    fun hunary => (noneAtTop_append hv).mpr ⟨h.last hunary, noneAtTop_singleton.mpr fun heq => ?_⟩⟩
  · cases heq
    exact absurd hle.1 (by omega)
  · cases heq
    rw [hle.2 rfl] at hunary
    cases hunary

/-- An operator that outranks it is applied last instead. -/
theorem of_outranks (h : AppliedLast o u v) (hw : Balanced (u ++ .operator o :: v))
    (ho : o'.outranks (some o) = true) : AppliedLast o' (u ++ .operator o :: v) [] := by
  have hle : o.rank ≤ o'.rank ∧ (o'.isUnary = false → o.rank < o'.rank) := by
    rcases Operator.outranks_some.mp ho with hlt | ⟨heq, hunary⟩
    · exact ⟨hlt.le, fun _ => hlt⟩
    · exact ⟨heq.ge, fun h => by rw [h] at hunary; cases hunary⟩
  have hnone : ∀ o'', o.rank < o''.rank → NoneAtTop o'' (u ++ .operator o :: v) := by
    intro o'' ho''
    refine (noneAtTop_operator h.balanced).mpr ⟨(h.higher o'' ho'').1, ?_, (h.higher o'' ho'').2⟩
    rintro rfl
    exact Nat.lt_irrefl _ ho''
  exact ⟨hw, fun o'' ho'' => ⟨hnone o'' (hle.1.trans_lt ho''), noneAtTop_nil⟩,
    fun hunary => hnone o' (hle.2 hunary), fun _ => noneAtTop_nil⟩

/-- **A list derives a tree by the operator that is applied last**, from what its sides derive. -/
theorem derives_iff (h : AppliedLast o u v) : Derives .expression (u ++ .operator o :: v) t ↔
    if o.isUnary = true then v = [] ∧ ∃ body, Derives .expression u body ∧ t = .node o [body]
    else ∃ left right, Derives .expression u left ∧ Derives .expression v right ∧
      t = .node o [left, right] := by
  cases o with
  | union => exact derives_union_iff h.balanced (h.first rfl)
  | concatenation =>
    obtain ⟨hunion, hunion'⟩ := h.higher .union (by decide)
    exact derives_concatenation_iff h.balanced hunion hunion' (h.first rfl)
  | star =>
    obtain ⟨hunion, hunion'⟩ := h.higher .union (by decide)
    obtain ⟨hconcatenation, hconcatenation'⟩ := h.higher .concatenation (by decide)
    exact derives_star_iff h.balanced hunion hunion' hconcatenation hconcatenation' (h.last rfl)

end AppliedLast

theorem derives_group_iff (hw : Balanced w) :
    Derives .expression (.opening :: w ++ [.closing]) t ↔ Derives .expression w t := by
  constructor
  · intro h
    have hatom := ((h.to_term (noneAtTop_group hw)).to_factor (noneAtTop_group hw)).to_atom
      (noneAtTop_group hw)
    generalize hgroup : Symbol.opening :: w ++ [.closing] = g at hatom
    cases hatom with
    | literal c => cases hgroup
    | group h =>
      obtain ⟨rfl, -⟩ := List.append_inj' (List.cons_eq_cons.mp hgroup).2 rfl
      exact h
  · exact fun h => .term (.factor (.atom (.group h)))

/-- Without operators on the top level, a list that is no group has to be a literal. -/
theorem derives_operand_iff (hnone : ∀ o, NoneAtTop o w)
    (hgroup : ∀ u, Balanced u → w ≠ .opening :: u ++ [.closing]) :
    Derives .expression w t ↔ ∃ c, w = [.literal c] ∧ t = .leaf c := by
  constructor
  · intro h
    cases ((h.to_term (hnone _)).to_factor (hnone _)).to_atom (hnone _) with
    | literal c => exact ⟨c, rfl, rfl⟩
    | group h => exact absurd rfl (hgroup _ h.balanced)
  · rintro ⟨c, rfl, rfl⟩
    exact .term (.factor (.atom (.literal c)))

/-! ## What may stand next to each other -/

/-- Whether an operand has to begin after some symbols, if this is known before them.  There is no
answer if one begins where none has to, or the other way around. -/
def operandDue : Bool → List Symbol → Option Bool
  | due, [] => some due
  | due, x :: w => if x.beginsOperand = due then operandDue (!x.endsOperand) w else none

theorem operandDue_append (due : Bool) (u v : List Symbol) :
    operandDue due (u ++ v) = (operandDue due u).bind fun due' => operandDue due' v := by
  induction u generalizing due with
  | nil => rfl
  | cons x u ih =>
    rw [List.cons_append, operandDue, operandDue]
    split
    · exact ih _
    · rfl

/-- In what is derived, operands begin where they have to. -/
theorem Derives.operandDue_eq {k : Category} (h : Derives k w t) :
    operandDue true w = some false := by
  induction h with
  | term _ ih => exact ih
  | union _ _ ihl ihr =>
    rw [operandDue_append, ihl]
    exact ihr
  | factor _ ih => exact ih
  | concatenation _ _ ihl ihr =>
    rw [operandDue_append, ihl]
    exact ihr
  | atom _ ih => exact ih
  | star _ ih =>
    rw [operandDue_append, ih]
    rfl
  | literal c => rfl
  | @group w t _ ih =>
    have hinside : operandDue true (.opening :: w ++ [.closing]) = operandDue true (w ++ [.closing]) :=
      rfl
    rw [hinside, operandDue_append, ih]
    rfl

/-- No two symbols are next to each other in what is derived of which the first one ends an operand
and the second one begins one, or neither is the case. -/
theorem Derives.endsOperand_ne {k : Category} {x y : Symbol} (h : Derives k w t)
    (hxy : [x, y] <:+: w) : x.endsOperand ≠ y.beginsOperand := by
  obtain ⟨u, v, rfl⟩ := hxy
  intro heq
  have hdue := h.operandDue_eq
  rw [List.append_assoc, operandDue_append] at hdue
  obtain ⟨due, -, hrest⟩ := Option.bind_eq_some_iff.mp hdue
  have hne : y.beginsOperand ≠ !x.endsOperand := by rw [heq]; simp
  simp only [List.cons_append, List.nil_append, operandDue, if_neg hne] at hrest
  split at hrest <;> cases hrest

end PatternAutomata
