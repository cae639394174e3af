import Mathlib.Order.Bounds.Defs
import PatternAutomata.Proofs.Pattern.Grammar

/-!
# Parentheses without a partner

Two parentheses are partners if the symbols between them are balanced.  In a balanced list every
parenthesis has a partner (`not_unmatched_of_balanced`).  In any other list a walk from the left that
skips groups as a whole gets stuck, at a parenthesis behind balanced symbols (`Breaks`): a closing
one, or an opening one that nothing closes.  This is the leftmost parenthesis without a partner
(`isLeast_unmatched`).

Whether the walk gets stuck at a parenthesis depends only on what the symbols on both sides of it
open and close (`Breaks.congr`).  So it gets stuck at the same one when other symbols, or empty
groups, are added or taken away.
-/

namespace PatternAutomata

variable {u v w x y : List Symbol} {s : Symbol} {d e i j k : Nat}

/-- An opening parenthesis and the one that closes it. -/
def Partners (w : List Symbol) (i j : Nat) : Prop :=
  ∃ x y z, w = x ++ .opening :: (y ++ .closing :: z) ∧ Balanced y ∧
    i = x.length ∧ j = x.length + 1 + y.length

/-- A parenthesis without a partner. -/
def Unmatched (w : List Symbol) (k : Nat) : Prop :=
  (w[k]? = some .opening ∧ ∀ j, ¬ Partners w k j) ∨ (w[k]? = some .closing ∧ ∀ i, ¬ Partners w i k)

/-- A walk from the left that skips groups as a whole gets stuck at a symbol between others: before a
closing parenthesis, or before an opening one that nothing behind it closes. -/
def Breaks (x : List Symbol) (s : Symbol) (y : List Symbol) : Prop :=
  Balanced x ∧ (s = .closing ∨ s = .opening ∧ ∃ e, level 0 y = some e)

theorem Breaks.congr (h : Breaks x s y) (hx : ∀ d, level d u = level d x)
    (hy : ∀ d, level d v = level d y) : Breaks u s v := by
  rwa [Breaks, Balanced, hx, hy]

theorem Breaks.ne_literal (h : Breaks x s y) (c : Char) : s ≠ .literal c := by
  rcases h.2 with rfl | ⟨rfl, -⟩ <;> exact Symbol.noConfusion

/-! ## Where groups end and begin -/

/-- Groups that are open before stay open. -/
theorem level_add (h : level d w = some e) (k : Nat) : level (d + k) w = some (e + k) := by
  induction k with
  | zero => exact h
  | succ k ih => exact level_succ ih

/-- Where more is closed than was opened, a first parenthesis closes too much. -/
theorem exists_of_level_eq_none (h : level d w = none) :
    ∃ u v, w = u ++ .closing :: v ∧ level d u = some 0 := by
  fun_induction level d w with
  | case1 d => cases h
  | case2 d w ih =>
    obtain ⟨u, v, rfl, hu⟩ := ih h
    exact ⟨.opening :: u, v, rfl, hu⟩
  | case3 w => exact ⟨[], w, rfl, rfl⟩
  | case4 d w ih =>
    obtain ⟨u, v, rfl, hu⟩ := ih h
    exact ⟨.closing :: u, v, rfl, hu⟩
  | case5 d o w ih =>
    obtain ⟨u, v, rfl, hu⟩ := ih h
    exact ⟨.operator o :: u, v, rfl, by rwa [level_operator]⟩
  | case6 d c w ih =>
    obtain ⟨u, v, rfl, hu⟩ := ih h
    exact ⟨.literal c :: u, v, rfl, by cases d <;> exact hu⟩

/-- **What closes an opening parenthesis.** -/
theorem exists_closing (h : level (d + 1) w = some 0) :
    ∃ u v, w = u ++ .closing :: v ∧ Balanced u := by
  refine exists_of_level_eq_none ?_
  cases hw : level 0 w with
  | none => rfl
  | some e =>
    have hopen := level_add hw (d + 1)
    rw [Nat.zero_add, h] at hopen
    cases hopen

/-- **What opened the group that is still open.** -/
theorem exists_opening (h : level 0 w = some (e + 1)) :
    ∃ u v, w = u ++ .opening :: v ∧ level 0 u = some e ∧ Balanced v := by
  induction hlength : w.length using Nat.strong_induction_on generalizing w e with
  | h n ih =>
    subst hlength
    rcases List.eq_nil_or_concat' w with rfl | ⟨w, s, rfl⟩
    · cases h
    rw [level_append] at h
    obtain ⟨f, hf, hs⟩ := Option.bind_eq_some_iff.mp h
    have hlt : w.length < (w ++ [s]).length := by simp
    have hbehind : Balanced [s] → f = e + 1 → ∃ u v, w ++ [s] = u ++ .opening :: v ∧
        level 0 u = some e ∧ Balanced v := by
      rintro hbalanced rfl
      obtain ⟨u, v, rfl, hu, hv⟩ := ih w.length hlt hf rfl
      exact ⟨u, v ++ [s], by simp, hu, (balanced_append_iff hv).mpr hbalanced⟩
    cases s with
    | opening =>
      cases hs
      exact ⟨w, [], rfl, hf, balanced_nil⟩
    | closing =>
      -- the group that ends here stands in the one that is still open
      obtain _ | f := f
      · cases hs
      cases hs
      obtain ⟨u, v, rfl, hu, hv⟩ := ih w.length hlt hf rfl
      obtain ⟨u, v', rfl, hu', hv'⟩ := ih u.length (by simp) hu rfl
      refine ⟨u, v' ++ (.opening :: v ++ [.closing]), by simp, hu', ?_⟩
      exact (balanced_append_iff hv').mpr (balanced_group hv)
    | operator o =>
      rw [level_operator] at hs
      exact hbehind (balanced_operator o) (Option.some.inj hs)
    | literal c =>
      refine hbehind (balanced_literal c) ?_
      cases f <;> exact Option.some.inj hs

/-! ## Partners -/

theorem Partners.append (h : Partners w i j) (v : List Symbol) : Partners (w ++ v) i j := by
  obtain ⟨x, y, z, rfl, hy, hi, hj⟩ := h
  exact ⟨x, y, z ++ v, by simp, hy, hi, hj⟩

theorem exists_append_of_getElem? {α : Type} {l : List α} {a : α} (h : l[k]? = some a) :
    ∃ x y, l = x ++ a :: y ∧ x.length = k := by
  obtain ⟨hk, ha⟩ := List.getElem?_eq_some_iff.mp h
  refine ⟨l.take k, l.drop (k + 1), ?_, List.length_take_of_le hk.le⟩
  rw [← ha, List.cons_getElem_drop_succ, List.take_append_drop]

/-- **In a balanced list every parenthesis has a partner.** -/
theorem not_unmatched_of_balanced (h : Balanced w) (k : Nat) : ¬ Unmatched w k := by
  rintro (⟨hsymbol, hnone⟩ | ⟨hsymbol, hnone⟩)
  · obtain ⟨x, y, rfl, rfl⟩ := exists_append_of_getElem? hsymbol
    rw [Balanced, level_append] at h
    obtain ⟨d, -, hd⟩ := Option.bind_eq_some_iff.mp h
    obtain ⟨y, z, rfl, hy⟩ := exists_closing hd
    exact hnone _ ⟨x, y, z, rfl, hy, rfl, rfl⟩
  · obtain ⟨x, z, rfl, rfl⟩ := exists_append_of_getElem? hsymbol
    rw [Balanced, level_append] at h
    obtain ⟨_ | d, hx, hd⟩ := Option.bind_eq_some_iff.mp h
    · cases hd
    · obtain ⟨x, y, rfl, -, hy⟩ := exists_opening hx
      exact hnone x.length ⟨x, y, z, by simp, hy, rfl, by simp; omega⟩

/-- The parenthesis that the walk gets stuck at has no partner. -/
theorem Breaks.unmatched (h : Breaks x s y) : Unmatched (x ++ s :: y) x.length := by
  obtain ⟨hx, rfl | ⟨rfl, e, hy⟩⟩ := h
  · refine Or.inr ⟨by simp, ?_⟩
    rintro i ⟨x', y', z, hcut, hy', -, hlength⟩
    rw [← List.cons_append, ← List.append_assoc] at hcut
    obtain ⟨rfl, -⟩ := List.append_inj hcut (by simp; omega)
    -- the opening parenthesis would still be open behind balanced symbols
    rw [Balanced, level_append] at hx
    obtain ⟨d, -, hd⟩ := Option.bind_eq_some_iff.mp hx
    have hopen := level_add hy' (d + 1)
    rw [Nat.zero_add] at hopen
    rw [level, hopen] at hd
    cases hd
  · refine Or.inl ⟨by simp, ?_⟩
    rintro j ⟨x', y', z, hcut, hy', hlength, -⟩
    obtain ⟨-, hrest⟩ := List.append_inj hcut hlength
    obtain ⟨-, rfl⟩ := List.cons.inj hrest
    rw [level_append_of_balanced hy'] at hy
    cases hy

theorem Unmatched.lt_length (h : Unmatched w k) : k < w.length := by
  rcases h with ⟨hsymbol, -⟩ | ⟨hsymbol, -⟩ <;>
    exact (List.getElem?_eq_some_iff.mp hsymbol).1

/-- More symbols behind a parenthesis do not take its partner away. -/
theorem Unmatched.of_append (h : Unmatched (w ++ v) k) (hk : k < w.length) : Unmatched w k := by
  rw [Unmatched, List.getElem?_append_left hk] at h
  exact h.imp (fun h => ⟨h.1, fun j hj => h.2 j (hj.append v)⟩)
    fun h => ⟨h.1, fun i hi => h.2 i (hi.append v)⟩

/-- **The walk gets stuck at the leftmost parenthesis without a partner.** -/
theorem isLeast_unmatched (h : Breaks x s y) :
    IsLeast {k | Unmatched (x ++ s :: y) k} x.length := by
  refine ⟨h.unmatched, fun k hk => ?_⟩
  by_contra hlt
  exact not_unmatched_of_balanced h.1 k (Unmatched.of_append hk (Nat.lt_of_not_le hlt))

end PatternAutomata
