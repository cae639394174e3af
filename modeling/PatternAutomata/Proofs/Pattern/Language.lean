import Mathlib.Computability.Language
import PatternAutomata.Pattern.Tree

/-!
# The language of a tree

A tree denotes a language over its characters, by the usual reading of its operators.  Trees with
the wrong number of children denote nothing.

Parsing produces two kinds of trees only: the empty tree, and trees that are `WellShaped`.  No part
of a well-shaped tree denotes the empty language, so none of its characters is useless
(`WellShaped.mem_leaves_iff`).
-/

namespace PatternAutomata

namespace SyntaxTree

open scoped Computability

/-- The words a tree stands for. -/
def language : SyntaxTree → Language Char
  | .empty => 1
  | .leaf c => {[c]}
  | .node .union [left, right] => left.language + right.language
  | .node .concatenation [left, right] => left.language * right.language
  | .node .star [body] => body.language∗
  | .node _ _ => 0

/-- A tree without empty trees in it, every operator of which has as many children as operands. -/
inductive WellShaped : SyntaxTree → Prop where
  | leaf (c : Char) : WellShaped (.leaf c)
  | union {left right : SyntaxTree} : WellShaped left → WellShaped right →
      WellShaped (.node .union [left, right])
  | concatenation {left right : SyntaxTree} : WellShaped left → WellShaped right →
      WellShaped (.node .concatenation [left, right])
  | star {body : SyntaxTree} : WellShaped body → WellShaped (.node .star [body])

variable {t left right body : SyntaxTree} {c : Char} {w : List Char}

@[simp] theorem mem_language_empty : w ∈ language .empty ↔ w = [] := by
  rw [language, Language.mem_one]

@[simp] theorem mem_language_leaf : w ∈ language (.leaf c) ↔ w = [c] := by
  rw [language]
  exact Set.mem_singleton_iff

@[simp] theorem mem_language_union :
    w ∈ language (.node .union [left, right]) ↔ w ∈ left.language ∨ w ∈ right.language := by
  rw [language, Language.mem_add]

@[simp] theorem mem_language_concatenation : w ∈ language (.node .concatenation [left, right]) ↔
    ∃ u ∈ left.language, ∃ v ∈ right.language, u ++ v = w := by
  rw [language, Language.mem_mul]

@[simp] theorem mem_language_star : w ∈ language (.node .star [body]) ↔
    ∃ pieces : List (List Char), w = pieces.flatten ∧ ∀ u ∈ pieces, u ∈ body.language := by
  rw [language, Language.mem_kstar]

namespace WellShaped

theorem ne_empty (h : t.WellShaped) : t ≠ .empty := by
  rintro rfl
  cases h

theorem exists_mem_language (h : t.WellShaped) : ∃ w, w ∈ t.language := by
  induction h with
  | leaf c => exact ⟨[c], mem_language_leaf.mpr rfl⟩
  | union _ _ ihl _ =>
    obtain ⟨u, hu⟩ := ihl
    exact ⟨u, mem_language_union.mpr (Or.inl hu)⟩
  | concatenation _ _ ihl ihr =>
    obtain ⟨u, hu⟩ := ihl
    obtain ⟨v, hv⟩ := ihr
    exact ⟨u ++ v, mem_language_concatenation.mpr ⟨u, hu, v, hv, rfl⟩⟩
  | star _ _ => exact ⟨[], mem_language_star.mpr ⟨[], rfl, fun u hu => by cases hu⟩⟩

theorem exists_mem_leaves (h : t.WellShaped) : ∃ c, c ∈ t.leaves := by
  induction h with
  | leaf c => exact ⟨c, by simp [leaves]⟩
  | union _ _ ihl _ =>
    obtain ⟨c, hc⟩ := ihl
    exact ⟨c, by simp [leaves, leavesOfAll, hc]⟩
  | concatenation _ _ ihl _ =>
    obtain ⟨c, hc⟩ := ihl
    exact ⟨c, by simp [leaves, leavesOfAll, hc]⟩
  | star _ ih =>
    obtain ⟨c, hc⟩ := ih
    exact ⟨c, by simp [leaves, leavesOfAll, hc]⟩

/-- **No leaf is useless.**  The characters at the leaves are those of the words. -/
theorem mem_leaves_iff (h : t.WellShaped) : c ∈ t.leaves ↔ ∃ w ∈ t.language, c ∈ w := by
  induction h with
  | leaf d => simp [leaves]
  | @union left right _ _ ihl ihr =>
    simp only [leaves, leavesOfAll, List.append_nil, List.mem_append, ihl, ihr, mem_language_union]
    constructor
    · rintro (⟨w, hw, hc⟩ | ⟨w, hw, hc⟩)
      · exact ⟨w, Or.inl hw, hc⟩
      · exact ⟨w, Or.inr hw, hc⟩
    · rintro ⟨w, hw | hw, hc⟩
      · exact Or.inl ⟨w, hw, hc⟩
      · exact Or.inr ⟨w, hw, hc⟩
  | @concatenation left right hl hr ihl ihr =>
    simp only [leaves, leavesOfAll, List.append_nil, List.mem_append, ihl, ihr,
      mem_language_concatenation]
    constructor
    · rintro (⟨u, hu, hc⟩ | ⟨v, hv, hc⟩)
      · obtain ⟨v, hv⟩ := hr.exists_mem_language
        exact ⟨u ++ v, ⟨u, hu, v, hv, rfl⟩, List.mem_append_left _ hc⟩
      · obtain ⟨u, hu⟩ := hl.exists_mem_language
        exact ⟨u ++ v, ⟨u, hu, v, hv, rfl⟩, List.mem_append_right _ hc⟩
    · rintro ⟨-, ⟨u, hu, v, hv, rfl⟩, hc⟩
      rcases List.mem_append.mp hc with hc | hc
      · exact Or.inl ⟨u, hu, hc⟩
      · exact Or.inr ⟨v, hv, hc⟩
  | @star body _ ih =>
    simp only [leaves, leavesOfAll, List.append_nil, ih, mem_language_star]
    constructor
    · rintro ⟨w, hw, hc⟩
      exact ⟨w, ⟨[w], by simp, by simpa using hw⟩, hc⟩
    · rintro ⟨-, ⟨pieces, rfl, hpieces⟩, hc⟩
      obtain ⟨u, hu, hc⟩ := List.mem_flatten.mp hc
      exact ⟨u, hpieces u hu, hc⟩

end WellShaped

end SyntaxTree

end PatternAutomata
