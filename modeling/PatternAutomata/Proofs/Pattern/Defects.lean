import PatternAutomata.Automaton.Fault
import PatternAutomata.Proofs.Pattern.Language

/-!
# What is wrong with a tree

Trees that do not come from a pattern may be of any shape.  Two things can be wrong with a node of
one: it is an empty tree, or it is an operator with the wrong number of children.  A tree with
several such nodes is blamed for the first of them in pre-order, where a node comes before what is
below it and children come from left to right.

* `wellShaped_iff_firstDefect`: a tree is well-shaped exactly if none of its nodes has a defect.
* `firstDefect_pair`: of two children, the right one is blamed only if the left one is well-shaped.
-/

namespace PatternAutomata

namespace SyntaxTree

mutual

/-- The nodes of a tree in pre-order, each with everything below it. -/
def nodes : SyntaxTree → List SyntaxTree
  | .empty => [.empty]
  | .leaf c => [.leaf c]
  | .node o children => .node o children :: nodesOfAll children

/-- The nodes of a list of trees, one tree after the other. -/
def nodesOfAll : List SyntaxTree → List SyntaxTree
  | [] => []
  | t :: ts => t.nodes ++ nodesOfAll ts

end

/-- What is wrong with a node, looking no further than the number of its children. -/
def defect : SyntaxTree → Option Fault
  | .empty => some .misplacedEmpty
  | .leaf _ => none
  | .node o children =>
    if children.length = o.arity then none else some (.wrongArity o children.length)

/-- What is wrong with the first node in pre-order that something is wrong with. -/
def firstDefect (t : SyntaxTree) : Option Fault := t.nodes.findSome? defect

variable {t left right body : SyntaxTree} {o : Operator} {children : List SyntaxTree} {f : Fault}

/-- Trees are built from the leaves up, whatever the number of children. -/
theorem induction {P : SyntaxTree → Prop} (empty : P .empty) (leaf : ∀ c, P (.leaf c))
    (node : ∀ o children, (∀ t ∈ children, P t) → P (.node o children)) : ∀ t, P t
  | .empty => empty
  | .leaf c => leaf c
  | .node o children => node o children fun t _ => induction empty leaf node t

theorem mem_nodesOfAll {ts : List SyntaxTree} : t ∈ nodesOfAll ts ↔ ∃ u ∈ ts, t ∈ u.nodes := by
  induction ts with
  | nil => simp [nodesOfAll]
  | cons u ts ih => simp [nodesOfAll, ih]

theorem defect_node_eq_none_iff : (node o children).defect = none ↔ children.length = o.arity := by
  rw [defect]
  by_cases h : children.length = o.arity
  · exact iff_of_true (if_pos h) h
  · rw [if_neg h]
    exact iff_of_false (Option.some_ne_none _) h

theorem wellShaped_node_iff : (node o children).WellShaped ↔
    children.length = o.arity ∧ ∀ t ∈ children, t.WellShaped := by
  constructor
  · intro h
    cases h with
    | union hl hr => exact ⟨rfl, by simp [hl, hr]⟩
    | concatenation hl hr => exact ⟨rfl, by simp [hl, hr]⟩
    | star h => exact ⟨rfl, by simp [h]⟩
  · rintro ⟨hlength, h⟩
    cases o with
    | union =>
      obtain ⟨left, right, rfl⟩ := List.length_eq_two.mp hlength
      exact .union (h left (by simp)) (h right (by simp))
    | concatenation =>
      obtain ⟨left, right, rfl⟩ := List.length_eq_two.mp hlength
      exact .concatenation (h left (by simp)) (h right (by simp))
    | star =>
      obtain ⟨body, rfl⟩ := List.length_eq_one_iff.mp hlength
      exact .star (h body (by simp))

/-- **A tree is well-shaped if nothing is wrong with any of its nodes.** -/
theorem wellShaped_iff_defect (t : SyntaxTree) : t.WellShaped ↔ ∀ u ∈ t.nodes, u.defect = none := by
  induction t using SyntaxTree.induction with
  | empty => exact ⟨fun h => (by cases h), fun h => (by simp [nodes, defect] at h)⟩
  | leaf c => exact ⟨fun _ => (by simp [nodes, defect]), fun _ => .leaf c⟩
  | node o children ih =>
    rw [wellShaped_node_iff, nodes, List.forall_mem_cons, defect_node_eq_none_iff]
    refine and_congr_right fun _ => ⟨fun h u hu => ?_, fun h t ht => ?_⟩
    · obtain ⟨t, ht, hut⟩ := mem_nodesOfAll.mp hu
      exact (ih t ht).mp (h t ht) u hut
    · exact (ih t ht).mpr fun u hu => h u (mem_nodesOfAll.mpr ⟨t, ht, hu⟩)

theorem wellShaped_iff_firstDefect : t.WellShaped ↔ t.firstDefect = none := by
  rw [wellShaped_iff_defect, firstDefect, List.findSome?_eq_none_iff]

/-- The same, said of the two kinds of defects. -/
theorem wellShaped_iff_nodes : t.WellShaped ↔ .empty ∉ t.nodes ∧
    ∀ o children, .node o children ∈ t.nodes → children.length = o.arity := by
  rw [wellShaped_iff_defect]
  constructor
  · intro h
    exact ⟨fun hempty => (by cases h _ hempty), fun o children hnode =>
      defect_node_eq_none_iff.mp (h _ hnode)⟩
  · rintro ⟨hempty, hnode⟩ u hu
    cases u with
    | empty => exact absurd hu hempty
    | leaf c => rfl
    | node o children => exact defect_node_eq_none_iff.mpr (hnode o children hu)

/-- There are two kinds of defects. -/
theorem firstDefect_cases (h : t.firstDefect = some f) :
    f = .misplacedEmpty ∨ ∃ o n, f = .wrongArity o n := by
  obtain ⟨u, -, hu⟩ := List.exists_of_findSome?_eq_some h
  cases u with
  | empty =>
    cases hu
    exact Or.inl rfl
  | leaf c => cases hu
  | node o children =>
    rw [defect] at hu
    split at hu
    · cases hu
    · cases hu
      exact Or.inr ⟨o, children.length, rfl⟩

/-! ## The first defect of an operator -/

theorem firstDefect_of_arity_ne (h : children.length ≠ o.arity) :
    (node o children).firstDefect = some (.wrongArity o children.length) := by
  rw [firstDefect, nodes, List.findSome?_cons, defect, if_neg h]

/-- Children are blamed only if the operator above them has as many as it should. -/
theorem firstDefect_of_arity_eq (h : children.length = o.arity) :
    (node o children).firstDefect = (nodesOfAll children).findSome? defect := by
  rw [firstDefect, nodes, List.findSome?_cons, defect_node_eq_none_iff.mpr h]

theorem firstDefect_single (h : (nodesOfAll [body]).findSome? defect = some f) :
    body.firstDefect = some f := by
  rwa [nodesOfAll, nodesOfAll, List.append_nil] at h

theorem firstDefect_pair (h : (nodesOfAll [left, right]).findSome? defect = some f) :
    left.firstDefect = some f ∨ (left.WellShaped ∧ right.firstDefect = some f) := by
  rw [nodesOfAll, nodesOfAll, nodesOfAll, List.append_nil, List.findSome?_append] at h
  cases hleft : left.firstDefect with
  | none => exact Or.inr ⟨wellShaped_iff_firstDefect.mpr hleft, by rwa [← firstDefect, hleft] at h⟩
  | some g => exact Or.inl (by rwa [← firstDefect, hleft] at h)

end SyntaxTree

end PatternAutomata
