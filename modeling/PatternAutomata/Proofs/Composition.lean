import PatternAutomata.Proofs.Compiled
import PatternAutomata.Proofs.Pattern.Concatenation

/-!
# Patterns made of patterns

Put into parentheses, a pattern can be made a part of another one: `(p)|(q)`, `(p)(q)` and `(p)*` are
the union, the concatenation and the star of what `p` and `q` stand for (`compile_compose`).

This holds of texts, whatever is written in them: escapes, groups that are empty or become empty, and
concatenations that are left out or written out.  `Reading` collects what the stages of parsing make
of one pattern.  Each of the stages treats a part in parentheses on its own, so the readings of the
parts are put together to that of the whole (`parse_union`, `parse_concatenation`, `parse_star`).
-/

namespace PatternAutomata

variable {p q : List Char} {s t : SyntaxTree} {tokens w : List Token}

/-! ## Parts of patterns -/

/-- What the stages of parsing make of a pattern: its tokens, those of them that are left without
empty groups, and a tree that these derive when concatenation is written out. -/
structure Reading (p : List Char) (tokens w : List Token) (t : SyntaxTree) : Prop where
  tokenize_eq : tokenize p = .ok tokens
  erase_eq : withoutEmptyGroups tokens = .ok w
  derives : Derives .expression ((connectOperands w).map Token.symbol) t

theorem exists_reading (hp : p ≠ []) (h : parse p = .ok t) : ∃ tokens w, Reading p tokens w t := by
  obtain ⟨tokens, w, htokens, hw, hderives⟩ := (parse_eq_ok_iff hp).mp h
  exact ⟨tokens, w, htokens, hw, hderives⟩

namespace Reading

theorem parse_eq (h : Reading p tokens w t) (hp : p ≠ []) : parse p = .ok t :=
  (parse_eq_ok_iff hp).mpr ⟨tokens, w, h.tokenize_eq, h.erase_eq, h.derives⟩

theorem ne_nil (h : Reading p tokens w t) : w ≠ [] := by
  rintro rfl
  exact h.derives.ne_nil rfl

theorem balanced (h : Reading p tokens w t) : Balanced (w.map Token.symbol) :=
  (level_connectOperands w 0).symm.trans h.derives.balanced

theorem tokenizeFrom_parenthesize (h : Reading p tokens w t) (k : Nat) :
    tokenizeFrom k (parenthesize p) = .ok (Token.enclose k p.length tokens) :=
  PatternAutomata.tokenizeFrom_parenthesize h.tokenize_eq k

theorem eraseEmptyGroups_enclose (h : Reading p tokens w t) (k length : Nat)
    (before rest : List Token) :
    eraseEmptyGroups before (Token.enclose k length tokens ++ rest) =
      eraseEmptyGroups ((Token.enclose k length w).reverse ++ before) rest :=
  PatternAutomata.eraseEmptyGroups_enclose h.erase_eq h.ne_nil h.balanced k length before rest

/-- A part in parentheses at the end of a text. -/
theorem eraseEmptyGroups_enclose_end (h : Reading p tokens w t) (k length : Nat)
    (before : List Token) : eraseEmptyGroups before (Token.enclose k length tokens) =
      .ok (before.reverse ++ Token.enclose k length w) := by
  have hend := h.eraseEmptyGroups_enclose k length before []
  rwa [List.append_nil, eraseEmptyGroups_nil, List.reverse_append, List.reverse_reverse] at hend

/-- In parentheses, a pattern is an operand. -/
theorem derives_enclose (h : Reading p tokens w t) (k length : Nat) :
    Derives .atom ((Token.enclose k length (connectOperands w)).map Token.symbol) t := by
  rw [Token.map_symbol_enclose]
  exact .group h.derives

end Reading

/-! ## Composed patterns -/

theorem parenthesize_append_ne_nil (p q : List Char) : parenthesize p ++ q ≠ [] :=
  List.cons_ne_nil _ _

theorem parse_union (hp : p ≠ []) (hq : q ≠ []) (hs : parse p = .ok s) (ht : parse q = .ok t) :
    parse (parenthesize p ++ '|' :: parenthesize q) = .ok (.node .union [s, t]) := by
  obtain ⟨tokens, w, h⟩ := exists_reading hp hs
  obtain ⟨tokens', w', h'⟩ := exists_reading hq ht
  obtain ⟨k, hk⟩ : ∃ k, 0 + (parenthesize p).length = k := ⟨_, rfl⟩
  have hreading : Reading (parenthesize p ++ '|' :: parenthesize q)
      (Token.enclose 0 p.length tokens ++ ⟨.operator .union, k⟩ ::
        Token.enclose (k + 1) q.length tokens')
      (Token.enclose 0 p.length w ++ ⟨.operator .union, k⟩ :: Token.enclose (k + 1) q.length w')
      (.node .union [s, t]) := by
    refine ⟨?_, ?_, ?_⟩
    · rw [tokenize, tokenizeFrom_append (h.tokenizeFrom_parenthesize 0), hk,
        tokenizeFrom_cons (by decide), h'.tokenizeFrom_parenthesize]
      rfl
    · rw [withoutEmptyGroups, h.eraseEmptyGroups_enclose, eraseEmptyGroups_cons Symbol.noConfusion,
        h'.eraseEmptyGroups_enclose_end]
      simp
    · rw [connectOperands_enclose, connectOperandsAfter_cons rfl, connectOperandsAfter_eq rfl,
        connectOperands_enclose_end, List.map_append]
      exact .union (.factor (.atom (h.derives_enclose _ _)))
        (.term (.factor (.atom (h'.derives_enclose _ _))))
  exact hreading.parse_eq (parenthesize_append_ne_nil _ _)

theorem parse_concatenation (hp : p ≠ []) (hq : q ≠ []) (hs : parse p = .ok s)
    (ht : parse q = .ok t) :
    parse (parenthesize p ++ parenthesize q) = .ok (.node .concatenation [s, t]) := by
  obtain ⟨tokens, w, h⟩ := exists_reading hp hs
  obtain ⟨tokens', w', h'⟩ := exists_reading hq ht
  obtain ⟨k, hk⟩ : ∃ k, 0 + (parenthesize p).length = k := ⟨_, rfl⟩
  have hreading : Reading (parenthesize p ++ parenthesize q)
      (Token.enclose 0 p.length tokens ++ Token.enclose k q.length tokens')
      (Token.enclose 0 p.length w ++ Token.enclose k q.length w')
      (.node .concatenation [s, t]) := by
    refine ⟨?_, ?_, ?_⟩
    · rw [tokenize, tokenizeFrom_append (h.tokenizeFrom_parenthesize 0), hk,
        h'.tokenizeFrom_parenthesize]
      rfl
    · rw [withoutEmptyGroups, h.eraseEmptyGroups_enclose, h'.eraseEmptyGroups_enclose_end]
      simp
    · -- the first group ends an operand, and the second one begins one
      have hmissing : connectOperandsAfter ⟨.closing, 0 + 1 + p.length⟩ (Token.enclose k q.length w') =
          ⟨.operator .concatenation, k⟩ :: connectOperands (Token.enclose k q.length w') :=
        connectOperandsAfter_cons_of_missing rfl rfl _
      rw [connectOperands_enclose, hmissing, connectOperands_enclose_end, List.map_append]
      exact .term (.concatenation (.atom (h.derives_enclose _ _))
        (.factor (.atom (h'.derives_enclose _ _))))
  exact hreading.parse_eq (parenthesize_append_ne_nil _ _)

theorem parse_star (hp : p ≠ []) (hs : parse p = .ok s) :
    parse (parenthesize p ++ ['*']) = .ok (.node .star [s]) := by
  obtain ⟨tokens, w, h⟩ := exists_reading hp hs
  obtain ⟨k, hk⟩ : ∃ k, 0 + (parenthesize p).length = k := ⟨_, rfl⟩
  have hreading : Reading (parenthesize p ++ ['*'])
      (Token.enclose 0 p.length tokens ++ [⟨.operator .star, k⟩])
      (Token.enclose 0 p.length w ++ [⟨.operator .star, k⟩]) (.node .star [s]) := by
    refine ⟨?_, ?_, ?_⟩
    · rw [tokenize, tokenizeFrom_append (h.tokenizeFrom_parenthesize 0), hk]
      rfl
    · rw [withoutEmptyGroups, h.eraseEmptyGroups_enclose, eraseEmptyGroups_singleton]
      simp
    · rw [connectOperands_enclose, connectOperandsAfter_cons rfl, List.map_append]
      exact .term (.factor (.star (.atom (h.derives_enclose _ _))))
  exact hreading.parse_eq (parenthesize_append_ne_nil _ _)

open Compiled

/-- **Compiling is compositional.**  Patterns that compile can be put into parentheses and be joined,
and the text compiles: its tree joins their trees, and it matches what the operator makes of the words
that they match. -/
theorem compile_compose {c d : Compiled} (hp : p ≠ []) (hq : q ≠ []) (hc : compile p = .ok c)
    (hd : compile q = .ok d) :
    (∃ u, compile (parenthesize p ++ '|' :: parenthesize q) = .ok u ∧
      u.tree = .node .union [c.tree, d.tree] ∧ ∀ w, ∃ x, u.isMatch w = .ok x ∧
        (x = true ↔ c.isMatch w = .ok true ∨ d.isMatch w = .ok true)) ∧
    (∃ u, compile (parenthesize p ++ parenthesize q) = .ok u ∧
      u.tree = .node .concatenation [c.tree, d.tree] ∧ ∀ w, ∃ x, u.isMatch w = .ok x ∧
        (x = true ↔ ∃ w₁ w₂, w₁ ++ w₂ = w ∧ c.isMatch w₁ = .ok true ∧ d.isMatch w₂ = .ok true)) ∧
    ∃ u, compile (parenthesize p ++ ['*']) = .ok u ∧ u.tree = .node .star [c.tree] ∧
      ∀ w, ∃ x, u.isMatch w = .ok x ∧
        (x = true ↔ ∃ pieces : List (List Char), pieces.flatten = w ∧
          ∀ v ∈ pieces, c.isMatch v = .ok true) := by
  have hs := parse_of_compile hc
  have ht := parse_of_compile hd
  have hcmatch := fun w => (faithful_of_compile hc).isMatch_eq_true_iff (w := w)
  have hdmatch := fun w => (faithful_of_compile hd).isMatch_eq_true_iff (w := w)
  refine ⟨?union, ?concatenation, ?star⟩
  case union =>
    obtain ⟨u, hu, htree⟩ := exists_compile_of_parse (parse_union hp hq hs ht)
    refine ⟨u, hu, htree, fun w => ?_⟩
    obtain ⟨x, hx, hiff⟩ := (faithful_of_compile hu).isMatch_spec w
    rw [htree, SyntaxTree.mem_language_union, ← hcmatch, ← hdmatch] at hiff
    exact ⟨x, hx, hiff⟩
  case concatenation =>
    obtain ⟨u, hu, htree⟩ := exists_compile_of_parse (parse_concatenation hp hq hs ht)
    refine ⟨u, hu, htree, fun w => ?_⟩
    obtain ⟨x, hx, hiff⟩ := (faithful_of_compile hu).isMatch_spec w
    rw [htree, SyntaxTree.mem_language_concatenation] at hiff
    refine ⟨x, hx, hiff.trans ?_⟩
    simp only [hcmatch, hdmatch]
    constructor
    · rintro ⟨w₁, h₁, w₂, h₂, hw⟩
      exact ⟨w₁, w₂, hw, h₁, h₂⟩
    · rintro ⟨w₁, w₂, hw, h₁, h₂⟩
      exact ⟨w₁, h₁, w₂, h₂, hw⟩
  case star =>
    obtain ⟨u, hu, htree⟩ := exists_compile_of_parse (parse_star hp hs)
    refine ⟨u, hu, htree, fun w => ?_⟩
    obtain ⟨x, hx, hiff⟩ := (faithful_of_compile hu).isMatch_spec w
    rw [htree, SyntaxTree.mem_language_star] at hiff
    refine ⟨x, hx, hiff.trans ?_⟩
    simp only [hcmatch, eq_comm (a := w)]

/-- An empty group at the end of one part, and an escape and a union in the other: `(a())(\*|b)`. -/
theorem compile_compose_escape : ∃ c d u, compile ['a', '(', ')'] = .ok c ∧
    compile ['\\', '*', '|', 'b'] = .ok d ∧
    compile (parenthesize ['a', '(', ')'] ++ parenthesize ['\\', '*', '|', 'b']) = .ok u ∧
    u.tree = .node .concatenation [.leaf 'a', .node .union [.leaf '*', .leaf 'b']] ∧
    u.isMatch ['a', '*'] = .ok true := by
  have htokens : readTokens ['a', '(', ')'] = .ok [⟨.literal 'a', 0⟩] := by cbv
  have htokens' : readTokens ['\\', '*', '|', 'b'] =
      .ok [⟨.literal '*', 0⟩, ⟨.operator .union, 2⟩, ⟨.literal 'b', 3⟩] := by cbv
  obtain ⟨c, hc, hctree⟩ := exists_compile_of_derives htokens (List.cons_ne_nil _ _)
    (.term (.factor (.atom (.literal 'a'))))
  obtain ⟨d, hd, hdtree⟩ := exists_compile_of_derives htokens' (List.cons_ne_nil _ _)
    (.union (.factor (.atom (.literal '*'))) (.term (.factor (.atom (.literal 'b')))))
  obtain ⟨-, ⟨u, hu, htree, hmatch⟩, -⟩ :=
    compile_compose (List.cons_ne_nil _ _) (List.cons_ne_nil _ _) hc hd
  obtain ⟨x, hx, hiff⟩ := hmatch ['a', '*']
  have hcmatch : c.isMatch ['a'] = .ok true := by
    rw [(faithful_of_compile hc).isMatch_eq_true_iff, hctree, SyntaxTree.mem_language_leaf]
  have hdmatch : d.isMatch ['*'] = .ok true := by
    rw [(faithful_of_compile hd).isMatch_eq_true_iff, hdtree]
    exact SyntaxTree.mem_language_union.mpr (Or.inl (SyntaxTree.mem_language_leaf.mpr rfl))
  rw [hctree, hdtree] at htree
  rw [hiff.mpr ⟨['a'], ['*'], rfl, hcmatch, hdmatch⟩] at hx
  exact ⟨c, d, u, hc, hd, hu, htree, hx⟩

end PatternAutomata
