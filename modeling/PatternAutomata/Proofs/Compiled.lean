import PatternAutomata.Compiled
import PatternAutomata.Proofs.Automaton.Extensionality
import PatternAutomata.Proofs.Determinization
import PatternAutomata.Proofs.Minimal.LowerBound
import PatternAutomata.Proofs.Pattern.Parse
import PatternAutomata.Proofs.Thompson

/-!
# Compiled patterns mean their trees

Every tree that parsing yields goes through all stages, and every stage keeps its language
(`Compiled.exists_ofTree`).  What the stages leave is collected in `Compiled.Faithful`, and from it
follows what compiled patterns match.

* Compiling fails exactly as parsing does, and all stages of a compiled pattern decide the language
  of its tree.
* Patterns match the same words exactly if their minimal automata have the same dump.
* An automaton that accepts the same words has at least as many states that can be reached as the
  minimal automaton has states.
-/

namespace PatternAutomata

variable {p : List Char} {tokens : List Token} {t : SyntaxTree} {c : Compiled}

namespace Compiled

open Automaton

/-- The automata of a compiled pattern are what the stages make of its tree. -/
structure Staged (c : Compiled) : Prop where
  nfa_eq : Automaton.ofTree 0 c.tree = .ok c.nfa
  determinized_eq : c.nfa.determinize 1 = .ok c.determinized

/-- Every stage of a compiled pattern has the language of its tree. -/
structure Faithful (c : Compiled) : Prop where
  realizes : Realizes c.nfa c.tree
  decides : c.dfa.Decides c.tree.language
  canonical : c.minimal.Canonical c.tree.language
  origin_eq : c.minimal.origin = 2

/-- The deterministic automaton of the automaton of a tree exists and decides the language of the
tree. -/
theorem exists_dfa (ht : t = .empty ∨ t.WellShaped) {a : Automaton} (ha : Realizes a t)
    (origin : Nat) : ∃ d, a.determinize origin = .ok d ∧ d.automaton.Decides t.language := by
  have hmem : ∀ l, l ∈ a.characters ↔ ∃ x ∈ t.leaves, l = .char x := fun l => by
    rw [mem_characters, ha.alphabet_eq, mem_alphabetOfTree]
    constructor
    · rintro ⟨rfl | h, hl⟩
      · exact absurd rfl hl
      · exact h
    · rintro ⟨x, hx, rfl⟩
      exact ⟨Or.inr ⟨x, hx, rfl⟩, Letter.noConfusion⟩
  rcases ht with rfl | ht
  · have hnone : a.characters = ∅ := OrderedSet.ext_mem fun l => by
      rw [hmem]
      simp [SyntaxTree.leaves, OrderedSet.not_mem_empty]
    exact ⟨_, if_pos hnone, emptyWord_decides origin⟩
  · obtain ⟨p, hentry⟩ := ha.exists_entry
    refine exists_determinize_decides ha.wellFormed hentry ha.productive ha.accepts_iff ?_
      (fun l => ?_) origin
    · intro hnone
      obtain ⟨x, hx⟩ := ht.exists_mem_leaves
      have hx' := (hmem (.char x)).mpr ⟨x, hx, rfl⟩
      rw [hnone] at hx'
      exact OrderedSet.not_mem_empty _ hx'
    · rw [hmem]
      constructor
      · rintro ⟨x, hx, rfl⟩
        exact ⟨x, rfl, ht.mem_leaves_iff.mp hx⟩
      · rintro ⟨x, rfl, hx⟩
        exact ⟨x, ht.mem_leaves_iff.mpr hx, rfl⟩

/-- **The trees that parsing yields go through all stages, which keep their language.** -/
theorem exists_ofTree (p : List Char) (tokens : List Token) (ht : t = .empty ∨ t.WellShaped) :
    ∃ c, ofTree p tokens t = .ok c ∧ c.tree = t ∧ c.Staged ∧ c.Faithful := by
  obtain ⟨a, ha, hrealizes⟩ := Automaton.exists_ofTree 0 ht
  obtain ⟨d, hd, hdecides⟩ := exists_dfa ht hrealizes 1
  obtain ⟨P, b, hP, hb, horigin, hcanonical⟩ := hdecides.exists_canonical 2
  exact ⟨⟨p, tokens, t, a, d, P, b⟩, by simp only [ofTree, ha, hd, hP, hb], rfl, ⟨ha, hd⟩,
    ⟨hrealizes, hdecides, hcanonical, horigin⟩⟩

/-- Compiling fails exactly as parsing does. -/
theorem compile_cases (p : List Char) :
    (∃ e, parse p = .error e ∧ compile p = .error (.malformed e)) ∨
    ∃ c, compile p = .ok c ∧ parse p = .ok c.tree ∧ c.Staged ∧ c.Faithful := by
  rw [parse, compile]
  cases readTokens p with
  | error e => exact Or.inl ⟨e, rfl, rfl⟩
  | ok tokens =>
    dsimp only
    cases htree : SyntaxTree.ofTokens tokens with
    | error e => exact Or.inl ⟨e, rfl, rfl⟩
    | ok t =>
      obtain ⟨c, hc, htree', hspec⟩ := exists_ofTree p tokens (wellShaped_of_ofTokens htree)
      exact Or.inr ⟨c, by simp only [hc], by rw [htree'], hspec⟩

theorem spec_of_compile (h : compile p = .ok c) :
    parse p = .ok c.tree ∧ c.Staged ∧ c.Faithful := by
  rcases compile_cases p with ⟨e, -, he⟩ | ⟨c', hc', hspec⟩
  · rw [he] at h
    cases h
  · rw [hc'] at h
    cases h
    exact hspec

theorem parse_of_compile (h : compile p = .ok c) : parse p = .ok c.tree := (spec_of_compile h).1

theorem staged_of_compile (h : compile p = .ok c) : c.Staged := (spec_of_compile h).2.1

theorem faithful_of_compile (h : compile p = .ok c) : c.Faithful := (spec_of_compile h).2.2

/-- A pattern that has a tree compiles, with that tree. -/
theorem exists_compile_of_parse (h : parse p = .ok t) : ∃ c, compile p = .ok c ∧ c.tree = t := by
  rcases compile_cases p with ⟨e, he, -⟩ | ⟨c, hc, htree, -⟩
  · rw [h] at he
    cases he
  · rw [h] at htree
    exact ⟨c, hc, (Except.ok.inj htree).symm⟩

/-- A pattern whose tokens derive a tree compiles, with that tree. -/
theorem exists_compile_of_derives (htokens : readTokens p = .ok tokens) (hne : tokens ≠ [])
    (h : Derives .expression (tokens.map Token.symbol) t) :
    ∃ c, compile p = .ok c ∧ c.tree = t := by
  refine exists_compile_of_parse ?_
  rw [parse, htokens]
  exact (ofTokens_eq_ok_iff hne t).mpr h

namespace Faithful

theorem isMatch_spec (h : c.Faithful) (w : List Char) :
    ∃ x, c.isMatch w = .ok x ∧ (x = true ↔ w ∈ c.tree.language) :=
  h.canonical.decides.accepts_iff w

theorem isMatch_eq_true_iff (h : c.Faithful) {w : List Char} :
    c.isMatch w = .ok true ↔ w ∈ c.tree.language := by
  obtain ⟨x, hx, hiff⟩ := h.isMatch_spec w
  rw [hx, Except.ok.injEq, hiff]

/-- Patterns that match the same words have the same language. -/
theorem isMatch_eq_iff {c' : Compiled} (h : c.Faithful) (h' : c'.Faithful) :
    (∀ w, c.isMatch w = c'.isMatch w) ↔ c.tree.language = c'.tree.language := by
  constructor
  · intro heq
    refine Language.ext fun w => ?_
    rw [← h.isMatch_eq_true_iff, ← h'.isMatch_eq_true_iff, heq]
  · intro heq w
    obtain ⟨x, hx, hiff⟩ := h.isMatch_spec w
    obtain ⟨x', hx', hiff'⟩ := h'.isMatch_spec w
    rw [heq, ← hiff'] at hiff
    rw [hx, hx', Bool.eq_iff_iff.mpr hiff]

end Faithful

end Compiled

open Compiled

/-- **Compiling fails only as parsing does.**  Otherwise the minimal automaton, the deterministic
automaton and the automaton of the tree all answer on every word, and answer whether the word belongs
to the language of the tree. -/
theorem compile_decides (p : List Char) :
    (∃ e, parse p = .error e ∧ compile p = .error (.malformed e)) ∨
    ∃ c, compile p = .ok c ∧ parse p = .ok c.tree ∧ ∀ w, ∃ x, c.isMatch w = .ok x ∧
      c.dfa.accepts w = .ok x ∧ c.nfa.simulates w = .ok x ∧
      (x = true ↔ w ∈ c.tree.language) := by
  rcases compile_cases p with hmalformed | ⟨c, hc, htree, -, h⟩
  · exact Or.inl hmalformed
  · refine Or.inr ⟨c, hc, htree, fun w => ?_⟩
    obtain ⟨q, hentry⟩ := h.realizes.exists_entry
    obtain ⟨x, hx, hiff⟩ := h.isMatch_spec w
    obtain ⟨y, hy, hiff'⟩ := h.decides.accepts_iff w
    obtain ⟨z, hz, hiff''⟩ := Automaton.simulates_spec h.realizes.wellFormed hentry w
    have hyx : y = x := Bool.eq_iff_iff.mpr (hiff'.trans hiff.symm)
    have hzx : z = x :=
      Bool.eq_iff_iff.mpr (hiff''.trans ((h.realizes.accepts_iff w).trans hiff.symm))
    exact ⟨x, hx, hyx ▸ hy, hzx ▸ hz, hiff⟩

/-- **The minimal automaton is a canonical form of the language.**  Two patterns match the same words
exactly if their minimal automata have the same dump: the same alphabet, number of states and entry,
and the same exits and targets at every index. -/
theorem isMatch_eq_iff_dump_eq {p q : List Char} {c c' : Compiled} (hp : compile p = .ok c)
    (hq : compile q = .ok c') :
    (∀ w, c.isMatch w = c'.isMatch w) ↔ c.minimal.dump = c'.minimal.dump := by
  have h := faithful_of_compile hp
  have h' := faithful_of_compile hq
  have horigin : c.minimal.origin = c'.minimal.origin := h.origin_eq.trans h'.origin_eq.symm
  constructor
  · intro heq
    have hcanonical := h'.canonical
    rw [← (h.isMatch_eq_iff h').mp heq] at hcanonical
    rw [h.canonical.eq hcanonical horigin]
  · intro hdump w
    have heq := Automaton.eq_of_dump_eq h.canonical.decides.wellFormed
      h'.canonical.decides.wellFormed horigin hdump
    rw [isMatch, isMatch, heq]

/-- A second star changes nothing about the minimal automaton. -/
theorem dump_star_star : ∃ c c', compile ['a', '*', '*'] = .ok c ∧ compile ['a', '*'] = .ok c' ∧
    c.minimal.dump = c'.minimal.dump := by
  have htokens : readTokens ['a', '*', '*'] =
      .ok [⟨.literal 'a', 0⟩, ⟨.operator .star, 1⟩, ⟨.operator .star, 2⟩] := by cbv
  have htokens' : readTokens ['a', '*'] = .ok [⟨.literal 'a', 0⟩, ⟨.operator .star, 1⟩] := by cbv
  have hstar : Derives .factor [.literal 'a', .operator .star] (.node .star [.leaf 'a']) :=
    .star (.atom (.literal 'a'))
  obtain ⟨c, hc, htree⟩ := exists_compile_of_derives htokens (List.cons_ne_nil _ _)
    (.term (.factor (.star hstar)))
  obtain ⟨c', hc', htree'⟩ := exists_compile_of_derives htokens' (List.cons_ne_nil _ _)
    (.term (.factor hstar))
  refine ⟨c, c', hc, hc', (isMatch_eq_iff_dump_eq hc hc').mp ?_⟩
  rw [(faithful_of_compile hc).isMatch_eq_iff (faithful_of_compile hc'), htree, htree']
  exact kstar_idem _

/-- **No automaton that accepts the same words has fewer reachable states.**  The automaton can come
about by any operations; it can have dead states and letters that the pattern has not. -/
theorem minimal_size_le {c : Compiled} {d : Automaton} (hp : compile p = .ok c) (hd : d.Built)
    (haccepts : ∀ w, d.accepts w = c.isMatch w) :
    ∃ s, d.reachable = .ok s ∧ c.minimal.size ≤ s.size := by
  have h := faithful_of_compile hp
  refine h.canonical.size_le hd.wellFormed fun w => ?_
  rw [haccepts]
  exact h.isMatch_spec w

/-- An automaton for the word `a` with a dead state, which `b` leads to. -/
def deadEnd : Automaton where
  origin := 0
  alphabet := .ofList [.char 'a', .char 'b']
  states := #[⟨⟨0, 0⟩, true, false, .ofList [⟨.char 'a', ⟨1, 0⟩⟩, ⟨.char 'b', ⟨2, 0⟩⟩]⟩,
    ⟨⟨1, 0⟩, false, true, ∅⟩, ⟨⟨2, 0⟩, false, false, ∅⟩]
  entry := some ⟨0, 0⟩

theorem built_deadEnd : deadEnd.Built := by
  have h : (Automaton.empty 0 (.ofList [.char 'a', .char 'b'])).addState.addState.addState.Built :=
    .addState (.addState (.addState (.empty _ _)))
  have ha := Automaton.Built.addArc (p := ⟨0, 0⟩) (l := .char 'a') (q := ⟨1, 0⟩) h rfl
  have hb := Automaton.Built.addArc (p := ⟨0, 0⟩) (l := .char 'b') (q := ⟨2, 0⟩) ha rfl
  exact .setExit (q := ⟨1, 0⟩) (.setEntry (q := ⟨0, 0⟩) hb rfl) rfl

theorem accepts_deadEnd (w : List Char) : deadEnd.accepts w = .ok (decide (w = ['a'])) := by
  rcases w with _ | ⟨x, w⟩
  · rfl
  · by_cases ha : x = 'a'
    · subst ha
      cases w <;> rfl
    · by_cases hb : x = 'b'
      · subst hb
        cases w <;> rfl
      · obtain ⟨s, hs, harcs⟩ : ∃ s, deadEnd.state ⟨0, 0⟩ = .ok s ∧
            s.arcs = .ofList [⟨.char 'a', ⟨1, 0⟩⟩, ⟨.char 'b', ⟨2, 0⟩⟩] := ⟨_, rfl, rfl⟩
        have hnone : s.soleTarget (.char x) = .ok none :=
          Automaton.soleTarget_eq_ok_iff.mpr fun q => by
            simp [harcs, OrderedSet.mem_ofList, ha, hb]
        have hentry : deadEnd.requireEntry = .ok ⟨0, 0⟩ := rfl
        simp only [Automaton.accepts, Automaton.walk, hentry, Automaton.walkFrom, hs, hnone,
          Automaton.endsAtExit]
        simp [ha]

/-- The bound, for the pattern of a single letter and the automaton with a dead state. -/
theorem minimal_size_le_deadEnd : ∃ c s, compile ['a'] = .ok c ∧ deadEnd.reachable = .ok s ∧
    c.minimal.size ≤ s.size := by
  have htokens : readTokens ['a'] = .ok [⟨.literal 'a', 0⟩] := by cbv
  obtain ⟨c, hc, htree⟩ := exists_compile_of_derives htokens (List.cons_ne_nil _ _)
    (.term (.factor (.atom (.literal 'a'))))
  have haccepts : ∀ w, deadEnd.accepts w = c.isMatch w := fun w => by
    obtain ⟨x, hx, hiff⟩ := (faithful_of_compile hc).isMatch_spec w
    rw [htree, SyntaxTree.mem_language_leaf] at hiff
    rw [accepts_deadEnd, hx, Bool.eq_iff_iff.mpr (decide_eq_true_iff.trans hiff.symm)]
  obtain ⟨s, hs, hle⟩ := minimal_size_le hc built_deadEnd haccepts
  exact ⟨c, s, hc, hs, hle⟩

end PatternAutomata
