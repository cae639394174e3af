import PatternAutomata.Proofs.Automaton.Trim
import PatternAutomata.Proofs.Compiled

/-!
# No automaton of a pattern has superfluous states

Wiring a tree adds no state that it does not link with both ends, subset construction and
minimization make states of what they find from the entry, and what they find can be completed to a
word of the pattern.  So all three automata are trim.  It follows that the last two are over the
characters that occur in the words the pattern matches, and over no others.

* `ofTree_reachable`, `determinize_reachable`, `Canonical.reachable`: the stages one by one.
* `compile_trim`: the automata of a compiled pattern.
-/

namespace PatternAutomata

namespace Automaton

variable {a b d : Automaton} {p q : StateId} {t : SyntaxTree} {L : Language Char} {origin : Nat}

/-! ## The automaton of a tree -/

theorem Bare.reachable {first last : StateId} (h : Bare a t first last)
    (hb : Wired t a first last b) (hq : q ∈ b) : b.Reachable q := by
  have hentry : b.entry = some first := hb.extension.entry_eq.trans h.entry_eq
  by_cases hold : q ∈ a
  · rcases h.mem_iff.mp hold with rfl | rfl
    · exact ⟨q, hentry, .refl⟩
    · obtain ⟨w, hw⟩ := hb.exists_leads
      exact hw.reachable hentry
  · obtain ⟨w, hw⟩ := hb.accessible hq hold
    exact hw.reachable hentry

/-- **All states of the automaton of a tree can be reached.** -/
theorem ofTree_reachable (h : ofTree origin t = .ok a) (hq : q ∈ a) : a.Reachable q := by
  by_cases ht : t = .empty
  · subst ht
    obtain ⟨b, hb, bare⟩ := exists_ofTree_empty_bare origin
    rw [hb] at h
    cases h
    exact ⟨q, (or_self _).mp (bare.mem_iff.mp hq) ▸ bare.entry_eq, .refl⟩
  · obtain ⟨b, bare, heq⟩ := exists_ofTree_eq_wire origin ht
    have hshape : t.WellShaped := by
      rcases ofTree_cases origin t with ⟨_, _, _, hshape⟩ | ⟨f, hf, -⟩
      · exact hshape.resolve_left ht
      · rw [h] at hf
        cases hf
    obtain ⟨c, hc, hwired⟩ := exists_wire hshape bare.epsilon_mem bare.char_mem
      (bare.mem_iff.mpr (Or.inl rfl)) (bare.mem_iff.mpr (Or.inr rfl))
    rw [heq, hc] at h
    cases h
    exact bare.reachable hwired hq

theorem Realizes.trim (h : Realizes a t) (hreachable : ∀ q ∈ a, a.Reachable q) : a.Trim := by
  refine ⟨hreachable, fun q hq => ?_⟩
  obtain ⟨w, r, hqr, hr⟩ := h.productive q hq
  exact ⟨r, hqr.linked, hr⟩

/-! ## The deterministic automaton -/

theorem emptyWord_reachable (hq : q ∈ emptyWord origin) : (emptyWord origin).Reachable q := by
  obtain ⟨i, x, rfl, hx⟩ := (emptyWord_presents origin).origin_eq_of_mem hq
  have hi : i = 0 := by
    have := (List.getElem?_eq_some_iff.mp hx).1
    rw [List.length_singleton] at this
    omega
  subst hi
  exact ⟨_, rfl, .refl⟩

theorem reachableSubsets_of_determinize {d : Determinized} (hcharacters : a.characters ≠ ∅)
    (h : a.determinize origin = .ok d) : a.reachableSubsets = .ok d.subsets := by
  rw [determinize, if_neg hcharacters] at h
  cases hsubsets : a.reachableSubsets with
  | error e =>
    rw [hsubsets] at h
    cases h
  | ok subsets =>
    simp only [hsubsets] at h
    cases hstates : a.subsetStates origin subsets 0 subsets with
    | error e =>
      rw [hstates] at h
      cases h
    | ok states =>
      rw [hstates] at h
      cases h
      rfl

/-- The sets kept with the deterministic automaton are those that the exploration finds, and the
automaton presents them. -/
theorem explored_of_determinize {d : Determinized} (ha : a.WellFormed) (hentry : a.entry = some p)
    (hcharacters : a.characters ≠ ∅) (h : a.determinize origin = .ok d) :
    ∃ first, a.closure [p] = .ok first ∧ (∀ q, q ∈ first ↔ a.Leads p [] q) ∧
      Explored (fun s => a.nextSubsets s a.characters.toList) .breadthFirst [first] d.subsets ∧
      (∀ s ∈ d.subsets, a.Closed s ∧ s ≠ ∅) ∧ d.automaton.origin = origin ∧
      d.automaton.alphabet = a.characters ∧ a.subsetSystem.Presents d.automaton d.subsets := by
  obtain ⟨first, found, hclosure, hfirst, hfound, hexplored, hgood⟩ :=
    exists_reachableSubsets ha hentry
  obtain ⟨d', -, hd', -, -, -, horigin, halphabet, hpresents⟩ :=
    exists_determinize ha hentry hcharacters origin
  rw [h] at hd'
  cases hd'
  rw [reachableSubsets_of_determinize hcharacters h] at hfound
  cases hfound
  exact ⟨first, hclosure, hfirst, hexplored, hgood, horigin, halphabet, hpresents⟩

/-- **All states of the deterministic automaton can be reached.** -/
theorem determinize_reachable {d : Determinized} (ha : a.WellFormed)
    (h : a.determinize origin = .ok d) (hq : q ∈ d.automaton) : d.automaton.Reachable q := by
  by_cases hcharacters : a.characters = ∅
  · rw [determinize, if_pos hcharacters] at h
    cases h
    exact emptyWord_reachable hq
  · cases hentry : a.entry with
    | none =>
      rw [determinize_eq_noEntry hcharacters hentry] at h
      cases h
    | some p =>
      obtain ⟨first, -, -, hexplored, hgood, -, -, hpresents⟩ :=
        explored_of_determinize ha hentry hcharacters h
      refine hpresents.reachable hexplored (fun s hs next hnext t ht => ?_) hq
      rw [nextSubsets_eq ha (hgood s hs).1 fun l hl => (mem_characters.mp hl).2] at hnext
      cases hnext
      obtain ⟨l, -, hstep⟩ := List.mem_filterMap.mp ht
      exact ⟨l, hstep⟩

/-! ## The minimal automaton -/

/-- **All states of the canonical automaton of a language can be reached.** -/
theorem Canonical.reachable (h : a.Canonical L) (hq : q ∈ a) : a.Reachable q := by
  obtain ⟨f, items, -, hexplored, hpresents⟩ := h.exists_items
  refine hpresents.reachable hexplored (fun g _ next hnext g' hg' => ?_) hq
  cases hnext
  obtain ⟨l, -, hstep⟩ := List.mem_filterMap.mp hg'
  exact ⟨l, hstep⟩

end Automaton

/-! ## Compiled patterns -/

namespace Compiled

/-- The characters that occur in the words a pattern matches. -/
def usedCharacters (c : Compiled) : Set Char := {x | ∃ w, c.isMatch w = .ok true ∧ x ∈ w}

end Compiled

open Compiled

variable {p : List Char} {c : Compiled}

/-- **No automaton of a compiled pattern has superfluous states**, and the deterministic ones have
no superfluous letters: their characters are those of the words the pattern matches. -/
theorem compile_trim (hp : compile p = .ok c) :
    c.nfa.Trim ∧ c.dfa.Trim ∧ c.minimal.Trim ∧
    c.dfa.DeterministicOver c.usedCharacters ∧ c.minimal.DeterministicOver c.usedCharacters := by
  have h := faithful_of_compile hp
  obtain ⟨htree, hdfa⟩ := staged_of_compile hp
  have hcharacters : ∀ x, x ∈ c.usedCharacters ↔ ∃ w ∈ c.tree.language, x ∈ w := fun x => by
    simp only [usedCharacters, Set.mem_ofPred_eq, h.isMatch_eq_true_iff]
  exact ⟨h.realizes.trim fun q => Automaton.ofTree_reachable htree,
    h.decides.trim fun q => Automaton.determinize_reachable h.realizes.wellFormed hdfa,
    h.canonical.decides.trim fun q => h.canonical.reachable,
    h.decides.deterministicOver hcharacters, h.canonical.decides.deterministicOver hcharacters⟩

/-- A star before a letter: its body is passed any number of times, and nothing is superfluous. -/
theorem compile_trim_star : ∃ c, compile ['a', '*', 'b'] = .ok c ∧ c.nfa.Trim ∧ c.dfa.Trim ∧
    c.minimal.Trim ∧ c.minimal.DeterministicOver c.usedCharacters := by
  have htokens : readTokens ['a', '*', 'b'] = .ok [⟨.literal 'a', 0⟩, ⟨.operator .star, 1⟩,
    ⟨.operator .concatenation, 2⟩, ⟨.literal 'b', 2⟩] := by cbv
  have hstar : Derives .factor [.literal 'a', .operator .star] (.node .star [.leaf 'a']) :=
    .star (.atom (.literal 'a'))
  obtain ⟨c, hc, -⟩ := exists_compile_of_derives htokens (List.cons_ne_nil _ _)
    (.term (.concatenation hstar (.factor (.atom (.literal 'b')))))
  obtain ⟨hnfa, hdfa, hminimal, -, hover⟩ := compile_trim hc
  exact ⟨c, hc, hnfa, hdfa, hminimal, hover⟩

end PatternAutomata
