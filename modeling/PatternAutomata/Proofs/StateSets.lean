import PatternAutomata.Proofs.Automaton.Runs
import PatternAutomata.Proofs.BreadthFirst
import PatternAutomata.Proofs.Stages

/-!
# The states of the subset construction

The subset construction makes a state of each set of states that the automaton can be in after
some word, unless the set is empty.  `StateSets` says this of the list of sets that is kept with the
result, and says what the states made of them are like, whatever cycles of epsilon arcs the automaton
has.

What the exploration remembers, what waits to be expanded and what has been expanded is all gone
from the statement.  It matters only in that every set is met once, in the order of the least words
that lead to the sets, which numbers the states (`Explored.pairwise_shortlex`).

* `subsetSystem_step_iff`: the next set holds what one character leads to, epsilons around it
  included.
* `mem_subsets_iff`: the sets are those that words lead to.
* `determinize_stateSets`: any automaton with an entry and a character has such a result.
-/

namespace PatternAutomata

namespace Automaton

variable {a : Automaton} {p q r : StateId} {s t first : OrderedSet StateId} {c : Char}
  {w : List Char} {subsets : List (OrderedSet StateId)}

/-! ## The sets -/

theorem Leads.char_mem (ha : a.WellFormed) (h : a.Leads p w q) :
    ∀ c ∈ w, Letter.char c ∈ a.alphabet := by
  induction h with
  | refl q => exact fun c hc => absurd hc List.not_mem_nil
  | epsilon _ _ ih => exact ih
  | char harc _ ih => exact List.forall_mem_cons.mpr ⟨ha.letter_mem harc, ih⟩

/-- A closed set steps to the set of what a character leads to, unless that is empty. -/
theorem subsetSystem_step_iff (ha : a.WellFormed) (hs : a.Closed s) (hne : s ≠ ∅) (c : Char) :
    a.subsetSystem.step s (.char c) = some t ↔
      t ≠ ∅ ∧ ∀ q, q ∈ t ↔ ∃ p ∈ s, a.Leads p [c] q := by
  have hrun : a.subsetSystem.run s ([c].map .char) = a.subsetSystem.step s (.char c) := by
    show (a.subsetSystem.step s (.char c)).bind some = _
    exact Option.bind_fun_some _
  rw [← hrun]
  rcases subsetSystem_run_spec ha hs hne [c] with ⟨hnone, hstuck⟩ | ⟨u, hu, -, hu_ne, hu_mem⟩
  · rw [hnone]
    refine ⟨fun h => (by cases h), fun h => ?_⟩
    obtain ⟨q, hq⟩ := exists_mem_of_ne_empty h.1
    obtain ⟨p, hp, hpq⟩ := (h.2 q).mp hq
    exact absurd hpq (hstuck p hp q)
  · rw [hu, Option.some.injEq]
    constructor
    · intro h
      exact h ▸ ⟨hu_ne, hu_mem⟩
    · intro h
      exact OrderedSet.ext_mem fun q => (hu_mem q).trans (h.2 q).symm

/-- The subset construction expands closed sets by their steps on the characters. -/
theorem expands_nextSubsets (ha : a.WellFormed) :
    a.subsetSystem.Expands (fun s => a.nextSubsets s a.characters.toList) a.Closed
      a.characters.toList where
  ascending := a.characters.ascending
  successors_eq _ hs := nextSubsets_eq ha hs fun _ hl => (mem_characters.mp hl).2
  closed _ hs _ _ hstep :=
    ⟨(closed_of_step ha hs hstep).2.2, (closed_of_step ha hs hstep).1⟩

/-- **The sets are those that words lead to.** -/
theorem mem_subsets_iff (ha : a.WellFormed) (hclosed : a.Closed first)
    (hfirst : ∀ q, q ∈ first ↔ a.Leads p [] q)
    (hexplored : Explored (fun s => a.nextSubsets s a.characters.toList) .breadthFirst [first]
      subsets) (hne : s ≠ ∅) :
    s ∈ subsets ↔ ∃ w, (∀ c ∈ w, Letter.char c ∈ a.alphabet) ∧ ∀ q, q ∈ s ↔ a.Leads p w q := by
  have hp : p ∈ first := (hfirst p).mpr (.refl p)
  have hfirst_ne : first ≠ ∅ := ne_empty_of_mem hp
  rw [hexplored.mem_iff_run (expands_nextSubsets ha) hclosed]
  constructor
  · intro h
    obtain ⟨w, hw⟩ := h
    obtain ⟨u, rfl⟩ := exists_word_of_run hw
    rcases subsetSystem_run_spec ha hclosed hfirst_ne u with ⟨hnone, -⟩ | ⟨t, ht, -, -, hmem⟩
    · rw [hw] at hnone
      cases hnone
    · rw [hw] at ht
      cases ht
      have hs : ∀ q, q ∈ s ↔ a.Leads p u q := fun q => (hmem q).trans (leads_closure_iff hfirst u)
      obtain ⟨q, hq⟩ := exists_mem_of_ne_empty hne
      exact ⟨u, ((hs q).mp hq).char_mem ha, hs⟩
  · intro h
    obtain ⟨u, -, hs⟩ := h
    refine ⟨u.map .char, ?_⟩
    rcases subsetSystem_run_spec ha hclosed hfirst_ne u with ⟨-, hstuck⟩ | ⟨t, ht, -, -, hmem⟩
    · obtain ⟨q, hq⟩ := exists_mem_of_ne_empty hne
      exact absurd ((hs q).mp hq) (hstuck p hp q)
    · have hst : t = s := by
        refine OrderedSet.ext_mem fun q => ?_
        rw [hmem, leads_closure_iff hfirst, hs]
      rw [ht, hst]

/-! ## The states made of them -/

/-- The states of a deterministic automaton are the sets of states that an automaton can be in after
some word from an entry, each once, in the order in which they are met. -/
structure StateSets (a : Automaton) (p : StateId) (d : Determinized) : Prop where
  /-- The exploration from the closure of the entry comes to an end, and has found the sets. -/
  exists_first : ∃ first, a.closure [p] = .ok first ∧ d.subsets[0]? = some first ∧
    Explored (fun s => a.nextSubsets s a.characters.toList) .breadthFirst [first] d.subsets
  nodup : d.subsets.Nodup
  states_mem : ∀ s ∈ d.subsets, s ≠ ∅ ∧ ∀ q ∈ s, q ∈ a
  mem_iff : ∀ s, s ≠ ∅ → (s ∈ d.subsets ↔
    ∃ w, (∀ c ∈ w, Letter.char c ∈ a.alphabet) ∧ ∀ q, q ∈ s ↔ a.Leads p w q)
  size_eq : d.automaton.size = d.subsets.length
  isExit_iff : ∀ {k s}, d.subsets[k]? = some s →
    (d.automaton.IsExit ⟨k, d.automaton.origin⟩ ↔ ∃ q ∈ s, a.IsExit q)
  /-- An arc is on a character, and leads to the state of what the character leads to. -/
  hasArc_iff : ∀ {k s l r}, d.subsets[k]? = some s →
    (d.automaton.HasArc ⟨k, d.automaton.origin⟩ l r ↔ ∃ c j t, l = .char c ∧
      d.subsets[j]? = some t ∧ r = ⟨j, d.automaton.origin⟩ ∧ ∀ q, q ∈ t ↔ ∃ p ∈ s, a.Leads p [c] q)
  /-- There is no arc on a character exactly if the character leads nowhere. -/
  stuck_iff : ∀ {k s}, d.subsets[k]? = some s → ∀ c,
    ((∀ r, ¬ d.automaton.HasArc ⟨k, d.automaton.origin⟩ (.char c) r) ↔
      ∀ p ∈ s, ∀ q, ¬ a.Leads p [c] q)
  functionalAt : ∀ q, d.automaton.FunctionalAt q
  entry_eq : d.automaton.entry = some ⟨0, d.automaton.origin⟩
  isEntry_iff : ∀ {k x}, d.automaton.states[k]? = some x → (x.isEntry = true ↔ k = 0)
  reachable : ∀ q ∈ d.automaton, d.automaton.Reachable q
  /-- A state comes before another if a word leads to it that precedes all words to the other. -/
  numbered : ∀ {i j w}, i < j →
    d.automaton.Leads ⟨0, d.automaton.origin⟩ w ⟨j, d.automaton.origin⟩ →
      ∃ u, d.automaton.Leads ⟨0, d.automaton.origin⟩ u ⟨i, d.automaton.origin⟩ ∧
        List.Shortlex (· < ·) u w

variable {d : Determinized}

/-- Arcs lead from the state of a set to that of what the letter leads to. -/
theorem hasArc_determinized (ha : a.WellFormed) (hpresents : a.subsetSystem.Presents d.automaton
    d.subsets) (hgood : ∀ s ∈ d.subsets, a.Closed s ∧ s ≠ ∅) {k : Nat} {l : Letter}
    (hs : d.subsets[k]? = some s) :
    d.automaton.HasArc ⟨k, d.automaton.origin⟩ l r ↔ ∃ c j t, l = .char c ∧
      d.subsets[j]? = some t ∧ r = ⟨j, d.automaton.origin⟩ ∧
        ∀ q, q ∈ t ↔ ∃ p ∈ s, a.Leads p [c] q := by
  obtain ⟨hclosed, hne⟩ := hgood s (List.mem_of_getElem? hs)
  rw [hpresents.hasArc_iff hs]
  constructor
  · intro h
    obtain ⟨j, t, hstep, hj, rfl⟩ := h
    cases l with
    | epsilon => cases hstep
    | char c =>
      exact ⟨c, j, t, rfl, hj, rfl, ((subsetSystem_step_iff ha hclosed hne c).mp hstep).2⟩
  · intro h
    obtain ⟨c, j, t, rfl, hj, rfl, hmem⟩ := h
    have ht := (hgood t (List.mem_of_getElem? hj)).2
    exact ⟨j, t, (subsetSystem_step_iff ha hclosed hne c).mpr ⟨ht, hmem⟩, hj, rfl⟩

/-- No arc leaves the state of a set on a character that leads nowhere from the set. -/
theorem stuck_determinized (ha : a.WellFormed) (hpresents : a.subsetSystem.Presents d.automaton
    d.subsets) (hgood : ∀ s ∈ d.subsets, a.Closed s ∧ s ≠ ∅) {k : Nat}
    (hs : d.subsets[k]? = some s) (c : Char) :
    (∀ r, ¬ d.automaton.HasArc ⟨k, d.automaton.origin⟩ (.char c) r) ↔
      ∀ p ∈ s, ∀ q, ¬ a.Leads p [c] q := by
  obtain ⟨hclosed, hne⟩ := hgood s (List.mem_of_getElem? hs)
  constructor
  · intro hstuck p hp q hpq
    rcases subsetSystem_run_spec ha hclosed hne [c] with ⟨-, hnone⟩ | ⟨t, -, -, ht, hmem⟩
    · exact hnone p hp q hpq
    · have hstep := (subsetSystem_step_iff ha hclosed hne c).mpr ⟨ht, hmem⟩
      have htmem := hpresents.closed (List.mem_of_getElem? hs) hstep
      obtain ⟨j, hj⟩ := List.mem_iff_getElem?.mp htmem
      exact hstuck _ ((hpresents.hasArc_iff hs).mpr ⟨j, t, hstep, hj, rfl⟩)
  · intro hstuck r hr
    obtain ⟨c', j, t, hc, hj, -, hmem⟩ := (hasArc_determinized ha hpresents hgood hs).mp hr
    cases hc
    obtain ⟨q, hq⟩ := exists_mem_of_ne_empty (hgood t (List.mem_of_getElem? hj)).2
    obtain ⟨p, hp, hpq⟩ := (hmem q).mp hq
    exact hstuck p hp q hpq

/-- The states are numbered in the order of the least words that lead to them. -/
theorem numbered_determinized (ha : a.WellFormed) (hclosed : a.Closed first)
    (hexplored : Explored (fun s => a.nextSubsets s a.characters.toList) .breadthFirst [first]
      d.subsets) (hpresents : a.subsetSystem.Presents d.automaton d.subsets)
    (hε : Letter.epsilon ∉ d.automaton.alphabet) {i j : Nat} (hij : i < j)
    (hw : d.automaton.Leads ⟨0, d.automaton.origin⟩ w ⟨j, d.automaton.origin⟩) :
    ∃ u, d.automaton.Leads ⟨0, d.automaton.origin⟩ u ⟨i, d.automaton.origin⟩ ∧
      List.Shortlex (· < ·) u w := by
  have hzero : d.subsets[0]? = some first := hexplored.getElem?_zero
  rw [leads_iff_follows_map_char hpresents.wellFormed hε, hpresents.follows_iff hzero] at hw
  obtain ⟨j', t, hrun, hj, heq⟩ := hw
  cases heq
  obtain ⟨hlt, rfl⟩ := List.getElem?_eq_some_iff.mp hj
  have hi : i < d.subsets.length := hij.trans hlt
  have horder := List.pairwise_iff_getElem.mp
    (hexplored.pairwise_shortlex (expands_nextSubsets ha) hclosed) i j hi hlt hij
  obtain ⟨v, hv, hvw⟩ := horder _ hrun
  obtain ⟨u, rfl⟩ := exists_word_of_run hv
  refine ⟨u, ?_, shortlex_of_map_char hvw⟩
  rw [leads_iff_follows_map_char hpresents.wellFormed hε, hpresents.follows_iff hzero]
  exact ⟨i, _, hv, List.getElem?_eq_getElem hi, rfl⟩

/-- **The states of the subset construction are the reachable sets, each once.**  For every
automaton with an entry and a character in its alphabet the exploration ends; the sets it has met
are those the automaton can be in after some word, and their states are numbered breadth first,
characters in ascending order. -/
theorem determinize_stateSets (ha : a.Built) (hentry : a.entry = some p)
    (hc : Letter.char c ∈ a.alphabet) (origin : Nat) :
    ∃ d, a.determinize origin = .ok d ∧ d.automaton.origin = origin ∧ a.StateSets p d := by
  have hwf := ha.wellFormed
  have hcharacters : a.characters ≠ ∅ := fun h => characters_eq_empty_iff.mp h c hc
  obtain ⟨d, -, hd, -⟩ := exists_determinize hwf hentry hcharacters origin
  obtain ⟨first, hclosure, hfirst, hexplored, hgood, horigin, halphabet, hpresents⟩ :=
    explored_of_determinize hwf hentry hcharacters hd
  have hzero : d.subsets[0]? = some first := hexplored.getElem?_zero
  have hclosed : a.Closed first := (hgood first (List.mem_of_getElem? hzero)).1
  have hε : Letter.epsilon ∉ d.automaton.alphabet := fun h =>
    (mem_characters.mp (halphabet ▸ h)).2 rfl
  refine ⟨d, hd, horigin, ?_⟩
  exact {
    exists_first := ⟨first, hclosure, hzero, hexplored⟩
    nodup := hexplored.nodup
    states_mem := fun s hs => ⟨(hgood s hs).2, (hgood s hs).1.mem⟩
    mem_iff := fun s hne => mem_subsets_iff hwf hclosed hfirst hexplored hne
    size_eq := hpresents.size_eq
    isExit_iff := by
      intro k s hs
      rw [hpresents.isExit_iff hs]
      exact (subsetSystem_isExit (hgood s (List.mem_of_getElem? hs)).1).2
    hasArc_iff := fun hs => hasArc_determinized hwf hpresents hgood hs
    stuck_iff := fun hs c => stuck_determinized hwf hpresents hgood hs c
    functionalAt := hpresents.functionalAt
    entry_eq := hpresents.entry_eq
    isEntry_iff := by
      intro k x hx
      have hstate : d.automaton.state? ⟨k, d.automaton.origin⟩ = some x := by
        rwa [state?, if_pos rfl]
      rw [hpresents.wellFormed.isEntry_iff hstate, hpresents.entry_eq, Option.some.injEq,
        StateId.mk.injEq]
      omega
    reachable := fun q hq => determinize_reachable hwf hd hq
    numbered := numbered_determinized hwf hclosed hexplored hpresents hε }

/-- The entry and the next state lead to each other by epsilon arcs, and on to one state each.  The
state with the larger index is met first, because the letter to it is smaller. -/
def epsilonKnot : Automaton where
  origin := 0
  alphabet := .ofList [.char 'a', .char 'b', .epsilon]
  states := #[
    ⟨⟨0, 0⟩, true, false,
      .ofList [⟨.char 'b', ⟨2, 0⟩⟩, ⟨.epsilon, ⟨0, 0⟩⟩, ⟨.epsilon, ⟨1, 0⟩⟩]⟩,
    ⟨⟨1, 0⟩, false, false,
      .ofList [⟨.char 'a', ⟨3, 0⟩⟩, ⟨.epsilon, ⟨0, 0⟩⟩, ⟨.epsilon, ⟨1, 0⟩⟩]⟩,
    ⟨⟨2, 0⟩, false, true, .ofList [⟨.char 'a', ⟨2, 0⟩⟩, ⟨.epsilon, ⟨2, 0⟩⟩]⟩,
    ⟨⟨3, 0⟩, false, false, .ofList [⟨.char 'a', ⟨0, 0⟩⟩, ⟨.epsilon, ⟨3, 0⟩⟩]⟩]
  entry := some ⟨0, 0⟩

theorem built_epsilonKnot : epsilonKnot.Built := by
  have h₀ : (empty 0 (.ofList [.char 'a', .char 'b', .epsilon])).addState.addState.Built :=
    .addState (.addState (.empty _ _))
  have h := h₀.addState.addState
  have h₁ := Built.addArc (p := ⟨0, 0⟩) (l := .epsilon) (q := ⟨1, 0⟩) h rfl
  have h₂ := Built.addArc (p := ⟨1, 0⟩) (l := .epsilon) (q := ⟨0, 0⟩) h₁ rfl
  have h₃ := Built.addArc (p := ⟨0, 0⟩) (l := .char 'b') (q := ⟨2, 0⟩) h₂ rfl
  have h₄ := Built.addArc (p := ⟨1, 0⟩) (l := .char 'a') (q := ⟨3, 0⟩) h₃ rfl
  have h₅ := Built.addArc (p := ⟨2, 0⟩) (l := .char 'a') (q := ⟨2, 0⟩) h₄ rfl
  have h₆ := Built.addArc (p := ⟨3, 0⟩) (l := .char 'a') (q := ⟨0, 0⟩) h₅ rfl
  have h₇ := Built.setExit (q := ⟨2, 0⟩) h₆ rfl
  exact .setEntry (q := ⟨0, 0⟩) h₇ rfl

/-- The two states on the cycle of epsilon arcs are merged, and the set of both is met again. -/
theorem determinize_stateSets_epsilonKnot :
    ∃ d, epsilonKnot.determinize 1 = .ok d ∧ epsilonKnot.StateSets ⟨0, 0⟩ d ∧
      d.subsets = [.ofList [⟨0, 0⟩, ⟨1, 0⟩], .singleton ⟨3, 0⟩, .singleton ⟨2, 0⟩] := by
  obtain ⟨d, hd, -, hsets⟩ := determinize_stateSets built_epsilonKnot (p := ⟨0, 0⟩) (c := 'a') rfl
    (by decide) 1
  have hsubsets : (epsilonKnot.determinize 1).map Determinized.subsets =
      .ok [.ofList [⟨0, 0⟩, ⟨1, 0⟩], .singleton ⟨3, 0⟩, .singleton ⟨2, 0⟩] := by rfl
  refine ⟨d, hd, hsets, ?_⟩
  rw [hd] at hsubsets
  exact Except.ok.inj hsubsets

end Automaton

end PatternAutomata
