import Mathlib.Data.Finset.Powerset
import PatternAutomata.Determinization
import PatternAutomata.Proofs.Automaton.Paths
import PatternAutomata.Proofs.Automaton.Recognition

/-!
# The subset construction keeps the language

The closed sets of states of an automaton are a system (`subsetSystem`): on a character, a set
steps to everything its members lead to, unless that is nothing.  `determinize` explores this
system from the closure of the entry and makes its items the states of an automaton.

* `subsetSystem_run_spec`: following a word leads to the set of states its paths lead to.
* `exists_reachableSubsets`: the exploration ends, within the budget of `2 ^ n` sets.
* `exists_determinize`: the automaton presents the system of subsets.
* `exists_determinize_decides`: it decides the language, if every state can still reach an exit.
* `emptyWord_decides`: without characters, the automaton decides the language of the empty word.
* `determinize_keeps_verdicts`: whatever the automaton is like, the construction fails only for want
  of an entry, and otherwise keeps the verdict on every word.
-/

namespace PatternAutomata

namespace Automaton

variable {a : Automaton} {p q r : StateId} {l : Letter} {s t : OrderedSet StateId} {c : Char}

/-! ## The system of subsets -/

/-- What a letter leads to, and epsilon arcs from there on. -/
theorem advance_spec (ha : a.WellFormed) (l : Letter) {qs : List StateId}
    (hqs : ∀ q ∈ qs, q ∈ a) : ∃ t, a.advance l qs = .ok t ∧
      ∀ r, r ∈ t ↔ ∃ q ∈ qs, ∃ q', a.HasArc q l q' ∧ a.Leads q' [] r := by
  induction qs with
  | nil => exact ⟨∅, rfl, fun r => by simp⟩
  | cons q qs ih =>
    obtain ⟨s, hs⟩ := exists_state (hqs q List.mem_cons_self)
    have harc := fun r => hasArc_iff (l := l) (q := r) (state_eq_ok_iff.mp hs)
    have htargets : ∀ r ∈ (s.targets l).toList, r ∈ a := fun r hr =>
      ha.target_mem ((harc r).mpr (State.mem_targets.mp hr))
    obtain ⟨u, hu, hu_mem⟩ := closure_spec ha htargets
    obtain ⟨t, ht, ht_mem⟩ := ih fun r hr => hqs r (List.mem_cons_of_mem _ hr)
    refine ⟨u ∪ t, by simp only [advance, hs, hu, ht, Except.map], fun r => ?_⟩
    rw [OrderedSet.mem_union, hu_mem, ht_mem]
    simp only [List.mem_cons, exists_eq_or_imp, OrderedSet.mem_toList, State.mem_targets, harc]

/-- The sets of states of an automaton as a system.  The empty set is no successor. -/
def subsetSystem (a : Automaton) : System (OrderedSet StateId) where
  step s l :=
    match l with
    | .epsilon => none
    | .char _ =>
      match a.advance l s.toList with
      | .ok t => if t.isEmpty then none else some t
      | .error _ => none
  isExit s :=
    match a.anyExit s.toList with
    | .ok x => x
    | .error _ => false

theorem subsetSystem_isExit (hs : a.Closed s) :
    a.anyExit s.toList = .ok (a.subsetSystem.isExit s) ∧
      (a.subsetSystem.isExit s = true ↔ ∃ q ∈ s, a.IsExit q) := by
  obtain ⟨x, hx, hiff⟩ := anyExit_spec fun q hq => hs.mem q hq
  simp only [subsetSystem, hx, true_and]
  exact hiff

/-- Advancing a closed set by a character leads to nothing, or to the next closed set. -/
theorem subsetSystem_step_cases (ha : a.WellFormed) (hs : a.Closed s) (c : Char) :
    (a.advance (.char c) s.toList = .ok ∅ ∧ a.subsetSystem.step s (.char c) = none ∧
      ∀ p ∈ s, ∀ q, ¬ a.HasArc p (.char c) q) ∨
    ∃ t, a.advance (.char c) s.toList = .ok t ∧ a.subsetSystem.step s (.char c) = some t ∧
      a.Closed t ∧ t ≠ ∅ ∧
      ∀ r, r ∈ t ↔ ∃ p ∈ s, ∃ q, a.HasArc p (.char c) q ∧ a.Leads q [] r := by
  obtain ⟨t, ht, ht_mem⟩ := advance_spec ha (.char c) fun q hq => hs.mem q hq
  by_cases hempty : t = ∅
  · subst hempty
    refine Or.inl ⟨ht, by simp [subsetSystem, ht, OrderedSet.isEmpty_iff], fun p hp q hpq => ?_⟩
    exact OrderedSet.not_mem_empty q ((ht_mem q).mpr ⟨p, hp, q, hpq, .refl q⟩)
  · have hclosed : a.Closed t := by
      refine closed_of_leads ha (P := fun q => ∃ p ∈ s, a.HasArc p (.char c) q) ?_ fun r => ?_
      · rintro q ⟨p, -, hpq⟩
        exact ha.target_mem hpq
      · rw [ht_mem]
        constructor
        · rintro ⟨p, hp, q, hpq, hqr⟩
          exact ⟨q, ⟨p, hp, hpq⟩, hqr⟩
        · rintro ⟨q, ⟨p, hp, hpq⟩, hqr⟩
          exact ⟨p, hp, q, hpq, hqr⟩
    exact Or.inr ⟨t, ht, by simp [subsetSystem, ht, OrderedSet.isEmpty_iff, hempty], hclosed, hempty,
      ht_mem⟩

theorem mem_characters : l ∈ a.characters ↔ l ∈ a.alphabet ∧ l ≠ .epsilon := by
  rw [characters, OrderedSet.mem_ofList, List.mem_filter, OrderedSet.mem_toList]
  simp

theorem ne_empty_of_mem (hq : q ∈ s) : s ≠ ∅ := fun h => OrderedSet.not_mem_empty q (h ▸ hq)

theorem exists_mem_of_ne_empty (hs : s ≠ ∅) : ∃ q, q ∈ s := by
  cases hlist : s.toList with
  | nil => exact absurd (OrderedSet.toList_injective hlist) hs
  | cons q _ => exact ⟨q, by rw [← OrderedSet.mem_toList, hlist]; exact List.mem_cons_self⟩

/-- The sets stepped to are closed and have members, and steps are on letters of the alphabet. -/
theorem closed_of_step (ha : a.WellFormed) (hs : a.Closed s) (h : a.subsetSystem.step s l = some t) :
    a.Closed t ∧ t ≠ ∅ ∧ l ∈ a.characters := by
  cases l with
  | epsilon => cases h
  | char c =>
    rcases subsetSystem_step_cases ha hs c with ⟨-, hnone, -⟩ | ⟨u, -, hu, hclosed, hne, hmem⟩
    · rw [h] at hnone
      cases hnone
    · rw [h] at hu
      cases hu
      obtain ⟨r, hr⟩ := exists_mem_of_ne_empty hne
      obtain ⟨p, -, q, hpq, -⟩ := (hmem r).mp hr
      exact ⟨hclosed, hne, mem_characters.mpr ⟨ha.letter_mem hpq, Letter.noConfusion⟩⟩

/-- **Following a word from a set leads to all states that its paths lead to.** -/
theorem subsetSystem_run_spec (ha : a.WellFormed) (hs : a.Closed s) (hne : s ≠ ∅)
    (w : List Char) :
    (a.subsetSystem.run s (w.map .char) = none ∧ ∀ p ∈ s, ∀ q, ¬ a.Leads p w q) ∨
    ∃ t, a.subsetSystem.run s (w.map .char) = some t ∧ a.Closed t ∧ t ≠ ∅ ∧
      ∀ q, q ∈ t ↔ ∃ p ∈ s, a.Leads p w q := by
  induction w generalizing s with
  | nil =>
    refine Or.inr ⟨s, rfl, hs, hne, fun q => ⟨fun hq => ⟨q, hq, .refl q⟩, ?_⟩⟩
    rintro ⟨p, hp, hpq⟩
    exact hs.mem_of_leads hp hpq
  | cons c w ih =>
    rw [List.map_cons, System.run_cons]
    rcases subsetSystem_step_cases ha hs c with ⟨-, hnone, hstuck⟩ | ⟨t, -, ht, hclosed, hne, ht_mem⟩
    · rw [hnone]
      refine Or.inl ⟨rfl, fun p hp q hpq => ?_⟩
      obtain ⟨r, r', hpr, hrr', -⟩ := hpq.exists_of_cons
      exact hstuck r (hs.mem_of_leads hp hpr) r' hrr'
    · rw [ht, Option.bind_some]
      -- a path on `c :: w` from `s` goes on from `t` after its first character
      have hpath : ∀ q, (∃ p ∈ s, a.Leads p (c :: w) q) ↔ ∃ p ∈ t, a.Leads p w q := fun q => by
        constructor
        · rintro ⟨p, hp, hpq⟩
          obtain ⟨r, r', hpr, hrr', hq⟩ := hpq.exists_of_cons
          exact ⟨r', (ht_mem r').mpr ⟨r, hs.mem_of_leads hp hpr, r', hrr', .refl r'⟩, hq⟩
        · rintro ⟨r', hr', hq⟩
          obtain ⟨p, hp, r, hpr, hrr'⟩ := (ht_mem r').mp hr'
          exact ⟨p, hp, .char hpr (hrr'.append hq)⟩
      rcases ih hclosed hne with ⟨hnone, hnot⟩ | ⟨u, hu, hu_closed, hu_ne, hu_mem⟩
      · refine Or.inl ⟨hnone, fun p hp q hpq => ?_⟩
        obtain ⟨r, hr, hrq⟩ := (hpath q).mp ⟨p, hp, hpq⟩
        exact hnot r hr q hrq
      · exact Or.inr ⟨u, hu, hu_closed, hu_ne, fun q => (hu_mem q).trans (hpath q).symm⟩

/-! ## Exploring it -/

/-- Exploring follows the steps of the system, in the order of the letters. -/
theorem nextSubsets_eq (ha : a.WellFormed) (hs : a.Closed s) {letters : List Letter}
    (hletters : ∀ l ∈ letters, l ≠ .epsilon) :
    a.nextSubsets s letters = .ok (letters.filterMap (a.subsetSystem.step s)) := by
  induction letters with
  | nil => rfl
  | cons l letters ih =>
    have hrest := ih fun l hl => hletters l (List.mem_cons_of_mem _ hl)
    cases l with
    | epsilon => exact absurd rfl (hletters .epsilon List.mem_cons_self)
    | char c =>
      rcases subsetSystem_step_cases ha hs c with ⟨hadv, hstep, -⟩ | ⟨t, hadv, hstep, -, hne, -⟩
      · rw [List.filterMap_cons_none hstep]
        simp only [nextSubsets, hadv, hrest]
        rfl
      · rw [List.filterMap_cons_some hstep]
        have hempty : t.isEmpty = false :=
          Bool.eq_false_iff.mpr fun h => hne (OrderedSet.isEmpty_iff.mp h)
        simp only [nextSubsets, hadv, hrest, Except.map, hempty]
        rfl

/-- The sets of states of an automaton that are not empty. -/
noncomputable def subsetPool (a : Automaton) : Finset (OrderedSet StateId) :=
  (a.ownStates.powerset.erase ∅).image fun f => OrderedSet.ofList f.toList

theorem mem_subsetPool (hs : a.Closed s) (hne : s ≠ ∅) : s ∈ a.subsetPool := by
  refine Finset.mem_image.mpr ⟨s.toList.toFinset, Finset.mem_erase.mpr ⟨fun h => hne ?_, ?_⟩, ?_⟩
  · exact OrderedSet.toList_injective ((List.toFinset_eq_empty_iff _).mp h)
  · refine Finset.mem_powerset.mpr fun q hq => mem_ownStates.mpr (hs.mem q ?_)
    exact List.mem_toFinset.mp hq
  · refine OrderedSet.ext_mem fun q => ?_
    rw [OrderedSet.mem_ofList, Finset.mem_toList, List.mem_toFinset, OrderedSet.mem_toList]

theorem card_subsetPool_lt (a : Automaton) : a.subsetPool.card < 2 ^ a.size := by
  have himage : a.subsetPool.card ≤ (a.ownStates.powerset.erase ∅).card := Finset.card_image_le
  have herase : (a.ownStates.powerset.erase ∅).card = 2 ^ a.ownStates.card - 1 := by
    rw [Finset.card_erase_of_mem (Finset.empty_mem_powerset _), Finset.card_powerset]
  have hpow : 2 ^ a.ownStates.card ≤ 2 ^ a.size :=
    Nat.pow_le_pow_right (by omega) (card_ownStates_le a)
  have hpos : 0 < 2 ^ a.ownStates.card := Nat.pow_pos (by omega)
  omega

/-- The exploration of the subsets ends.  It starts with the closure of the entry, and everything
it meets is a closed set with members. -/
theorem exists_reachableSubsets (ha : a.WellFormed) (hentry : a.entry = some p) :
    ∃ first found, a.closure [p] = .ok first ∧ (∀ q, q ∈ first ↔ a.Leads p [] q) ∧
      a.reachableSubsets = .ok found ∧
      Explored (fun s => a.nextSubsets s a.characters.toList) .breadthFirst [first] found ∧
      ∀ s ∈ found, a.Closed s ∧ s ≠ ∅ := by
  obtain ⟨first, hfirst, hmem, hclosed⟩ := exists_closure ha (ha.entry_mem hentry)
  have hnext : ∀ s, a.Closed s → a.nextSubsets s a.characters.toList =
      .ok (a.characters.toList.filterMap (a.subsetSystem.step s)) := fun s hs =>
    nextSubsets_eq ha hs fun l hl => (mem_characters.mp hl).2
  have hgood : ∀ s, Discoverable (fun s => a.nextSubsets s a.characters.toList) [first] s →
      a.Closed s ∧ s ≠ ∅ := by
    intro s hs
    induction hs with
    | seed hs =>
      rw [List.mem_singleton] at hs
      exact hs ▸ ⟨hclosed, ne_empty_of_mem ((hmem p).mpr (.refl p))⟩
    | next _ hok ht ih =>
      rw [hnext _ ih.1] at hok
      cases hok
      obtain ⟨l, -, hstep⟩ := List.mem_filterMap.mp ht
      obtain ⟨hclosed, hne, -⟩ := closed_of_step ha ih.1 hstep
      exact ⟨hclosed, hne⟩
  obtain ⟨found, hfound, hexplored⟩ := exists_explored (d := .breadthFirst)
    (fun s hs => ⟨mem_subsetPool (hgood s hs).1 (hgood s hs).2, _, hnext s (hgood s hs).1⟩)
    (card_subsetPool_lt a)
  refine ⟨first, found, hfirst, hmem, ?_, hexplored, fun s hs => hgood s (hexplored.mem_iff.mp hs)⟩
  simp only [reachableSubsets, requireEntry_eq hentry, hfirst]
  exact hfound

/-! ## The states of the result -/

/-- The arcs of a merged state are the steps of its set that stay among the sets. -/
theorem subsetArcs_spec (ha : a.WellFormed) (hs : a.Closed s) (origin : Nat)
    {subsets : List (OrderedSet StateId)} (hempty : ∅ ∉ subsets) (letters : List Letter)
    (hletters : ∀ l ∈ letters, l ≠ .epsilon) :
    ∃ arcs, a.subsetArcs origin subsets s letters = .ok arcs ∧ ∀ l q, ⟨l, q⟩ ∈ arcs ↔
      l ∈ letters ∧ ∃ t ∈ subsets, a.subsetSystem.step s l = some t ∧
        q = ⟨subsets.idxOf t, origin⟩ := by
  induction letters with
  | nil => exact ⟨∅, rfl, fun l q => by simp⟩
  | cons l letters ih =>
    obtain ⟨arcs, harcs, hmem⟩ := ih fun l hl => hletters l (List.mem_cons_of_mem _ hl)
    cases l with
    | epsilon => exact absurd rfl (hletters .epsilon List.mem_cons_self)
    | char c =>
      rcases subsetSystem_step_cases ha hs c with ⟨hadv, hstep, -⟩ | ⟨t, hadv, hstep, -⟩
      · refine ⟨arcs, by simp only [subsetArcs, hadv, harcs, Except.map, if_neg hempty], ?_⟩
        intro l q
        rw [hmem]
        grind
      · by_cases ht : t ∈ subsets
        · refine ⟨arcs.insert ⟨.char c, ⟨subsets.idxOf t, origin⟩⟩,
            by simp only [subsetArcs, hadv, harcs, Except.map, if_pos ht], ?_⟩
          intro l q
          rw [OrderedSet.mem_insert, hmem, Arc.mk.injEq]
          grind
        · refine ⟨arcs, by simp only [subsetArcs, hadv, harcs, Except.map, if_neg ht], ?_⟩
          intro l q
          rw [hmem]
          grind

/-- What the state with an index, made of a set, is like. -/
structure MergedState (a : Automaton) (origin : Nat) (subsets : List (OrderedSet StateId))
    (index : Nat) (s : OrderedSet StateId) (x : State) : Prop where
  id_eq : x.id = ⟨index, origin⟩
  isEntry_eq : x.isEntry = (index == 0)
  isExit_eq : x.isExit = a.subsetSystem.isExit s
  mem_arcs : ∀ l q, ⟨l, q⟩ ∈ x.arcs ↔ l ∈ a.characters ∧
    ∃ t ∈ subsets, a.subsetSystem.step s l = some t ∧ q = ⟨subsets.idxOf t, origin⟩

theorem subsetStates_spec (ha : a.WellFormed) (origin : Nat) {subsets : List (OrderedSet StateId)}
    (hempty : ∅ ∉ subsets) (index : Nat) (rest : List (OrderedSet StateId))
    (hrest : ∀ s ∈ rest, a.Closed s) :
    ∃ states, a.subsetStates origin subsets index rest = .ok states ∧
      states.length = rest.length ∧ ∀ (i : Nat) (s : OrderedSet StateId) (x : State),
        rest[i]? = some s → states[i]? = some x →
          MergedState a origin subsets (index + i) s x := by
  induction rest generalizing index with
  | nil => exact ⟨[], rfl, rfl, fun i s x hs => by simp at hs⟩
  | cons s rest ih =>
    have hs := hrest s List.mem_cons_self
    obtain ⟨states, hstates, hlength, hmerged⟩ :=
      ih (index + 1) fun t ht => hrest t (List.mem_cons_of_mem _ ht)
    obtain ⟨arcs, harcs, hmem⟩ := subsetArcs_spec ha hs origin hempty a.characters.toList
      fun l hl => (mem_characters.mp hl).2
    have hexit := (subsetSystem_isExit hs).1
    refine ⟨_, by simp only [subsetStates, hexit, harcs, hstates, Except.map]; rfl, ?_, ?_⟩
    · rw [List.length_cons, List.length_cons, hlength]
    · intro i t x ht hx
      cases i with
      | zero =>
        rw [List.getElem?_cons_zero, Option.some.injEq] at ht hx
        subst ht hx
        exact ⟨rfl, rfl, rfl, hmem⟩
      | succ i =>
        rw [List.getElem?_cons_succ] at ht hx
        have h := hmerged i t x ht hx
        rwa [show index + 1 + i = index + (i + 1) by omega] at h

/-- States that are what their sets make them present the system of subsets. -/
theorem presents_of_merged (ha : a.WellFormed) (origin : Nat)
    {subsets : List (OrderedSet StateId)} {states : List State} (hne : subsets ≠ [])
    (hnodup : subsets.Nodup) (hgood : ∀ s ∈ subsets, a.Closed s)
    (hclosed : ∀ {s l t}, s ∈ subsets → a.subsetSystem.step s l = some t → t ∈ subsets)
    (hlength : states.length = subsets.length)
    (hmerged : ∀ (i : Nat) (s : OrderedSet StateId) (x : State), subsets[i]? = some s →
      states[i]? = some x → MergedState a origin subsets i s x) :
    a.subsetSystem.Presents ⟨origin, a.characters, states.toArray, some ⟨0, origin⟩⟩ subsets := by
  let d : Automaton := ⟨origin, a.characters, states.toArray, some ⟨0, origin⟩⟩
  have hlookup : ∀ {q x}, d.state? q = some x →
      ∃ s, q = ⟨q.index, origin⟩ ∧ subsets[q.index]? = some s ∧
        MergedState a origin subsets q.index s x := by
    intro q x hx
    obtain ⟨horigin, hindex⟩ := mem_of_state? hx
    have hindex' : q.index < subsets.length := hlength ▸ hindex
    have hs : subsets[q.index]? = some subsets[q.index] := List.getElem?_eq_getElem hindex'
    rw [state?, if_pos horigin] at hx
    have hq : q = ⟨q.index, origin⟩ := by
      obtain ⟨i, o⟩ := q
      exact congrArg (StateId.mk i) horigin
    exact ⟨_, hq, hs, hmerged _ _ _ hs (by simpa [d] using hx)⟩
  have hstate : ∀ {i s}, subsets[i]? = some s →
      ∃ x, d.state? ⟨i, origin⟩ = some x ∧ MergedState a origin subsets i s x := by
    intro i s hs
    have hindex : i < states.length := hlength ▸ (List.getElem?_eq_some_iff.mp hs).1
    refine ⟨states[i], ?_, hmerged i s _ hs (List.getElem?_eq_getElem hindex)⟩
    rw [state?, if_pos (by rfl)]
    simp [d, hindex]
  have harc : ∀ {i s l q}, subsets[i]? = some s → (d.HasArc ⟨i, origin⟩ l q ↔
      ∃ j t, a.subsetSystem.step s l = some t ∧ subsets[j]? = some t ∧ q = ⟨j, origin⟩) := by
    intro i s l q hs
    obtain ⟨x, hx, hmx⟩ := hstate hs
    rw [hasArc_iff hx, hmx.mem_arcs]
    constructor
    · rintro ⟨-, t, ht, hstep, rfl⟩
      exact ⟨_, t, hstep, List.getElem?_idxOf ht, rfl⟩
    · rintro ⟨j, t, hstep, hj, rfl⟩
      have hs_mem := List.mem_of_getElem? hs
      have ht := hclosed hs_mem hstep
      exact ⟨(closed_of_step ha (hgood s hs_mem) hstep).2.2, t, ht, hstep,
        by rw [System.eq_idxOf_of_getElem? hnodup hj]⟩
  have harc_lookup : ∀ {p l q}, d.HasArc p l q → l ∈ a.characters ∧ q ∈ d := by
    intro p l q hpq
    obtain ⟨x, hx, -⟩ := id hpq
    obtain ⟨s, hp, hs, -⟩ := hlookup hx
    rw [hp] at hpq
    obtain ⟨j, t, hstep, hj, rfl⟩ := (harc hs).mp hpq
    obtain ⟨y, hy, -⟩ := hstate hj
    exact ⟨(closed_of_step ha (hgood s (List.mem_of_getElem? hs)) hstep).2.2, mem_of_state? hy⟩
  have hsize : d.size = subsets.length := by simp [d, size, hlength]
  refine ⟨⟨fun {q x} hx => ?_, fun h => (harc_lookup h).1, fun h => (harc_lookup h).2,
    fun hε _ => absurd rfl (mem_characters.mp hε).2, fun {q} hq => ?_, fun {q x} hx => ?_⟩, rfl,
    hsize, hnodup, hclosed, fun {i s} hs => ?_, harc⟩
  · obtain ⟨s, hq, -, hmx⟩ := hlookup hx
    rw [hmx.id_eq, ← hq]
  · cases hq
    exact ⟨rfl, hsize ▸ List.length_pos_iff.mpr hne⟩
  · obtain ⟨s, hq, -, hmx⟩ := hlookup hx
    rw [hmx.isEntry_eq, beq_iff_eq, Option.some.injEq, hq]
    simp [eq_comm]
  · obtain ⟨x, hx, hmx⟩ := hstate hs
    rw [Automaton.isExit_iff hx, hmx.isExit_eq]

/-- **The deterministic automaton presents the system of subsets**, starting with the closure of
the entry. -/
theorem exists_determinize (ha : a.WellFormed) (hentry : a.entry = some p)
    (hcharacters : a.characters ≠ ∅) (origin : Nat) :
    ∃ d first, a.determinize origin = .ok d ∧ (∀ q, q ∈ first ↔ a.Leads p [] q) ∧
      a.Closed first ∧ d.subsets[0]? = some first ∧ d.automaton.origin = origin ∧
      d.automaton.alphabet = a.characters ∧ a.subsetSystem.Presents d.automaton d.subsets := by
  obtain ⟨first, subsets, -, hfirst, hsubsets, hexplored, hgood⟩ :=
    exists_reachableSubsets ha hentry
  have hempty : ∅ ∉ subsets := fun h => (hgood ∅ h).2 rfl
  obtain ⟨states, hstates, hlength, hmerged⟩ :=
    subsetStates_spec ha origin hempty 0 subsets fun s hs => (hgood s hs).1
  have hzero := hexplored.getElem?_zero
  have hclosed : ∀ {s l t}, s ∈ subsets → a.subsetSystem.step s l = some t → t ∈ subsets := by
    intro s l t hs ht
    obtain ⟨next, hnext, hsub⟩ := hexplored.closed s hs
    rw [nextSubsets_eq ha (hgood s hs).1 fun l hl => (mem_characters.mp hl).2] at hnext
    cases hnext
    exact hsub (List.mem_filterMap.mpr
      ⟨l, (closed_of_step ha (hgood s hs).1 ht).2.2, ht⟩)
  refine ⟨⟨subsets, ⟨origin, a.characters, states.toArray, some ⟨0, origin⟩⟩⟩, first, ?_, hfirst,
    (hgood first (List.mem_of_getElem? hzero)).1, hzero, rfl, rfl, ?_⟩
  · simp only [determinize, if_neg hcharacters, hsubsets, hstates, Except.map]
  · refine presents_of_merged ha origin (List.ne_nil_of_mem (List.mem_of_getElem? hzero))
      hexplored.nodup (fun s hs => (hgood s hs).1) hclosed hlength fun i s x hs hx => ?_
    have h := hmerged i s x hs hx
    rwa [Nat.zero_add] at h

/-! ## The language -/

variable {L : Language Char} {first : OrderedSet StateId}

theorem exists_word_of_run {w : List Letter} (h : a.subsetSystem.run s w = some t) :
    ∃ u : List Char, w = u.map .char := by
  induction w generalizing s with
  | nil => exact ⟨[], rfl⟩
  | cons l w ih =>
    rw [System.run_cons] at h
    obtain ⟨s', hstep, hrun⟩ := Option.bind_eq_some_iff.mp h
    obtain ⟨u, rfl⟩ := ih hrun
    cases l with
    | epsilon => cases hstep
    | char c => exact ⟨c :: u, rfl⟩

/-- Paths from the closure of a state are the paths from that state. -/
theorem leads_closure_iff (hfirst : ∀ q, q ∈ first ↔ a.Leads p [] q) (u : List Char) :
    (∃ r ∈ first, a.Leads r u q) ↔ a.Leads p u q := by
  constructor
  · rintro ⟨r, hr, hrq⟩
    exact ((hfirst r).mp hr).append hrq
  · exact fun hpq => ⟨p, (hfirst p).mpr (.refl p), hpq⟩

/-- A set is an exit after exactly the words that paths from the entry to an exit spell. -/
theorem subsetSystem_exit_iff (ha : a.WellFormed) (hentry : a.entry = some p)
    (hclosed : a.Closed first) (hfirst : ∀ q, q ∈ first ↔ a.Leads p [] q) (u : List Char) :
    a.subsetSystem.outcome first (u.map .char) = some true ↔ a.Accepts u := by
  have hp : p ∈ first := (hfirst p).mpr (.refl p)
  have hne : first ≠ ∅ := ne_empty_of_mem hp
  rw [accepts_iff_leads hentry, System.outcome]
  rcases subsetSystem_run_spec ha hclosed hne u with ⟨hrun, hnot⟩ | ⟨t, hrun, ht, -, ht_mem⟩
  · rw [hrun]
    refine ⟨fun h => (by cases h), ?_⟩
    rintro ⟨q, hpq, -⟩
    exact absurd hpq (hnot p hp q)
  · rw [hrun, Option.map_some, Option.some.injEq, (subsetSystem_isExit ht).2]
    exact exists_congr fun q => and_congr_left fun _ => (ht_mem q).trans (leads_closure_iff hfirst u)

/-- If every state can still reach an exit, so can every set that is followed to. -/
theorem subsetSystem_recognizes (ha : a.WellFormed) (hentry : a.entry = some p)
    (hclosed : a.Closed first) (hfirst : ∀ q, q ∈ first ↔ a.Leads p [] q)
    (hproductive : ∀ q ∈ a, ∃ w r, a.Leads q w r ∧ a.IsExit r)
    (hlanguage : ∀ w, a.Accepts w ↔ w ∈ L) : (a.subsetSystem.outcome first).Recognizes L := by
  have hexit := subsetSystem_exit_iff ha hentry hclosed hfirst
  have hp : p ∈ first := (hfirst p).mpr (.refl p)
  have hne : first ≠ ∅ := ne_empty_of_mem hp
  refine System.recognizes_of_live (fun w => ⟨fun hw => ?_, ?_⟩) fun w hw => ?_
  · obtain ⟨t, hrun, -⟩ := Option.map_eq_some_iff.mp hw
    obtain ⟨u, rfl⟩ := exists_word_of_run hrun
    exact ⟨u, (hlanguage u).mp ((hexit u).mp hw), rfl⟩
  · rintro ⟨u, hu, rfl⟩
    exact (hexit u).mpr ((hlanguage u).mpr hu)
  · obtain ⟨x, hx⟩ := Option.ne_none_iff_exists'.mp hw
    obtain ⟨t, hrun, -⟩ := Option.map_eq_some_iff.mp hx
    obtain ⟨u, rfl⟩ := exists_word_of_run hrun
    rcases subsetSystem_run_spec ha hclosed hne u with ⟨hnone, -⟩ | ⟨t', hrun', ht, htne, ht_mem⟩
    · rw [hrun] at hnone
      cases hnone
    · obtain ⟨q, hq⟩ := exists_mem_of_ne_empty htne
      obtain ⟨r, hr, hrq⟩ := (ht_mem q).mp hq
      obtain ⟨v, r', hqr', hr'⟩ := hproductive q (ht.mem q hq)
      refine ⟨v.map .char, ?_⟩
      rw [← List.map_append]
      exact (hexit _).mpr ⟨p, r', hentry, ((hfirst r).mp hr).append (hrq.append hqr'), hr'⟩

/-- **The deterministic automaton decides the language of the automaton it is made from**, if every
state of that can reach an exit and no character of its alphabet is useless. -/
theorem exists_determinize_decides (ha : a.WellFormed) (hentry : a.entry = some p)
    (hproductive : ∀ q ∈ a, ∃ w r, a.Leads q w r ∧ a.IsExit r)
    (hlanguage : ∀ w, a.Accepts w ↔ w ∈ L) (hcharacters : a.characters ≠ ∅)
    (hmem : ∀ l, l ∈ a.characters ↔ ∃ c, l = .char c ∧ ∃ w ∈ L, c ∈ w) (origin : Nat) :
    ∃ d, a.determinize origin = .ok d ∧ d.automaton.Decides L := by
  obtain ⟨d, first, hd, hfirst, hclosed, hzero, -, halphabet, hpresents⟩ :=
    exists_determinize ha hentry hcharacters origin
  refine ⟨d, hd, hpresents.decides hzero
    (subsetSystem_recognizes ha hentry hclosed hfirst hproductive hlanguage) ?_⟩
  rw [halphabet]
  exact hmem

/-- The system with one item, an exit that nothing leads on from. -/
def loneExit : System Unit where
  step _ _ := none
  isExit _ := true

theorem emptyWord_presents (origin : Nat) : loneExit.Presents (emptyWord origin) [()] := by
  have hmem : ∀ {q}, q ∈ emptyWord origin ↔ q = ⟨0, origin⟩ := by
    intro q
    cases q
    simp [mem_def, emptyWord, size, and_comm]
  have hstate : ∀ {q x}, (emptyWord origin).state? q = some x →
      q = ⟨0, origin⟩ ∧ x = ⟨⟨0, origin⟩, true, true, ∅⟩ := by
    intro q x hx
    have hq := hmem.mp (mem_of_state? hx)
    subst hq
    simp only [state?, emptyWord, if_true] at hx
    exact ⟨rfl, (Option.some.inj hx).symm⟩
  have hentry : (emptyWord origin).state? ⟨0, origin⟩ = some ⟨⟨0, origin⟩, true, true, ∅⟩ := by
    simp [state?, emptyWord]
  have harc : ∀ {p l q}, ¬ (emptyWord origin).HasArc p l q := by
    rintro p l q ⟨x, hx, harc⟩
    rw [(hstate hx).2] at harc
    exact OrderedSet.not_mem_empty _ harc
  refine ⟨⟨fun {q x} hx => ?_, fun h => absurd h harc, fun h => absurd h harc,
    fun hε _ => absurd hε (OrderedSet.not_mem_empty _), fun {q} hq => ?_, fun {q x} hx => ?_⟩, rfl,
    rfl, List.nodup_singleton _, fun _ h => (by cases h), fun {i x} hx => ?_, fun {i x l q} _ => ?_⟩
  · obtain ⟨rfl, rfl⟩ := hstate hx
    rfl
  · cases hq
    exact hmem.mpr rfl
  · obtain ⟨rfl, rfl⟩ := hstate hx
    simp [emptyWord]
  · have hi : i = 0 := by
      have := (List.getElem?_eq_some_iff.mp hx).1
      rw [List.length_singleton] at this
      omega
    subst hi
    exact isExit_iff hentry
  · refine ⟨fun h => absurd h harc, ?_⟩
    rintro ⟨j, y, h, -⟩
    cases h

/-- **The automaton of the empty word decides the language of the empty word.** -/
theorem emptyWord_decides (origin : Nat) : (emptyWord origin).Decides 1 := by
  refine (emptyWord_presents origin).decides (x := ()) rfl
    (System.recognizes_of_live (fun w => ?_) fun w hw => ?_) fun l => ?_
  · cases w with
    | nil => simp [loneExit]
    | cons l w =>
      rw [System.outcome_cons_of_stuck rfl]
      simp
  · cases w with
    | nil => exact ⟨[], rfl⟩
    | cons l w => exact absurd (System.outcome_cons_of_stuck rfl w) hw
  · refine ⟨fun h => absurd h (OrderedSet.not_mem_empty l), ?_⟩
    rintro ⟨c, -, w, hw, hc⟩
    rw [Language.mem_one] at hw
    rw [hw] at hc
    cases hc

/-! ## Verdicts -/

theorem characters_eq_empty_iff : a.characters = ∅ ↔ ∀ c, Letter.char c ∉ a.alphabet := by
  constructor
  · intro hnone c hc
    exact OrderedSet.not_mem_empty _ (hnone ▸ mem_characters.mpr ⟨hc, Letter.noConfusion⟩)
  · intro hnone
    refine OrderedSet.ext_mem fun l => ⟨fun hl => ?_, fun hl => absurd hl (OrderedSet.not_mem_empty l)⟩
    obtain ⟨hl, hε⟩ := mem_characters.mp hl
    cases l with
    | char c => exact absurd hl (hnone c)
    | epsilon => exact absurd rfl hε

/-- With a character in the alphabet, the entry is the only thing the construction can miss. -/
theorem determinize_eq_noEntry (hcharacters : a.characters ≠ ∅) (hentry : a.entry = none)
    (origin : Nat) : a.determinize origin = .error .noEntry := by
  simp only [determinize, if_neg hcharacters, reachableSubsets, requireEntry, hentry]

/-- The deterministic automaton gives the verdicts of the simulation: both accept the words that
paths from the entry to an exit spell. -/
theorem exists_determinize_simulates (ha : a.WellFormed) (hentry : a.entry = some p)
    (hcharacters : a.characters ≠ ∅) (origin : Nat) :
    ∃ d, a.determinize origin = .ok d ∧ ∀ w, ∃ x, d.automaton.accepts w = .ok x ∧
      a.simulates w = .ok x ∧ (x = true ↔ a.Accepts w) := by
  obtain ⟨d, first, hd, hfirst, hclosed, hzero, -, -, hpresents⟩ :=
    exists_determinize ha hentry hcharacters origin
  refine ⟨d, hd, fun w => ?_⟩
  have hexit := subsetSystem_exit_iff ha hentry hclosed hfirst w
  have hverdict : (a.subsetSystem.outcome first (w.map .char)).getD false = true ↔ a.Accepts w := by
    rw [← hexit]
    cases a.subsetSystem.outcome first (w.map .char) <;> simp
  obtain ⟨x, hx, hiff⟩ := simulates_spec ha hentry w
  have heq : (a.subsetSystem.outcome first (w.map .char)).getD false = x :=
    Bool.eq_iff_iff.mpr (hverdict.trans hiff.symm)
  exact ⟨x, heq ▸ hpresents.accepts_eq hzero w, hx, hiff⟩

theorem accepts_emptyWord (origin : Nat) (w : List Char) :
    (emptyWord origin).accepts w = .ok (decide (w = [])) := by
  rw [(emptyWord_presents origin).accepts_eq rfl w]
  cases w with
  | nil => rfl
  | cons c w =>
    rw [List.map_cons, System.outcome_cons_of_stuck rfl]
    rfl

/-- Without characters in the alphabet, paths spell nothing but the empty word. -/
theorem eq_nil_of_accepts {w : List Char} (ha : a.WellFormed)
    (hnone : ∀ c, Letter.char c ∉ a.alphabet) (h : a.Accepts w) : w = [] := by
  obtain ⟨p, q, -, hpq, -⟩ := h
  cases w with
  | nil => rfl
  | cons c w =>
    obtain ⟨r, r', -, harc, -⟩ := hpq.exists_of_cons
    exact absurd (ha.letter_mem harc) (hnone c)

/-- The closure of the entry holds an exit exactly if the empty word is accepted. -/
theorem exists_exit_closure_iff (ha : a.WellFormed) :
    (∃ p s, a.entry = some p ∧ a.closure [p] = .ok s ∧ ∃ q ∈ s, a.IsExit q) ↔ a.Accepts [] := by
  have hclosure : ∀ {p}, a.entry = some p →
      ∃ s, a.closure [p] = .ok s ∧ ∀ q, q ∈ s ↔ a.Leads p [] q := fun {p} hp => by
    obtain ⟨s, hs, hmem, -⟩ := exists_closure ha (ha.entry_mem hp)
    exact ⟨s, hs, hmem⟩
  constructor
  · rintro ⟨p, s, hp, hs, q, hq, hexit⟩
    obtain ⟨t, ht, hmem⟩ := hclosure hp
    rw [hs] at ht
    cases ht
    exact ⟨p, q, hp, (hmem q).mp hq, hexit⟩
  · rintro ⟨p, q, hp, hpq, hexit⟩
    obtain ⟨s, hs, hmem⟩ := hclosure hp
    exact ⟨p, s, hp, hs, q, (hmem q).mpr hpq, hexit⟩

/-- A simulation that accepts the empty word and no other one. -/
theorem simulates_eq_decide_nil_iff (ha : a.WellFormed) (hnone : ∀ c, Letter.char c ∉ a.alphabet) :
    (∀ w, a.simulates w = .ok (decide (w = []))) ↔ a.Accepts [] := by
  cases hentry : a.entry with
  | none =>
    have herror : a.simulates [] = .error .noEntry := by
      simp only [simulates, requireEntry, hentry]
    constructor
    · intro h
      rw [h []] at herror
      cases herror
    · rintro ⟨p, q, hp, -⟩
      rw [hentry] at hp
      cases hp
  | some p =>
    constructor
    · intro h
      obtain ⟨x, hx, hiff⟩ := simulates_spec ha hentry []
      rw [h []] at hx
      cases hx
      exact hiff.mp rfl
    · intro haccepts w
      obtain ⟨x, hx, hiff⟩ := simulates_spec ha hentry w
      have heq : x = decide (w = []) := by
        rw [Bool.eq_iff_iff, hiff, decide_eq_true_iff]
        refine ⟨eq_nil_of_accepts ha hnone, ?_⟩
        rintro rfl
        exact haccepts
      rw [hx, heq]

/-- **The subset construction keeps the verdicts of every automaton.**  If there is a character in
the alphabet, it fails only for want of an entry, and walking along the result gives the verdict of
the simulation on every word.  Without characters the result accepts the empty word only, which is
the verdict of the simulation exactly if an exit is in the closure of the entry. -/
theorem determinize_keeps_verdicts (ha : a.Built) (origin : Nat) :
    ((∃ c, Letter.char c ∈ a.alphabet) →
      (a.determinize origin = .error .noEntry ↔ a.entry = none) ∧
      (a.entry ≠ none → ∃ d, a.determinize origin = .ok d ∧ ∀ w, ∃ x,
        d.automaton.accepts w = .ok x ∧ a.simulates w = .ok x ∧ (x = true ↔ a.Accepts w))) ∧
    ((∀ c, Letter.char c ∉ a.alphabet) →
      ∃ d, a.determinize origin = .ok d ∧
        (∀ w, d.automaton.accepts w = .ok (decide (w = []))) ∧
        ((∀ w, a.simulates w = d.automaton.accepts w) ↔
          ∃ p s, a.entry = some p ∧ a.closure [p] = .ok s ∧ ∃ q ∈ s, a.IsExit q)) := by
  have hwf := ha.wellFormed
  constructor
  · rintro ⟨c, hc⟩
    have hcharacters : a.characters ≠ ∅ := fun h => characters_eq_empty_iff.mp h c hc
    cases hentry : a.entry with
    | none =>
      exact ⟨⟨fun _ => rfl, fun _ => determinize_eq_noEntry hcharacters hentry origin⟩,
        fun hne => absurd rfl hne⟩
    | some p =>
      obtain ⟨d, hd, hverdicts⟩ := exists_determinize_simulates hwf hentry hcharacters origin
      refine ⟨⟨fun herror => ?_, fun hnone => (by cases hnone)⟩, fun _ => ⟨d, hd, hverdicts⟩⟩
      rw [hd] at herror
      cases herror
  · intro hnone
    refine ⟨⟨[], emptyWord origin⟩, if_pos (characters_eq_empty_iff.mpr hnone),
      accepts_emptyWord origin, ?_⟩
    simp only [accepts_emptyWord]
    rw [simulates_eq_decide_nil_iff hwf hnone, exists_exit_closure_iff hwf]

/-- An automaton whose first two states are on a cycle of epsilon arcs, with an exit that cannot be
reached. -/
def epsilonCycle : Automaton where
  origin := 0
  alphabet := .ofList [.char 'a', .epsilon]
  states := #[
    ⟨⟨0, 0⟩, true, false, .ofList [⟨.epsilon, ⟨0, 0⟩⟩, ⟨.epsilon, ⟨1, 0⟩⟩]⟩,
    ⟨⟨1, 0⟩, false, true,
      .ofList [⟨.char 'a', ⟨0, 0⟩⟩, ⟨.epsilon, ⟨0, 0⟩⟩, ⟨.epsilon, ⟨1, 0⟩⟩]⟩,
    ⟨⟨2, 0⟩, false, true, .ofList [⟨.char 'a', ⟨0, 0⟩⟩, ⟨.char 'a', ⟨2, 0⟩⟩, ⟨.epsilon, ⟨2, 0⟩⟩]⟩]
  entry := some ⟨0, 0⟩

theorem built_epsilonCycle : epsilonCycle.Built := by
  have h : (Automaton.empty 0 (.ofList [.char 'a', .epsilon])).addState.addState.addState.Built :=
    .addState (.addState (.addState (.empty _ _)))
  have h₁ := Automaton.Built.addArc (p := ⟨0, 0⟩) (l := .epsilon) (q := ⟨1, 0⟩) h rfl
  have h₂ := Automaton.Built.addArc (p := ⟨1, 0⟩) (l := .epsilon) (q := ⟨0, 0⟩) h₁ rfl
  have h₃ := Automaton.Built.addArc (p := ⟨1, 0⟩) (l := .char 'a') (q := ⟨0, 0⟩) h₂ rfl
  have h₄ := Automaton.Built.addArc (p := ⟨2, 0⟩) (l := .char 'a') (q := ⟨0, 0⟩) h₃ rfl
  have h₅ := Automaton.Built.addArc (p := ⟨2, 0⟩) (l := .char 'a') (q := ⟨2, 0⟩) h₄ rfl
  have h₆ := Automaton.Built.setExit (q := ⟨1, 0⟩) h₅ rfl
  have h₇ := Automaton.Built.setExit (q := ⟨2, 0⟩) h₆ rfl
  exact .setEntry (q := ⟨0, 0⟩) h₇ rfl

/-- Both halves: the cycle of epsilon arcs, and a state over no letters that is not designated as
the entry, where the two verdicts on the empty word differ. -/
theorem determinize_keeps_verdicts_epsilonCycle :
    (∃ d, epsilonCycle.determinize 1 = .ok d ∧ ∀ w, ∃ x, d.automaton.accepts w = .ok x ∧
      epsilonCycle.simulates w = .ok x ∧ (x = true ↔ epsilonCycle.Accepts w)) ∧
    ∃ d, (empty 0 ∅).addState.determinize 1 = .ok d ∧
      ¬ ∀ w, (empty 0 ∅).addState.simulates w = d.automaton.accepts w := by
  obtain ⟨hcharacters, -⟩ := determinize_keeps_verdicts built_epsilonCycle 1
  obtain ⟨-, hverdicts⟩ := hcharacters ⟨'a', by decide⟩
  obtain ⟨-, hnone⟩ := determinize_keeps_verdicts (Built.addState (.empty 0 ∅)) 1
  obtain ⟨d, hd, -, hagree⟩ := hnone fun c => OrderedSet.not_mem_empty _
  refine ⟨hverdicts (Option.some_ne_none _), d, hd, fun h => ?_⟩
  obtain ⟨p, -, hp, -⟩ := hagree.mp h
  cases hp

end Automaton

end PatternAutomata
