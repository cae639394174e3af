import PatternAutomata.Proofs.Automaton.Reachability
import PatternAutomata.Proofs.Automaton.Recognition
import PatternAutomata.Proofs.Exploration

/-!
# Automata without superfluous states

A state is superfluous if nothing leads to it from the entry, or if it leads to no exit.  An
automaton is `Trim` if it has no such state.

An automaton that decides a language follows no word that cannot be completed
(`Decides.exists_entry`), so its reachable states all lead to exits.  And an automaton whose states
are what an exploration has found is made of reachable states.

* `Decides.trim`: an automaton that decides a language is trim if all its states can be reached.
* `Decides.deterministicOver`: it is deterministic, over the characters of the words of the
  language.
* `System.Presents.reachable`: the states of an automaton that presents what was explored can be
  reached.
-/

namespace PatternAutomata

namespace Automaton

variable {a d : Automaton} {p q r : StateId} {l : Letter} {w : List Letter} {L : Language Char}

/-- Every state can be reached from the entry, and leads to an exit. -/
structure Trim (a : Automaton) : Prop where
  reachable : ∀ q ∈ a, a.Reachable q
  productive : ∀ q ∈ a, ∃ r, Relation.ReflTransGen a.Linked q r ∧ a.IsExit r

/-- Where one arc at most leaves on each letter, following arcs is following a word. -/
theorem linked_iff_run (hfun : ∀ q, a.Reachable q → a.FunctionalAt q) (hp : a.Reachable p) :
    Relation.ReflTransGen a.Linked p q ↔ ∃ w, a.system.run p w = some q := by
  constructor
  · intro h
    induction h with
    | refl => exact ⟨[], rfl⟩
    | tail hpr harc ih =>
      obtain ⟨w, hw⟩ := ih
      obtain ⟨l, hl⟩ := harc
      refine ⟨w ++ [l], ?_⟩
      rw [System.run_append, hw, Option.bind_some, System.run_cons,
        (system_step_iff (hfun _ (hp.trans hpr))).mpr hl]
      rfl
  · rintro ⟨w, hw⟩
    induction w generalizing p with
    | nil =>
      cases hw
      exact .refl
    | cons l w ih =>
      rw [System.run_cons] at hw
      obtain ⟨r, hr, hrun⟩ := Option.bind_eq_some_iff.mp hw
      have harc := (system_step_iff (hfun _ hp)).mp hr
      exact .head ⟨l, harc⟩ (ih (hp.tail harc) hrun)

/-- **In an automaton that decides a language, all reachable states lead to exits.** -/
theorem Decides.exists_exit (h : d.Decides L) (hq : d.Reachable q) :
    ∃ r, Relation.ReflTransGen d.Linked q r ∧ d.IsExit r := by
  obtain ⟨p, hentry, hrecognizes⟩ := h.exists_entry
  have hfun : ∀ q, d.Reachable q → d.FunctionalAt q := fun q _ => h.functionalAt q
  obtain ⟨u, hu⟩ := (linked_iff_run hfun ⟨p, hentry, .refl⟩).mp ((reachable_iff hentry).mp hq)
  have hfollowed : d.system.outcome p u ≠ none := by
    rw [ne_eq, System.outcome_eq_none_iff, hu]
    exact Option.some_ne_none q
  obtain ⟨v, hv⟩ := (hrecognizes.followed_iff u).mp hfollowed
  obtain ⟨r, hr, hexit⟩ := Option.map_eq_some_iff.mp hv
  rw [System.run_append, hu, Option.bind_some] at hr
  exact ⟨r, (linked_iff_run hfun hq).mpr ⟨v, hr⟩, system_isExit_iff.mp hexit⟩

theorem Decides.trim (h : d.Decides L) (hreachable : ∀ q ∈ d, d.Reachable q) : d.Trim :=
  ⟨hreachable, fun q hq => h.exists_exit (hreachable q hq)⟩

/-- A state that one arc at most leaves on each letter has one target at most on each letter. -/
theorem FunctionalAt.size_targets_le {s : State} (h : a.FunctionalAt q) (hs : a.state? q = some s)
    (l : Letter) : (s.targets l).size ≤ 1 := by
  obtain ⟨o, ho⟩ := exists_target h l
  cases o with
  | none =>
    have hempty : s.targets l = ∅ := OrderedSet.ext_mem fun r => by
      simp [← hasArc_iff hs, ho]
    rw [hempty]
    exact Nat.zero_le 1
  | some t =>
    have hsingle : s.targets l = OrderedSet.singleton t := OrderedSet.ext_mem fun r => by
      simp [← hasArc_iff hs, ho, eq_comm]
    rw [hsingle]
    exact Nat.le_refl 1

/-- A deterministic automaton over some characters: it has no epsilon and one entry state, and a
letter leads from a state to one state at most. -/
structure DeterministicOver (a : Automaton) (characters : Set Char) : Prop where
  epsilon_not_mem : Letter.epsilon ∉ a.alphabet
  existsUnique_entry : ∃! i : Nat, ∃ s, a.states[i]? = some s ∧ s.isEntry = true
  size_targets_le : ∀ s ∈ a.states, ∀ l, (s.targets l).size ≤ 1
  char_mem_iff : ∀ c, .char c ∈ a.alphabet ↔ c ∈ characters

/-- A state is flagged as the entry if it is found under the index of the entry, and only then. -/
theorem WellFormed.existsUnique_entry (ha : a.WellFormed) (hentry : a.entry = some p) :
    ∃! i : Nat, ∃ s, a.states[i]? = some s ∧ s.isEntry = true := by
  obtain ⟨s, hs⟩ := mem_iff_state?.mp (ha.entry_mem hentry)
  have hindex : a.states[p.index]? = some s := by
    rwa [state?, if_pos (ha.entry_mem hentry).1] at hs
  refine ⟨p.index, ⟨s, hindex, (ha.isEntry_iff hs).mpr hentry⟩, ?_⟩
  rintro i ⟨t, ht, hflag⟩
  have hid : t.id = p := Option.some.inj
    (((ha.isEntry_iff_of_mem (Array.mem_of_getElem? ht)).mp hflag).symm.trans hentry)
  rw [← hid, ha.id_eq_of_getElem? ht]

theorem Decides.deterministicOver (h : d.Decides L) {characters : Set Char}
    (hcharacters : ∀ c, c ∈ characters ↔ ∃ w ∈ L, c ∈ w) : d.DeterministicOver characters where
  epsilon_not_mem := h.epsilon_not_mem
  existsUnique_entry := by
    obtain ⟨p, hentry, -⟩ := h.exists_entry
    exact h.wellFormed.existsUnique_entry hentry
  size_targets_le s hs l := by
    obtain ⟨q, hq⟩ := mem_states_iff.mp hs
    exact (h.functionalAt q).size_targets_le hq l
  char_mem_iff c := by
    rw [h.mem_alphabet, hcharacters]
    constructor
    · rintro ⟨c', hc, hL⟩
      cases hc
      exact hL
    · exact fun hL => ⟨c, rfl, hL⟩

end Automaton

namespace System

variable {β ε : Type} [DecidableEq β] {S : System β} {a : Automaton} {items : List β} {x : β}

/-- **All states can be reached if the items are what is found from the first of them** by a search
that follows the steps of the system. -/
theorem Presents.reachable {successors : β → Except ε (List β)} {d : Discipline}
    (h : S.Presents a items) (hexplored : Explored successors d [x] items)
    (hsteps : ∀ y ∈ items, ∀ next, successors y = .ok next → ∀ z ∈ next, ∃ l, S.step y l = some z)
    {q : StateId} (hq : q ∈ a) : a.Reachable q := by
  have hfound : ∀ y, Discoverable successors [x] y →
      ∃ i, items[i]? = some y ∧ a.Reachable ⟨i, a.origin⟩ := by
    intro y hy
    induction hy with
    | seed hy =>
      rw [List.mem_singleton] at hy
      exact ⟨0, hy ▸ hexplored.getElem?_zero, ⟨_, h.entry_eq, .refl⟩⟩
    | @next y z next hy hnext hz ih =>
      obtain ⟨i, hi, hreachable⟩ := ih
      obtain ⟨l, hstep⟩ := hsteps y (hexplored.mem_iff.mpr hy) next hnext z hz
      obtain ⟨j, hj⟩ := List.mem_iff_getElem?.mp (hexplored.mem_iff.mpr (hy.next hnext hz))
      exact ⟨j, hj, hreachable.tail ((h.hasArc_iff hi).mpr ⟨j, z, hstep, hj, rfl⟩)⟩
  obtain ⟨i, y, rfl, hi⟩ := h.origin_eq_of_mem hq
  obtain ⟨j, hj, hreachable⟩ := hfound y (hexplored.mem_iff.mp (List.mem_of_getElem? hi))
  rw [h.index_unique hi hj]
  exact hreachable

end System

end PatternAutomata
