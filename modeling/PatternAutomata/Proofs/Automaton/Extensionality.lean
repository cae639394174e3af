import PatternAutomata.Proofs.Automaton.WellFormed

/-!
# What determines an automaton

A well-formed automaton is determined by what can be said about it from outside: its origin, its
alphabet, how many states it has, which of them is the entry, which are exits and how they are
linked (`WellFormed.ext`).

* `eq_of_dump_eq`: it is even determined by its `dump`, which names states by their indices only.
* `built_iff_wellFormed`: it can be built step by step, so that being well-formed is all that can be
  said about automata in general.
-/

namespace PatternAutomata

namespace Automaton

variable {a b : Automaton} {p q : StateId} {l : Letter}

theorem state?_index {i : Nat} (hi : i < a.size) :
    a.state? ⟨i, a.origin⟩ = some a.states[i] := by
  rw [state?, if_pos rfl]
  exact Array.getElem?_eq_getElem hi

/-- **Well-formed automata are equal if they look the same from outside.** -/
theorem WellFormed.ext (ha : a.WellFormed) (hb : b.WellFormed) (horigin : a.origin = b.origin)
    (halphabet : a.alphabet = b.alphabet) (hsize : a.size = b.size) (hentry : a.entry = b.entry)
    (hexit : ∀ q, a.IsExit q ↔ b.IsExit q) (harc : ∀ p l q, a.HasArc p l q ↔ b.HasArc p l q) :
    a = b := by
  have hstates : a.states = b.states := by
    refine Array.ext hsize fun i hi hi' => ?_
    have hs := state?_index hi
    have ht := state?_index hi'
    have hid : a.states[i].id = b.states[i].id := by
      rw [ha.id_eq hs, hb.id_eq ht, horigin]
    have hisEntry : a.states[i].isEntry = b.states[i].isEntry := by
      rw [Bool.eq_iff_iff, ha.isEntry_iff hs, hb.isEntry_iff ht, hentry, horigin]
    have hisExit : a.states[i].isExit = b.states[i].isExit := by
      rw [Bool.eq_iff_iff, ← isExit_iff hs, ← isExit_iff ht, hexit, horigin]
    have harcs : a.states[i].arcs = b.states[i].arcs := by
      refine OrderedSet.ext_mem fun arc => ?_
      obtain ⟨l, q⟩ := arc
      rw [← hasArc_iff hs, ← hasArc_iff ht, harc, horigin]
    revert hid hisEntry hisExit harcs
    generalize a.states[i] = s
    generalize b.states[i] = t
    cases s
    cases t
    rintro rfl rfl rfl rfl
    rfl
  cases a
  cases b
  cases hstates
  cases hentry
  cases horigin
  cases halphabet
  rfl

/-! ## Dumps -/

/-- Everything about an automaton that does not depend on its origin: its alphabet, the index of its
entry, and for every state in the order of the indices whether it is an exit and, for every letter
of the alphabet, the indices of the states the letter leads to. -/
structure Dump where
  alphabet : List Letter
  entry : Option Nat
  states : List (Bool × List (List Nat))
  deriving DecidableEq, Repr

/-- The dump of an automaton. -/
def dump (a : Automaton) : Dump where
  alphabet := a.alphabet.toList
  entry := a.entry.map StateId.index
  states := a.states.toList.map fun s =>
    (s.isExit, a.alphabet.toList.map fun l => (s.targets l).toList.map StateId.index)

theorem hasArc_iff_index {s : State} (ha : a.WellFormed) (hs : a.state? p = some s) :
    a.HasArc p l q ↔
      l ∈ a.alphabet ∧ q ∈ a ∧ q.index ∈ (s.targets l).toList.map StateId.index := by
  constructor
  · intro h
    exact ⟨ha.letter_mem h, ha.target_mem h,
      List.mem_map_of_mem (State.mem_targets.mpr ((hasArc_iff hs).mp h))⟩
  · rintro ⟨-, hq, hindex⟩
    obtain ⟨r, hr, hrq⟩ := List.mem_map.mp hindex
    have harc : a.HasArc p l r := (hasArc_iff hs).mpr (State.mem_targets.mp hr)
    rwa [eq_of_index_eq hq (ha.target_mem harc) hrq.symm]

/-- **Well-formed automata of one origin are equal if their dumps are.** -/
theorem eq_of_dump_eq (ha : a.WellFormed) (hb : b.WellFormed) (horigin : a.origin = b.origin)
    (h : a.dump = b.dump) : a = b := by
  have halphabet : a.alphabet = b.alphabet :=
    OrderedSet.toList_injective (congrArg Dump.alphabet h)
  have hstates := congrArg Dump.states h
  have hsize : a.size = b.size := by
    have hlength := congrArg List.length hstates
    simpa [dump, size] using hlength
  have hmem : ∀ {q}, q ∈ a ↔ q ∈ b := by
    intro q
    rw [mem_def, mem_def, horigin, hsize]
  have hstate : ∀ {q}, q ∈ a → ∃ s t, a.state? q = some s ∧ b.state? q = some t ∧
      s.isExit = t.isExit ∧ ∀ l ∈ b.alphabet,
        (s.targets l).toList.map StateId.index = (t.targets l).toList.map StateId.index := by
    intro q hq
    obtain ⟨s, hs⟩ := mem_iff_state?.mp hq
    obtain ⟨t, ht⟩ := mem_iff_state?.mp (hmem.mp hq)
    refine ⟨s, t, hs, ht, ?_⟩
    rw [state?, if_pos hq.1, ← Array.getElem?_toList] at hs
    rw [state?, if_pos (hmem.mp hq).1, ← Array.getElem?_toList] at ht
    have hget := congrArg (fun states => states[q.index]?) hstates
    simp only [dump, List.getElem?_map, hs, ht, Option.map_some, Option.some.injEq, Prod.mk.injEq,
      halphabet] at hget
    exact ⟨hget.1, fun l hl => List.map_inj_left.mp hget.2 l hl⟩
  refine ha.ext hb horigin halphabet hsize ?_ (fun q => ?_) fun p l q => ?_
  · have hindex : a.entry.map StateId.index = b.entry.map StateId.index := congrArg Dump.entry h
    cases hp : a.entry with
    | none =>
      rw [hp] at hindex
      exact (Option.map_eq_none_iff.mp hindex.symm).symm
    | some p =>
      rw [hp] at hindex
      obtain ⟨q, hq, hpq⟩ := Option.map_eq_some_iff.mp hindex.symm
      rw [hq, eq_of_index_eq (hmem.mp (ha.entry_mem hp)) (hb.entry_mem hq) hpq.symm]
  · by_cases hq : q ∈ a
    · obtain ⟨s, t, hs, ht, hexit, -⟩ := hstate hq
      rw [isExit_iff hs, isExit_iff ht, hexit]
    · exact ⟨fun h => absurd h.mem hq, fun h => absurd (hmem.mpr h.mem) hq⟩
  · by_cases hp : p ∈ a
    · obtain ⟨s, t, hs, ht, -, htargets⟩ := hstate hp
      rw [hasArc_iff_index ha hs, hasArc_iff_index hb ht, halphabet, hmem]
      refine and_congr_right fun hl => and_congr_right fun _ => ?_
      rw [htargets l hl]
    · exact ⟨fun h => absurd h.source_mem hp, fun h => absurd (hmem.mpr h.source_mem) hp⟩

/-! ## Building an automaton again -/

/-- States without arcs, but for the epsilon arcs they get by themselves. -/
theorem exists_built_states (origin : Nat) (alphabet : OrderedSet Letter) (n : Nat) :
    ∃ a : Automaton, a.Built ∧ a.origin = origin ∧ a.alphabet = alphabet ∧ a.size = n ∧
      a.entry = none ∧ (∀ q, ¬ a.IsExit q) ∧
      ∀ p l q, a.HasArc p l q ↔ Letter.epsilon ∈ alphabet ∧ l = .epsilon ∧ q = p ∧ p ∈ a := by
  induction n with
  | zero =>
    refine ⟨_, .empty origin alphabet, rfl, rfl, rfl, rfl,
      fun q h => not_mem_empty _ _ h.mem, fun p l q => ⟨fun h => ?_, ?_⟩⟩
    · exact absurd h.source_mem (not_mem_empty _ _)
    · rintro ⟨-, -, -, hp⟩
      exact absurd hp (not_mem_empty _ _)
  | succ n ih =>
    obtain ⟨a, ha, rfl, rfl, hsize, hentry, hexit, harc⟩ := ih
    refine ⟨a.addState, ha.addState, rfl, rfl, by rw [size_addState, hsize], hentry,
      fun q h => hexit q (isExit_addState.mp h), fun p l q => ?_⟩
    rw [hasArc_addState, harc, mem_addState]
    constructor
    · rintro (⟨hε, rfl, rfl, hp⟩ | ⟨hε, rfl, rfl, rfl⟩)
      · exact ⟨hε, rfl, rfl, Or.inl hp⟩
      · exact ⟨hε, rfl, rfl, Or.inr rfl⟩
    · rintro ⟨hε, rfl, rfl, hp | rfl⟩
      · exact Or.inl ⟨hε, rfl, rfl, hp⟩
      · exact Or.inr ⟨hε, rfl, rfl, rfl⟩

theorem Built.exists_arcs (ha : a.Built) (arcs : List (StateId × Letter × StateId))
    (harcs : ∀ p l q, (p, l, q) ∈ arcs → p ∈ a ∧ l ∈ a.alphabet ∧ q ∈ a) :
    ∃ b : Automaton, b.Built ∧ SameStates a b ∧ b.entry = a.entry ∧
      (∀ q, b.IsExit q ↔ a.IsExit q) ∧
      ∀ p l q, b.HasArc p l q ↔ a.HasArc p l q ∨ (p, l, q) ∈ arcs := by
  induction arcs with
  | nil => exact ⟨a, ha, ⟨rfl, rfl, rfl⟩, rfl, fun _ => Iff.rfl, fun p l q => by simp⟩
  | cons arc arcs ih =>
    obtain ⟨p, l, q⟩ := arc
    obtain ⟨b, hb, hsame, hentry, hexit, harc⟩ :=
      ih fun p l q h => harcs p l q (List.mem_cons_of_mem _ h)
    obtain ⟨hp, hl, hq⟩ := harcs p l q List.mem_cons_self
    obtain ⟨c, hc⟩ := exists_addArc (a := b) (l := l) (hsame.alphabet_eq ▸ hl)
      (hsame.mem_iff.mpr hp) (hsame.mem_iff.mpr hq)
    have hsame' := sameStates_addArc hc
    refine ⟨c, hb.addArc hc, ⟨hsame'.origin_eq.trans hsame.origin_eq,
      hsame'.alphabet_eq.trans hsame.alphabet_eq, hsame'.size_eq.trans hsame.size_eq⟩,
      (entry_addArc hc).trans hentry, fun q => (isExit_addArc hc).trans (hexit q),
      fun p' l' q' => ?_⟩
    rw [hasArc_addArc hc, harc, List.mem_cons, Prod.mk.injEq, Prod.mk.injEq, or_assoc]
    exact or_congr_right or_comm

theorem Built.exists_exits (ha : a.Built) (exits : List StateId) (hexits : ∀ q ∈ exits, q ∈ a) :
    ∃ b : Automaton, b.Built ∧ SameStates a b ∧ b.entry = a.entry ∧
      (∀ q, b.IsExit q ↔ a.IsExit q ∨ q ∈ exits) ∧
      ∀ p l q, b.HasArc p l q ↔ a.HasArc p l q := by
  induction exits with
  | nil => exact ⟨a, ha, ⟨rfl, rfl, rfl⟩, rfl, fun q => by simp, fun _ _ _ => Iff.rfl⟩
  | cons q exits ih =>
    obtain ⟨b, hb, hsame, hentry, hexit, harc⟩ :=
      ih fun q h => hexits q (List.mem_cons_of_mem _ h)
    obtain ⟨c, hc⟩ := exists_setExit (hsame.mem_iff.mpr (hexits q List.mem_cons_self))
    have hsame' := sameStates_setExit hc
    refine ⟨c, hb.setExit hc, ⟨hsame'.origin_eq.trans hsame.origin_eq,
      hsame'.alphabet_eq.trans hsame.alphabet_eq, hsame'.size_eq.trans hsame.size_eq⟩,
      (entry_setExit hc).trans hentry, fun q' => ?_,
      fun p l q' => (hasArc_setExit hc).trans (harc p l q')⟩
    rw [isExit_setExit hc, hexit, List.mem_cons, or_assoc]
    exact or_congr_right or_comm

theorem mem_states_iff {s : State} : s ∈ a.states ↔ ∃ q, a.state? q = some s := by
  constructor
  · intro hs
    obtain ⟨i, hi, rfl⟩ := Array.mem_iff_getElem.mp hs
    exact ⟨_, state?_index hi⟩
  · rintro ⟨q, hq⟩
    rw [state?, if_pos (mem_of_state? hq).1] at hq
    exact Array.mem_of_getElem? hq

theorem WellFormed.id_eq_of_getElem? (ha : a.WellFormed) {i : Nat} {s : State}
    (hs : a.states[i]? = some s) : s.id = ⟨i, a.origin⟩ :=
  ha.id_eq (by rw [state?, if_pos rfl, hs])

theorem WellFormed.isEntry_iff_of_mem (ha : a.WellFormed) {s : State} (hs : s ∈ a.states) :
    s.isEntry = true ↔ a.entry = some s.id := by
  obtain ⟨q, hq⟩ := mem_states_iff.mp hs
  rw [ha.isEntry_iff hq, ha.id_eq hq]

/-- The arcs of an automaton, with their sources. -/
def arcList (a : Automaton) : List (StateId × Letter × StateId) :=
  a.states.toList.flatMap fun s => s.arcs.toList.map fun arc => (s.id, arc.letter, arc.target)

/-- The exits of an automaton. -/
def exitList (a : Automaton) : List StateId :=
  (a.states.toList.filter State.isExit).map State.id

theorem WellFormed.mem_arcList (ha : a.WellFormed) : (p, l, q) ∈ a.arcList ↔ a.HasArc p l q := by
  simp only [arcList, List.mem_flatMap, List.mem_map, Array.mem_toList_iff, mem_states_iff]
  constructor
  · rintro ⟨s, ⟨p', hs⟩, ⟨l, q⟩, hlq, heq⟩
    cases heq
    rw [ha.id_eq hs]
    exact ⟨s, hs, hlq⟩
  · rintro ⟨s, hs, hlq⟩
    exact ⟨s, ⟨p, hs⟩, ⟨l, q⟩, hlq, by rw [ha.id_eq hs]⟩

theorem WellFormed.mem_exitList (ha : a.WellFormed) : q ∈ a.exitList ↔ a.IsExit q := by
  simp only [exitList, List.mem_map, List.mem_filter, Array.mem_toList_iff, mem_states_iff]
  constructor
  · rintro ⟨s, ⟨⟨p, hs⟩, hexit⟩, rfl⟩
    rw [ha.id_eq hs]
    exact ⟨s, hs, hexit⟩
  · rintro ⟨s, hs, hexit⟩
    exact ⟨s, ⟨⟨q, hs⟩, hexit⟩, ha.id_eq hs⟩

/-- **Every well-formed automaton can be built step by step.**  The operations preserve all there is
to preserve. -/
theorem built_iff_wellFormed : a.Built ↔ a.WellFormed := by
  refine ⟨Built.wellFormed, fun ha => ?_⟩
  obtain ⟨b, hb, horigin, halphabet, hsize, hentry, hnone, hself⟩ :=
    exists_built_states a.origin a.alphabet a.size
  have hmem : ∀ {q}, q ∈ b ↔ q ∈ a := by
    intro q
    rw [mem_def, mem_def, horigin, hsize]
  obtain ⟨c, hc, hsame, hentry', hexit', harc'⟩ := hb.exists_arcs a.arcList fun p l q h => by
    have hpq := ha.mem_arcList.mp h
    exact ⟨hmem.mpr hpq.source_mem, halphabet ▸ ha.letter_mem hpq, hmem.mpr (ha.target_mem hpq)⟩
  obtain ⟨d, hd, hsame', hentry'', hexit'', harc''⟩ := hc.exists_exits a.exitList fun q h =>
    hsame.mem_iff.mpr (hmem.mpr (ha.mem_exitList.mp h).mem)
  have harc : ∀ p l q, d.HasArc p l q ↔ a.HasArc p l q := by
    intro p l q
    rw [harc'', harc', ha.mem_arcList, hself, or_iff_right_of_imp]
    rintro ⟨hε, rfl, rfl, hp⟩
    exact ha.epsilon_self hε (hmem.mp hp)
  have hexit : ∀ q, d.IsExit q ↔ a.IsExit q := by
    intro q
    rw [hexit'', hexit', ha.mem_exitList, or_iff_right (hnone q)]
  have horigin' : d.origin = a.origin := by rw [hsame'.origin_eq, hsame.origin_eq, horigin]
  have halphabet' : d.alphabet = a.alphabet := by
    rw [hsame'.alphabet_eq, hsame.alphabet_eq, halphabet]
  have hsize' : d.size = a.size := by rw [hsame'.size_eq, hsame.size_eq, hsize]
  cases hp : a.entry with
  | none =>
    have hdentry : d.entry = a.entry := by rw [hentry'', hentry', hentry, hp]
    exact hd.wellFormed.ext ha horigin' halphabet' hsize' hdentry hexit harc ▸ hd
  | some p =>
    have hpd : p ∈ d := by
      have hpa := ha.entry_mem hp
      rw [mem_def, horigin', hsize']
      exact hpa
    obtain ⟨e, he⟩ := exists_setEntry hpd
    have hsame'' := sameStates_setEntry he
    have heq : e = a := (hd.setEntry he).wellFormed.ext ha (hsame''.origin_eq.trans horigin')
      (hsame''.alphabet_eq.trans halphabet') (hsame''.size_eq.trans hsize')
      ((entry_setEntry he).trans hp.symm)
      (fun q => (isExit_setEntry hd.wellFormed he).trans (hexit q))
      fun p l q => (hasArc_setEntry hd.wellFormed he).trans (harc p l q)
    exact heq ▸ hd.setEntry he

end Automaton

end PatternAutomata
