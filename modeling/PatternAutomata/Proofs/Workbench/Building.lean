import PatternAutomata.Proofs.Workbench.History

/-!
# What builders of automata can rely on

Building goes on at several automata at once, copies grow apart from what they were copied from, and
an identifier can be given to any automaton.  Steps can fail, and building goes on afterwards.  What
can be relied on all the same follows from the agreement of automata with their history
(`tracked`).

* `building_invariant`: what holds of the states of every automaton, and what questions to it can
  fail for.
* `building_faults`: which identifiers an automaton accepts, what its changes fail for, that a
  change that fails changes nothing, and how little is changed by one that succeeds.
-/

namespace PatternAutomata

namespace Workbench

open Automaton

variable {edits : List Edit} {m : Nat} {a b : Automaton} {p q : StateId} {l : Letter} {f : Fault}

/-- Building side by side, with faults in between, makes no automata that cannot be built one by one
and without a fault. -/
theorem built_of_building (ha : (empty.performAll edits).automata[m]? = some a) : a.Built :=
  built_iff_wellFormed.mpr ((tracked edits).sound ha)

/-! ## The invariant -/

/-- What holds of the state of an automaton that is found at an index. -/
structure StateInvariant (a : Automaton) (k : Nat) (s : State) : Prop where
  id_eq : s.id = ⟨k, a.origin⟩
  letter_mem : ∀ arc ∈ s.arcs, arc.letter ∈ a.alphabet
  /-- Arcs lead to states of the same automaton. -/
  target_own : ∀ arc ∈ s.arcs, arc.target.origin = a.origin ∧ arc.target.index < a.size
  epsilon_self : Letter.epsilon ∈ a.alphabet → ⟨.epsilon, s.id⟩ ∈ s.arcs
  isEntry_iff : s.isEntry = true ↔ a.entry = some s.id

theorem stateInvariant (ha : a.WellFormed) {k : Nat} {s : State} (hs : a.states[k]? = some s) :
    StateInvariant a k s := by
  have hid := ha.id_eq_of_getElem? hs
  have hstate : a.state? s.id = some s := by rw [hid, state?, if_pos rfl, hs]
  have harc : ∀ arc ∈ s.arcs, a.HasArc s.id arc.letter arc.target := fun arc harc =>
    (hasArc_iff hstate).mpr harc
  exact {
    id_eq := hid
    letter_mem := fun arc h => ha.letter_mem (harc arc h)
    target_own := fun arc h => ha.target_mem (harc arc h)
    epsilon_self := fun hε => (hasArc_iff hstate).mp (ha.epsilon_self hε (mem_of_state? hstate))
    isEntry_iff := ha.isEntry_iff hstate }

/-- **What holds of every automaton that is built.**  Each state is what its place says and leads to
states of the same automaton, and the flagged state is the entry, so that no two states are flagged.
Questions to the automaton never meet a foreign state, and lack an entry exactly if none was ever
designated. -/
theorem building_invariant (edits : List Edit)
    (ha : (empty.performAll edits).automata[m]? = some a) :
    (∀ k s, a.states[k]? = some s → StateInvariant a k s) ∧
    (∀ q, a.entry = some q → q ∈ a) ∧
    (∀ s ∈ a.states, ∀ t ∈ a.states, s.isEntry = true → t.isEntry = true → s = t) ∧
    Answers a.reachable (Designated edits m) ∧
    Answers a.isDeterministic (Designated edits m) ∧
    (∀ w, Answers (a.simulates w) (Designated edits m)) ∧
    ∀ w, Answers (a.accepts w) (Designated edits m) := by
  have hwell : a.WellFormed := (tracked edits).sound ha
  have hdesignated : Designated edits m = (a.entry ≠ none) := by
    rw [(tracked edits).designated_iff, after, ha]
    simp
  have hentry : ∀ s ∈ a.states, s.isEntry = true → a.entry = some s.id := fun s hs =>
    (hwell.isEntry_iff_of_mem hs).mp
  rw [hdesignated]
  refine ⟨fun k s => stateInvariant hwell, fun q => hwell.entry_mem, fun s hs t ht hsf htf => ?_,
    answers_reachable hwell, answers_isDeterministic hwell, answers_simulates hwell,
    answers_accepts hwell⟩
  have hid : s.id = t.id := Option.some.inj ((hentry s hs hsf).symm.trans (hentry t ht htf))
  obtain ⟨p, hp⟩ := mem_states_iff.mp hs
  obtain ⟨q, hq⟩ := mem_states_iff.mp ht
  have hpq : p = q := by rw [← hwell.id_eq hp, hid, hwell.id_eq hq]
  rw [hpq, hq] at hp
  exact (Option.some.inj hp).symm

/-- A copy outgrows its original.  Its second state is foreign to the original, and so is the state
of an automaton that was created independently, though its index is in range. -/
def outgrowing : List Edit :=
  [.create (.ofList [.char 'a', .epsilon]), .addState 0, .copy 0, .addState 1,
    .addArc 1 ⟨0, 0⟩ (.char 'a') ⟨1, 0⟩, .setEntry 1 ⟨1, 0⟩, .setEntry 1 ⟨0, 0⟩,
    .setEntry 0 ⟨1, 0⟩, .create ∅, .addState 2, .setEntry 0 ⟨0, 1⟩, .setExit 0 ⟨0, 0⟩]

/-- The copy after `outgrowing`. -/
def outgrown : Automaton where
  origin := 0
  alphabet := .ofList [.char 'a', .epsilon]
  states := #[
    ⟨⟨0, 0⟩, true, false, .ofList [⟨.epsilon, ⟨0, 0⟩⟩, ⟨.char 'a', ⟨1, 0⟩⟩]⟩,
    ⟨⟨1, 0⟩, false, false, .ofList [⟨.epsilon, ⟨1, 0⟩⟩]⟩]
  entry := some ⟨0, 0⟩

/-- The original after `outgrowing`. -/
def leftBehind : Automaton where
  origin := 0
  alphabet := .ofList [.char 'a', .epsilon]
  states := #[⟨⟨0, 0⟩, false, true, .ofList [⟨.epsilon, ⟨0, 0⟩⟩]⟩]
  entry := none

theorem building_invariant_outgrown :
    (empty.performAll outgrowing).automata[1]? = some outgrown ∧
    (∀ k s, outgrown.states[k]? = some s → StateInvariant outgrown k s) ∧
    Answers outgrown.reachable (Designated outgrowing 1) := by
  have ha : (empty.performAll outgrowing).automata[1]? = some outgrown := by decide
  obtain ⟨hstate, -, -, hreachable, -⟩ := building_invariant outgrowing ha
  exact ⟨ha, hstate, hreachable⟩

/-! ## Faults -/

/-- An identifier belongs to an automaton by its history: it was handed out for a state of an
automaton that stems from the same creation, and its index is in range. -/
def Belongs (edits : List Edit) (m : Nat) (a : Automaton) (q : StateId) : Prop :=
  (∃ r, Issued edits q r ∧ StemsFrom edits m r) ∧ q.index < a.size

theorem belongs_iff (ha : (after edits).automata[m]? = some a) : Belongs edits m a q ↔ q ∈ a := by
  have h := tracked edits
  constructor
  · rintro ⟨⟨r, hq, hr⟩, hindex⟩
    exact ⟨by rw [h.origin_of_issued hq, h.origin_eq hr ha], hindex⟩
  · exact fun hq => ⟨⟨a.origin, h.issued_of_mem ha hq, h.stemsFrom ha⟩, hq.2⟩

/-- What drawing an arc fails for: the letter comes first, then the target, then the source. -/
inductive ArcFault (edits : List Edit) (m : Nat) (a : Automaton) (p : StateId) (l : Letter)
    (q : StateId) : Fault → Prop where
  | letter : l ∉ a.alphabet → ArcFault edits m a p l q (.foreignLetter l)
  | target : l ∈ a.alphabet → ¬ Belongs edits m a q → ArcFault edits m a p l q (.foreignState q)
  | source : l ∈ a.alphabet → Belongs edits m a q → ¬ Belongs edits m a p →
      ArcFault edits m a p l q (.foreignState p)

/-- One automaton is another one with an arc drawn, and differs in nothing but the targets of its
source on its letter. -/
structure ArcDrawn (a : Automaton) (p : StateId) (l : Letter) (q : StateId) (b : Automaton) :
    Prop where
  origin_eq : b.origin = a.origin
  alphabet_eq : b.alphabet = a.alphabet
  entry_eq : b.entry = a.entry
  size_eq : b.size = a.size
  state : ∀ (k : Nat) (s : State), a.states[k]? = some s →
    ∃ t : State, b.states[k]? = some t ∧ t.id = s.id ∧ t.isEntry = s.isEntry ∧ t.isExit = s.isExit ∧
      ∀ l', t.targets l' = if s.id = p ∧ l' = l then (s.targets l').insert q else s.targets l'

theorem targets_addArc (s : State) (l : Letter) (q : StateId) (l' : Letter) :
    (s.addArc l q).targets l' = if l' = l then (s.targets l').insert q else s.targets l' := by
  refine OrderedSet.ext_mem fun r => ?_
  rw [State.mem_targets, State.mem_arcs_addArc, Arc.mk.injEq]
  by_cases hl : l' = l
  · rw [if_pos hl, OrderedSet.mem_insert, State.mem_targets, and_iff_right hl]
  · rw [if_neg hl, State.mem_targets, or_iff_right fun h => hl h.1]

theorem arcDrawn (ha : a.WellFormed) (h : a.addArc p l q = .ok b) : ArcDrawn a p l q b := by
  have hsame := sameStates_addArc h
  obtain ⟨-, -, hp, hb⟩ := addArc_eq_ok_iff.mp h
  rw [modifyState_eq_map ha.numbered hp] at hb
  refine ⟨hsame.origin_eq, hsame.alphabet_eq, entry_addArc h, hsame.size_eq, fun k s hs => ?_⟩
  refine ⟨if s.id = p then s.addArc l q else s, ?_, ?_⟩
  · rw [hb, Array.getElem?_map, hs]
    rfl
  · by_cases hsp : s.id = p
    · simp only [hsp, if_true, true_and]
      exact ⟨hsp, rfl, rfl, targets_addArc s l q⟩
    · simp [hsp]

theorem settle_eq_some_iff {w : Workbench} {r : Except Fault Automaton} :
    (w.settle m r).2 = some f ↔ r = .error f := by
  cases r <;> simp [settle]

theorem exists_of_settle_eq_none {w : Workbench} {r : Except Fault Automaton}
    (h : (w.settle m r).2 = none) : ∃ b, r = .ok b ∧ (w.settle m r).1 = w.replace m b := by
  cases r with
  | ok b => exact ⟨b, rfl, rfl⟩
  | error f => cases h

theorem addArc_eq_error_iff (ha : (after edits).automata[m]? = some a) :
    a.addArc p l q = .error f ↔ ArcFault edits m a p l q f := by
  rw [addArc_eq]
  have hp := belongs_iff (q := p) ha
  have hq := belongs_iff (q := q) ha
  constructor
  · intro h
    split_ifs at h with hl hq' hp'
    · cases h
      exact .source hl (hq.mpr hq') (hp.not.mpr hp')
    · cases h
      exact .target hl (hq.not.mpr hq')
    · cases h
      exact .letter hl
  · intro h
    cases h with
    | letter hl => rw [if_pos hl]
    | target hl hnot => rw [if_neg (not_not.mpr hl), if_pos (hq.not.mp hnot)]
    | source hl hq' hnot =>
      rw [if_neg (not_not.mpr hl), if_neg (not_not.mpr (hq.mp hq')), if_pos (hp.not.mp hnot)]

/-- What succeeds for the states of an automaton, and fails for all others as foreign, accepts the
identifiers that belong to it by its history. -/
theorem eq_error_iff_not_belongs {α : Type} {result : Except Fault α}
    (ha : (after edits).automata[m]? = some a) (hok : q ∈ a → ∃ x, result = .ok x)
    (herror : q ∉ a → result = .error (.foreignState q)) :
    result = .error f ↔ ¬ Belongs edits m a q ∧ f = .foreignState q := by
  rw [belongs_iff ha]
  by_cases hq : q ∈ a
  · obtain ⟨x, hx⟩ := hok hq
    simp [hx, hq]
  · simp [herror hq, hq, eq_comm]

theorem state_eq_ok_iff_belongs (ha : (after edits).automata[m]? = some a) (q : StateId) :
    (∃ s, a.state q = .ok s) ↔ Belongs edits m a q := by
  rw [belongs_iff ha, mem_iff_state?]
  exact exists_congr fun s => state_eq_ok_iff

/-- **Faults are exact and leave no trace.**  What an automaton accepts is told by its history, each
change fails for the first of its conditions that does not hold, and a step that fails leaves the
workbench as it was.  An arc that is drawn adds to the targets of one state on one letter only, and
designating an entry moves flags only. -/
theorem building_faults (edits : List Edit)
    (ha : (empty.performAll edits).automata[m]? = some a) :
    let w := empty.performAll edits
    (∀ q, (∃ s, a.state q = .ok s) ↔ Belongs edits m a q) ∧
    (∀ q f, a.state q = .error f ↔ ¬ Belongs edits m a q ∧ f = .foreignState q) ∧
    (∀ p l q f, (w.perform (.addArc m p l q)).2 = some f ↔ ArcFault edits m a p l q f) ∧
    (∀ q f, (w.perform (.setEntry m q)).2 = some f ↔
      ¬ Belongs edits m a q ∧ f = .foreignState q) ∧
    (∀ q f, (w.perform (.setExit m q)).2 = some f ↔
      ¬ Belongs edits m a q ∧ f = .foreignState q) ∧
    (∀ e, (w.perform e).2 ≠ none → (w.perform e).1 = w) ∧
    (∀ p l q, (w.perform (.addArc m p l q)).2 = none →
      ∃ b, ArcDrawn a p l q b ∧ (w.perform (.addArc m p l q)).1 = w.replace m b) ∧
    ∀ q, (w.perform (.setEntry m q)).2 = none →
      (w.perform (.setEntry m q)).1 = w.replace m (a.withEntry q) := by
  intro w
  have hw : w.Sound := (tracked edits).sound
  have harc (p : StateId) (l : Letter) (q : StateId) := perform_eq_settle hw (.addArc m p l q) ha
  have hentry (q : StateId) := perform_eq_settle hw (.setEntry m q) ha
  have hexit (q : StateId) := perform_eq_settle hw (.setExit m q) ha
  refine ⟨state_eq_ok_iff_belongs ha, fun q f =>
      eq_error_iff_not_belongs ha exists_state state_eq_error, fun p l q f => ?_, fun q f => ?_,
    fun q f => ?_, fun e => perform_eq_of_failed hw, fun p l q h => ?_, fun q h => ?_⟩
  · rw [harc, settle_eq_some_iff, addArc_eq_error_iff ha]
  · rw [hentry, settle_eq_some_iff]
    exact eq_error_iff_not_belongs ha exists_setEntry setEntry_eq_error
  · rw [hexit, settle_eq_some_iff]
    exact eq_error_iff_not_belongs ha exists_setExit setExit_eq_error
  · rw [harc] at h ⊢
    obtain ⟨b, hb, hresult⟩ := exists_of_settle_eq_none h
    exact ⟨b, arcDrawn (hw ha) hb, hresult⟩
  · rw [hentry] at h ⊢
    obtain ⟨b, hb, hresult⟩ := exists_of_settle_eq_none h
    rw [setEntry_eq (hw ha) (mem_of_setEntry hb)] at hb
    cases hb
    exact hresult

/-- The second state of the copy was handed out for the same creation, but is out of range. -/
theorem building_faults_leftBehind :
    (empty.performAll outgrowing).automata[0]? = some leftBehind ∧
    ¬ Belongs outgrowing 0 leftBehind ⟨1, 0⟩ ∧
    ((empty.performAll outgrowing).perform (.setEntry 0 ⟨1, 0⟩)).2 =
      some (.foreignState ⟨1, 0⟩) := by
  have ha : (empty.performAll outgrowing).automata[0]? = some leftBehind := by decide
  obtain ⟨-, -, -, hentry, -⟩ := building_faults outgrowing ha
  have hbelongs : ¬ Belongs outgrowing 0 leftBehind ⟨1, 0⟩ := fun h => absurd h.2 (by decide)
  exact ⟨ha, hbelongs, (hentry _ _).mpr ⟨hbelongs, rfl⟩⟩

end Workbench

end PatternAutomata
