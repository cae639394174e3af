import PatternAutomata.Automaton.Basic

/-!
# Well-formed automata

The operations of `Automaton` check the states and letters they are given.  What these checks are
good for is `WellFormed`: every state carries its own identifier, every arc is on a letter of the
alphabet and leads to a state of the automaton, epsilon arcs to oneself are in place, and the entry
flag and the designated entry agree.

States are looked at through `state?`, membership `q ∈ a` and the two views `HasArc` and `IsExit`.
Each operation has one lemma for each view, so that nothing below unfolds the arrays.

* `Built`: an automaton that comes about by operations on the automaton without states.
* `Built.wellFormed`: it is well formed.
-/

namespace PatternAutomata

namespace Automaton

variable {a b : Automaton} {p q r : StateId} {l m : Letter} {s : State}

/-! ## Views of an automaton -/

/-- A state belongs to an automaton if it has its origin and an index in range. -/
instance : Membership StateId Automaton := ⟨fun a q => q.origin = a.origin ∧ q.index < a.size⟩

theorem mem_def : q ∈ a ↔ q.origin = a.origin ∧ q.index < a.size := Iff.rfl

instance : Decidable (q ∈ a) := decidable_of_iff _ mem_def.symm

/-- An arc on a letter leads from one state to another. -/
def HasArc (a : Automaton) (p : StateId) (l : Letter) (q : StateId) : Prop :=
  ∃ s, a.state? p = some s ∧ ⟨l, q⟩ ∈ s.arcs

/-- A state of the automaton is an exit. -/
def IsExit (a : Automaton) (q : StateId) : Prop := ∃ s, a.state? q = some s ∧ s.isExit = true

theorem mem_iff_state? : q ∈ a ↔ ∃ s, a.state? q = some s := by
  rw [mem_def, state?]
  constructor
  · rintro ⟨horigin, hindex⟩
    exact ⟨a.states[q.index], by rw [if_pos horigin]; exact Array.getElem?_eq_getElem hindex⟩
  · rintro ⟨s, hs⟩
    by_cases horigin : q.origin = a.origin
    · rw [if_pos horigin] at hs
      exact ⟨horigin, (Array.getElem?_eq_some_iff.mp hs).1⟩
    · rw [if_neg horigin] at hs
      cases hs

theorem mem_of_state? (h : a.state? q = some s) : q ∈ a := mem_iff_state?.mpr ⟨s, h⟩

theorem HasArc.source_mem (h : a.HasArc p l q) : p ∈ a := by
  obtain ⟨s, hs, -⟩ := h
  exact mem_of_state? hs

theorem IsExit.mem (h : a.IsExit q) : q ∈ a := by
  obtain ⟨s, hs, -⟩ := h
  exact mem_of_state? hs

theorem hasArc_iff (h : a.state? p = some s) : a.HasArc p l q ↔ ⟨l, q⟩ ∈ s.arcs := by
  constructor
  · rintro ⟨s', hs', hq⟩
    rw [h] at hs'
    cases hs'
    exact hq
  · exact fun hq => ⟨s, h, hq⟩

theorem isExit_iff (h : a.state? q = some s) : a.IsExit q ↔ s.isExit = true := by
  constructor
  · rintro ⟨s', hs', hexit⟩
    rw [h] at hs'
    cases hs'
    exact hexit
  · exact fun hexit => ⟨s, h, hexit⟩

theorem state_eq_ok_iff : a.state q = .ok s ↔ a.state? q = some s := by
  unfold state
  cases a.state? q <;> simp

theorem exists_state (h : q ∈ a) : ∃ s, a.state q = .ok s := by
  obtain ⟨s, hs⟩ := mem_iff_state?.mp h
  exact ⟨s, state_eq_ok_iff.mpr hs⟩

theorem state_eq_error (h : q ∉ a) : a.state q = .error (.foreignState q) := by
  unfold state
  cases hs : a.state? q with
  | none => rfl
  | some s => exact absurd (mem_of_state? hs) h

theorem requireEntry_eq (h : a.entry = some q) : a.requireEntry = .ok q := by
  rw [requireEntry, h]

theorem eq_of_index_eq (hp : p ∈ a) (hq : q ∈ a) (h : p.index = q.index) : p = q := by
  cases p
  cases q
  simp only [mem_def] at hp hq h
  rw [h, hp.1, hq.1]

/-! ## The state without arcs of its own -/

@[simp] theorem size_empty (origin : Nat) (alphabet : OrderedSet Letter) :
    (empty origin alphabet).size = 0 := rfl

@[simp] theorem not_mem_empty (origin : Nat) (alphabet : OrderedSet Letter) :
    q ∉ empty origin alphabet := fun h => Nat.not_lt_zero _ h.2

@[simp] theorem size_addState (a : Automaton) : a.addState.size = a.size + 1 := Array.size_push ..

@[simp] theorem origin_addState (a : Automaton) : a.addState.origin = a.origin := rfl

@[simp] theorem alphabet_addState (a : Automaton) : a.addState.alphabet = a.alphabet := rfl

@[simp] theorem entry_addState (a : Automaton) : a.addState.entry = a.entry := rfl

theorem nextId_not_mem (a : Automaton) : a.nextId ∉ a := fun h => Nat.lt_irrefl _ h.2

theorem mem_addState : q ∈ a.addState ↔ q ∈ a ∨ q = a.nextId := by
  rw [mem_def, mem_def, size_addState, origin_addState]
  cases q with
  | mk index origin =>
    simp only [nextId, StateId.mk.injEq]
    omega

theorem nextId_mem_addState (a : Automaton) : a.nextId ∈ a.addState := mem_addState.mpr (Or.inr rfl)

theorem mem_addState_of_mem (h : q ∈ a) : q ∈ a.addState := mem_addState.mpr (Or.inl h)

theorem state?_addState_of_mem (h : q ∈ a) : a.addState.state? q = a.state? q := by
  rw [state?, state?, if_pos h.1, if_pos (h.1.trans (origin_addState a).symm)]
  exact Array.getElem?_push_lt h.2 |>.trans (Array.getElem?_eq_getElem h.2).symm

theorem state?_addState_nextId (a : Automaton) :
    a.addState.state? a.nextId = some
      (if a.hasEpsilon then (State.isolated a.nextId).addArc .epsilon a.nextId
        else State.isolated a.nextId) := by
  rw [state?, if_pos (by rfl)]
  exact Array.getElem?_push_size

/-- Adding a state draws its epsilon arc, if there is one, and nothing else. -/
theorem hasArc_addState : a.addState.HasArc p l q ↔
    a.HasArc p l q ∨ (Letter.epsilon ∈ a.alphabet ∧ p = a.nextId ∧ l = .epsilon ∧ q = a.nextId) := by
  by_cases hp : p ∈ a
  · have hne : p ≠ a.nextId := fun h => nextId_not_mem a (h ▸ hp)
    simp only [HasArc, state?_addState_of_mem hp, hne, false_and, and_false, or_false]
  · have hnot : ¬ a.HasArc p l q := fun h => hp h.source_mem
    by_cases hnext : p = a.nextId
    · subst hnext
      rw [hasArc_iff (state?_addState_nextId a)]
      by_cases hε : Letter.epsilon ∈ a.alphabet
      · simp [hasEpsilon, hε, hnot, State.isolated]
      · simp [hasEpsilon, hε, hnot, State.isolated]
    · have hadd : ¬ a.addState.HasArc p l q := fun h =>
        (mem_addState.mp h.source_mem).elim hp hnext
      simp [hadd, hnot, hnext]

theorem isExit_addState : a.addState.IsExit q ↔ a.IsExit q := by
  by_cases hq : q ∈ a
  · simp only [IsExit, state?_addState_of_mem hq]
  · have hnot : ¬ a.IsExit q := fun h => hq h.mem
    by_cases hnext : q = a.nextId
    · subst hnext
      rw [isExit_iff (state?_addState_nextId a)]
      by_cases hε : a.hasEpsilon <;> simp [hε, hnot, State.isolated, State.addArc]
    · have hadd : ¬ a.addState.IsExit q := fun h => (mem_addState.mp h.mem).elim hq hnext
      simp [hadd, hnot]

/-! ## Changing one state -/

@[simp] theorem size_modifyState (a : Automaton) (q : StateId) (f : State → State) :
    (a.modifyState q f).size = a.size := Array.size_modify

theorem mem_modifyState {f : State → State} : p ∈ a.modifyState q f ↔ p ∈ a := by
  rw [mem_def, mem_def, size_modifyState]
  rfl

theorem state?_modifyState_self {f : State → State} (h : a.state? q = some s) :
    (a.modifyState q f).state? q = some (f s) := by
  have horigin := (mem_of_state? h).1
  rw [state?, if_pos horigin] at h
  rw [state?, if_pos (show q.origin = (a.modifyState q f).origin from horigin), modifyState,
    Array.getElem?_modify, if_pos rfl, h]
  rfl

theorem state?_modifyState_of_ne {f : State → State} (hq : q ∈ a) (h : p ≠ q) :
    (a.modifyState q f).state? p = a.state? p := by
  by_cases horigin : p.origin = a.origin
  · have hindex : q.index ≠ p.index := fun hindex => h (by
      cases p
      cases q
      simp only [mem_def] at hq horigin hindex
      rw [hindex, horigin, hq.1])
    rw [state?, state?, if_pos horigin,
      if_pos (show p.origin = (a.modifyState q f).origin from horigin), modifyState,
      Array.getElem?_modify, if_neg hindex]
  · rw [state?, state?, if_neg horigin,
      if_neg (show ¬ p.origin = (a.modifyState q f).origin from horigin)]

/-- A change that keeps the arcs of the state keeps all arcs. -/
theorem hasArc_modifyState {f : State → State} (hq : q ∈ a) (hf : ∀ s, (f s).arcs = s.arcs) :
    (a.modifyState q f).HasArc p l r ↔ a.HasArc p l r := by
  by_cases hpq : p = q
  · subst hpq
    obtain ⟨s, hs⟩ := mem_iff_state?.mp hq
    rw [hasArc_iff hs, hasArc_iff (state?_modifyState_self hs), hf]
  · rw [HasArc, HasArc, state?_modifyState_of_ne hq hpq]

/-- A change that keeps the exit flag of the state keeps all exits. -/
theorem isExit_modifyState {f : State → State} (hq : q ∈ a) (hf : ∀ s, (f s).isExit = s.isExit) :
    (a.modifyState q f).IsExit p ↔ a.IsExit p := by
  by_cases hpq : p = q
  · subst hpq
    obtain ⟨s, hs⟩ := mem_iff_state?.mp hq
    rw [isExit_iff hs, isExit_iff (state?_modifyState_self hs), hf]
  · rw [IsExit, IsExit, state?_modifyState_of_ne hq hpq]

/-! ## Drawing an arc -/

theorem addArc_eq_ok_iff : a.addArc p l q = .ok b ↔
    l ∈ a.alphabet ∧ q ∈ a ∧ p ∈ a ∧ b = a.modifyState p fun s => s.addArc l q := by
  unfold addArc
  by_cases hl : l ∈ a.alphabet
  · rw [if_pos hl]
    by_cases hq : q ∈ a
    · obtain ⟨t, ht⟩ := exists_state hq
      rw [ht]
      by_cases hp : p ∈ a
      · obtain ⟨s, hs⟩ := exists_state hp
        rw [hs]
        simp [hl, hq, hp, eq_comm]
      · rw [state_eq_error hp]
        simp [hp]
    · rw [state_eq_error hq]
      simp [hq]
  · rw [if_neg hl]
    simp [hl]

theorem exists_addArc (hl : l ∈ a.alphabet) (hp : p ∈ a) (hq : q ∈ a) :
    ∃ b, a.addArc p l q = .ok b := ⟨_, addArc_eq_ok_iff.mpr ⟨hl, hq, hp, rfl⟩⟩

theorem hasArc_addArc (h : a.addArc p l q = .ok b) {p' q' : StateId} :
    b.HasArc p' m q' ↔ a.HasArc p' m q' ∨ (p' = p ∧ m = l ∧ q' = q) := by
  obtain ⟨-, -, hp, rfl⟩ := addArc_eq_ok_iff.mp h
  by_cases hpp : p' = p
  · subst hpp
    obtain ⟨s, hs⟩ := mem_iff_state?.mp hp
    rw [hasArc_iff hs, hasArc_iff (state?_modifyState_self hs), State.mem_arcs_addArc, or_comm]
    simp
  · rw [HasArc, HasArc, state?_modifyState_of_ne hp hpp]
    simp [hpp]

theorem isExit_addArc (h : a.addArc p l q = .ok b) : b.IsExit r ↔ a.IsExit r := by
  obtain ⟨-, -, hp, rfl⟩ := addArc_eq_ok_iff.mp h
  exact isExit_modifyState hp fun _ => rfl

/-- Two automata have the same states, up to their flags and arcs. -/
structure SameStates (a b : Automaton) : Prop where
  origin_eq : b.origin = a.origin
  alphabet_eq : b.alphabet = a.alphabet
  size_eq : b.size = a.size

namespace SameStates

theorem mem_iff (h : SameStates a b) : q ∈ b ↔ q ∈ a := by
  rw [mem_def, mem_def, h.origin_eq, h.size_eq]

end SameStates

theorem sameStates_addArc (h : a.addArc p l q = .ok b) : SameStates a b := by
  obtain ⟨-, -, -, rfl⟩ := addArc_eq_ok_iff.mp h
  exact ⟨rfl, rfl, size_modifyState ..⟩

theorem entry_addArc (h : a.addArc p l q = .ok b) : b.entry = a.entry := by
  obtain ⟨-, -, -, rfl⟩ := addArc_eq_ok_iff.mp h
  rfl

/-! ## Marking states -/

theorem setExit_eq_ok_iff : a.setExit q = .ok b ↔
    q ∈ a ∧ b = a.modifyState q fun s => { s with isExit := true } := by
  unfold setExit
  by_cases hq : q ∈ a
  · obtain ⟨s, hs⟩ := exists_state hq
    rw [hs]
    simp [hq, eq_comm]
  · rw [state_eq_error hq]
    simp [hq]

theorem exists_setExit (h : q ∈ a) : ∃ b, a.setExit q = .ok b :=
  ⟨_, setExit_eq_ok_iff.mpr ⟨h, rfl⟩⟩

theorem sameStates_setExit (h : a.setExit q = .ok b) : SameStates a b := by
  obtain ⟨-, rfl⟩ := setExit_eq_ok_iff.mp h
  exact ⟨rfl, rfl, size_modifyState ..⟩

theorem entry_setExit (h : a.setExit q = .ok b) : b.entry = a.entry := by
  obtain ⟨-, rfl⟩ := setExit_eq_ok_iff.mp h
  rfl

theorem hasArc_setExit (h : a.setExit q = .ok b) {p' q' : StateId} :
    b.HasArc p' l q' ↔ a.HasArc p' l q' := by
  obtain ⟨hq, rfl⟩ := setExit_eq_ok_iff.mp h
  exact hasArc_modifyState hq fun _ => rfl

theorem isExit_setExit (h : a.setExit q = .ok b) : b.IsExit p ↔ a.IsExit p ∨ p = q := by
  obtain ⟨hq, rfl⟩ := setExit_eq_ok_iff.mp h
  by_cases hpq : p = q
  · subst hpq
    obtain ⟨s, hs⟩ := mem_iff_state?.mp hq
    rw [isExit_iff (state?_modifyState_self hs)]
    simp
  · rw [IsExit, IsExit, state?_modifyState_of_ne hq hpq]
    simp [hpq]

/-! ## The invariant -/

/-- What every operation keeps true of an automaton. -/
structure WellFormed (a : Automaton) : Prop where
  /-- A state carries the identifier it is found under. -/
  id_eq : ∀ {q s}, a.state? q = some s → s.id = q
  letter_mem : ∀ {p l q}, a.HasArc p l q → l ∈ a.alphabet
  target_mem : ∀ {p l q}, a.HasArc p l q → q ∈ a
  epsilon_self : ∀ {q}, Letter.epsilon ∈ a.alphabet → q ∈ a → a.HasArc q .epsilon q
  entry_mem : ∀ {q}, a.entry = some q → q ∈ a
  /-- The entry flag is carried by the designated entry and by no other state. -/
  isEntry_iff : ∀ {q s}, a.state? q = some s → (s.isEntry = true ↔ a.entry = some q)

theorem wellFormed_empty (origin : Nat) (alphabet : OrderedSet Letter) :
    (empty origin alphabet).WellFormed where
  id_eq h := absurd (mem_of_state? h) (not_mem_empty _ _)
  letter_mem h := absurd h.source_mem (not_mem_empty _ _)
  target_mem h := absurd h.source_mem (not_mem_empty _ _)
  epsilon_self _ h := absurd h (not_mem_empty _ _)
  entry_mem h := by cases h
  isEntry_iff h := absurd (mem_of_state? h) (not_mem_empty _ _)

theorem WellFormed.addState (h : a.WellFormed) : a.addState.WellFormed where
  id_eq {q s} hs := by
    rcases mem_addState.mp (mem_of_state? hs) with hq | rfl
    · exact h.id_eq (state?_addState_of_mem hq ▸ hs)
    · rw [state?_addState_nextId] at hs
      cases hs
      split <;> rfl
  letter_mem hpq := by
    rcases hasArc_addState.mp hpq with hpq | ⟨hε, -, rfl, -⟩
    · exact h.letter_mem hpq
    · exact hε
  target_mem hpq := by
    rcases hasArc_addState.mp hpq with hpq | ⟨-, -, -, rfl⟩
    · exact mem_addState_of_mem (h.target_mem hpq)
    · exact nextId_mem_addState a
  epsilon_self hε hq := by
    rcases mem_addState.mp hq with hq | rfl
    · exact hasArc_addState.mpr (Or.inl (h.epsilon_self hε hq))
    · exact hasArc_addState.mpr (Or.inr ⟨hε, rfl, rfl, rfl⟩)
  entry_mem hq := mem_addState_of_mem (h.entry_mem hq)
  isEntry_iff {q s} hs := by
    rcases mem_addState.mp (mem_of_state? hs) with hq | rfl
    · exact h.isEntry_iff (state?_addState_of_mem hq ▸ hs)
    · rw [state?_addState_nextId] at hs
      have hflag : s.isEntry = false := by
        cases hs
        split <;> rfl
      have hentry : a.entry ≠ some a.nextId := fun he => nextId_not_mem a (h.entry_mem he)
      simp [hflag, hentry]

/-- A change that keeps identifier, arcs and entry flag of one state keeps everything but exits. -/
theorem WellFormed.modifyState {f : State → State} (h : a.WellFormed) (hq : q ∈ a)
    (hid : ∀ s, (f s).id = s.id) (hflag : ∀ s, (f s).isEntry = s.isEntry)
    (hletter : ∀ {p l r}, (a.modifyState q f).HasArc p l r → l ∈ a.alphabet)
    (htarget : ∀ {p l r}, (a.modifyState q f).HasArc p l r → r ∈ a)
    (hkeep : ∀ {p l r}, a.HasArc p l r → (a.modifyState q f).HasArc p l r) :
    (a.modifyState q f).WellFormed := by
  have hlookup : ∀ {p t}, (a.modifyState q f).state? p = some t →
      ∃ s, a.state? p = some s ∧ t.id = s.id ∧ t.isEntry = s.isEntry := fun {p t} ht => by
    by_cases hpq : p = q
    · subst hpq
      obtain ⟨s, hs⟩ := mem_iff_state?.mp hq
      rw [state?_modifyState_self hs] at ht
      cases ht
      exact ⟨s, hs, hid s, hflag s⟩
    · rw [state?_modifyState_of_ne hq hpq] at ht
      exact ⟨t, ht, rfl, rfl⟩
  refine ⟨fun ht => ?_, hletter, fun hp => mem_modifyState.mpr (htarget hp), fun hε hp => ?_,
    fun he => mem_modifyState.mpr (h.entry_mem he), fun ht => ?_⟩
  · obtain ⟨s, hs, hs_id, -⟩ := hlookup ht
    rw [hs_id, h.id_eq hs]
  · exact hkeep (h.epsilon_self hε (mem_modifyState.mp hp))
  · obtain ⟨s, hs, -, hs_flag⟩ := hlookup ht
    rw [hs_flag, h.isEntry_iff hs]
    rfl

theorem WellFormed.addArc (h : a.WellFormed) (hb : a.addArc p l q = .ok b) : b.WellFormed := by
  have harc := fun {p' m q'} => @hasArc_addArc a b p q l m hb p' q'
  obtain ⟨hl, hq, hp, rfl⟩ := addArc_eq_ok_iff.mp hb
  refine h.modifyState hp (fun _ => rfl) (fun _ => rfl) (fun hpq => ?_) (fun hpq => ?_)
    fun hpq => harc.mpr (Or.inl hpq)
  · rcases harc.mp hpq with hpq | ⟨-, rfl, -⟩
    · exact h.letter_mem hpq
    · exact hl
  · rcases harc.mp hpq with hpq | ⟨-, -, rfl⟩
    · exact h.target_mem hpq
    · exact hq

theorem WellFormed.setExit (h : a.WellFormed) (hb : a.setExit q = .ok b) : b.WellFormed := by
  obtain ⟨hq, rfl⟩ := setExit_eq_ok_iff.mp hb
  have harc := fun {p l r} => @hasArc_modifyState a p q r l
    (fun s => { s with isExit := true }) hq fun _ => rfl
  exact h.modifyState hq (fun _ => rfl) (fun _ => rfl) (fun hpq => h.letter_mem (harc.mp hpq))
    (fun hpq => h.target_mem (harc.mp hpq)) harc.mpr

/-! ## Designating the entry -/

theorem exists_setEntry (h : q ∈ a) : ∃ b, a.setEntry q = .ok b := by
  obtain ⟨s, hs⟩ := exists_state h
  exact ⟨_, by rw [setEntry, hs]⟩

theorem mem_of_setEntry (h : a.setEntry q = .ok b) : q ∈ a := by
  by_cases hq : q ∈ a
  · exact hq
  · rw [setEntry, state_eq_error hq] at h
    cases h

theorem state?_withoutEntry (h : a.WellFormed) (p : StateId) :
    a.withoutEntry.state? p = (a.state? p).map fun s => { s with isEntry := false } := by
  have hkeep : ∀ {s}, a.state? p = some s → a.entry ≠ some p → { s with isEntry := false } = s :=
    fun {s} hs hne => by
      have hflag : s.isEntry = false := Bool.eq_false_iff.mpr fun ht =>
        hne ((h.isEntry_iff hs).mp ht)
      cases s
      cases hflag
      rfl
  rw [withoutEntry]
  cases he : a.entry with
  | none =>
    change a.state? p = _
    cases hs : a.state? p with
    | none => rfl
    | some s =>
      refine congrArg some (hkeep hs fun hep => ?_).symm
      rw [he] at hep
      cases hep
  | some q =>
    have hq := h.entry_mem he
    change (a.modifyState q fun s => { s with isEntry := false }).state? p = _
    by_cases hpq : p = q
    · subst hpq
      obtain ⟨s, hs⟩ := mem_iff_state?.mp hq
      rw [state?_modifyState_self hs, hs]
      rfl
    · rw [state?_modifyState_of_ne hq hpq]
      cases hs : a.state? p with
      | none => rfl
      | some s =>
        refine congrArg some (hkeep hs fun hep => hpq ?_).symm
        rw [he] at hep
        exact (Option.some.inj hep).symm

theorem mem_withoutEntry : q ∈ a.withoutEntry ↔ q ∈ a := by
  rw [withoutEntry]
  cases a.entry with
  | none => rfl
  | some p =>
    change q ∈ (a.modifyState p fun s => { s with isEntry := false }) ↔ q ∈ a
    exact mem_modifyState

theorem sameStates_setEntry (h : a.setEntry q = .ok b) : SameStates a b := by
  obtain ⟨s, hs⟩ := exists_state (mem_of_setEntry h)
  rw [setEntry, hs] at h
  cases h
  rw [withoutEntry]
  cases a.entry with
  | none => exact ⟨rfl, rfl, size_modifyState ..⟩
  | some p => exact ⟨rfl, rfl, (size_modifyState ..).trans (size_modifyState ..)⟩

theorem entry_setEntry (h : a.setEntry q = .ok b) : b.entry = some q := by
  obtain ⟨s, hs⟩ := exists_state (mem_of_setEntry h)
  rw [setEntry, hs] at h
  cases h
  rfl

/-- Designating an entry sets the flag of every state, and nothing else. -/
theorem state?_setEntry (h : a.WellFormed) (hb : a.setEntry q = .ok b) (p : StateId) :
    b.state? p = (a.state? p).map fun s => { s with isEntry := decide (p = q) } := by
  have hq := mem_of_setEntry hb
  obtain ⟨s, hs⟩ := exists_state hq
  rw [setEntry, hs] at hb
  cases hb
  change (a.withoutEntry.modifyState q fun s => { s with isEntry := true }).state? p = _
  by_cases hpq : p = q
  · subst hpq
    obtain ⟨t, ht⟩ := mem_iff_state?.mp hq
    have ht' := state?_withoutEntry h p
    rw [ht] at ht'
    rw [state?_modifyState_self ht', ht]
    simp
  · rw [state?_modifyState_of_ne (mem_withoutEntry.mpr hq) hpq, state?_withoutEntry h,
      decide_eq_false hpq]

theorem hasArc_setEntry (h : a.WellFormed) (hb : a.setEntry q = .ok b) {p r : StateId} :
    b.HasArc p l r ↔ a.HasArc p l r := by
  cases hs : a.state? p with
  | none => simp [HasArc, state?_setEntry h hb p, hs]
  | some s =>
    have ht := state?_setEntry h hb p
    rw [hs] at ht
    rw [hasArc_iff hs, hasArc_iff ht]

theorem isExit_setEntry (h : a.WellFormed) (hb : a.setEntry q = .ok b) :
    b.IsExit p ↔ a.IsExit p := by
  cases hs : a.state? p with
  | none => simp [IsExit, state?_setEntry h hb p, hs]
  | some s =>
    have ht := state?_setEntry h hb p
    rw [hs] at ht
    rw [isExit_iff hs, isExit_iff ht]

theorem WellFormed.setEntry (h : a.WellFormed) (hb : a.setEntry q = .ok b) : b.WellFormed where
  id_eq {p t} ht := by
    rw [state?_setEntry h hb] at ht
    obtain ⟨s, hs, rfl⟩ := Option.map_eq_some_iff.mp ht
    have hid := h.id_eq hs
    exact hid
  letter_mem hpq := (sameStates_setEntry hb).alphabet_eq ▸ h.letter_mem ((hasArc_setEntry h hb).mp hpq)
  target_mem hpq := (sameStates_setEntry hb).mem_iff.mpr (h.target_mem ((hasArc_setEntry h hb).mp hpq))
  epsilon_self hε hp := (hasArc_setEntry h hb).mpr
    (h.epsilon_self ((sameStates_setEntry hb).alphabet_eq ▸ hε) ((sameStates_setEntry hb).mem_iff.mp hp))
  entry_mem he := by
    rw [entry_setEntry hb] at he
    cases he
    exact (sameStates_setEntry hb).mem_iff.mpr (mem_of_setEntry hb)
  isEntry_iff {p t} ht := by
    rw [state?_setEntry h hb] at ht
    obtain ⟨s, hs, rfl⟩ := Option.map_eq_some_iff.mp ht
    rw [entry_setEntry hb, Option.some.injEq, decide_eq_true_iff]
    exact eq_comm

/-! ## What the operations build -/

/-- An automaton that comes about by operations on an automaton without states. -/
inductive Built : Automaton → Prop where
  | empty (origin : Nat) (alphabet : OrderedSet Letter) : Built (empty origin alphabet)
  | addState {a : Automaton} : Built a → Built a.addState
  | addArc {a b : Automaton} {p q : StateId} {l : Letter} : Built a → a.addArc p l q = .ok b → Built b
  | setEntry {a b : Automaton} {q : StateId} : Built a → a.setEntry q = .ok b → Built b
  | setExit {a b : Automaton} {q : StateId} : Built a → a.setExit q = .ok b → Built b

/-- **Operations build well-formed automata only.** -/
theorem Built.wellFormed (h : a.Built) : a.WellFormed := by
  induction h with
  | empty origin alphabet => exact wellFormed_empty origin alphabet
  | addState _ ih => exact ih.addState
  | addArc _ hb ih => exact ih.addArc hb
  | setEntry _ hb ih => exact ih.setEntry hb
  | setExit _ hb ih => exact ih.setExit hb

end Automaton

end PatternAutomata
