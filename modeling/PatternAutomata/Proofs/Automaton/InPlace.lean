import Mathlib.Logic.Basic
import PatternAutomata.Automaton.InPlace
import PatternAutomata.Proofs.Automaton.Extensionality

/-!
# Changes in place are all or nothing

A change in place could leave a part of its work behind when it fails.  `settle` is the outcome of a
change that does not: it leaves the automaton that an operation makes, or the automaton as it was.

* `addArc_eq_settle`, `setExit_eq_settle`: drawing an arc and marking an exit check everything
  before they write anything.
* `setEntry_eq_settle`: designating an entry flags the new entry before it looks up the old one.  In
  a well-formed automaton the designated entry is one of its states, so this cannot fail.
-/

namespace PatternAutomata

theorem State.eq_of_isEntry {s : State} {x : Bool} (h : s.isEntry = x) :
    { s with isEntry := x } = s := by
  cases s
  cases h
  rfl

namespace Automaton

variable {a b : Automaton} {p q : StateId} {l : Letter} {s : State}

/-! ## Operations in closed form -/

/-- States carry the identifiers of their places. -/
def Numbered (a : Automaton) : Prop :=
  ∀ (i : Nat) (s : State), a.states[i]? = some s → s.id = ⟨i, a.origin⟩

theorem WellFormed.numbered (ha : a.WellFormed) : a.Numbered := fun _ _ => ha.id_eq_of_getElem?

/-- Changing the state at a place is changing the state with an identifier. -/
theorem modifyState_eq_map {f : State → State} (ha : a.Numbered) (hq : q ∈ a) :
    a.modifyState q f = { a with states := a.states.map fun s => if s.id = q then f s else s } := by
  have hstates : a.states.modify q.index f =
      a.states.map fun s => if s.id = q then f s else s := by
    refine Array.ext (by simp) fun i hi hi' => ?_
    rw [Array.size_modify] at hi
    have hindex : q.index = i ↔ a.states[i].id = q := by
      rw [ha i _ (Array.getElem?_eq_getElem hi)]
      refine ⟨fun h => ?_, fun h => h ▸ rfl⟩
      subst h
      rw [← hq.1]
    rw [Array.getElem_modify, Array.getElem_map]
    exact if_congr hindex rfl rfl
  rw [modifyState, hstates]

/-- The automaton with another entry: every state is flagged if it is the entry, and only then. -/
def withEntry (a : Automaton) (q : StateId) : Automaton :=
  { a with
    states := a.states.map fun s => { s with isEntry := decide (s.id = q) }
    entry := some q }

theorem setEntry_eq (ha : a.WellFormed) (hq : q ∈ a) : a.setEntry q = .ok (a.withEntry q) := by
  obtain ⟨b, hb⟩ := exists_setEntry hq
  have hsame := sameStates_setEntry hb
  have hstates : b.states = (a.withEntry q).states := by
    refine Array.ext_getElem? fun i => ?_
    have hstate := state?_setEntry ha hb ⟨i, a.origin⟩
    rw [state?, state?, if_pos hsame.origin_eq.symm, if_pos rfl] at hstate
    rw [hstate, withEntry, Array.getElem?_map]
    refine Option.map_congr fun s hs => ?_
    rw [← ha.id_eq_of_getElem? hs]
  have hentry := entry_setEntry hb
  obtain ⟨horigin, halphabet, -⟩ := hsame
  rw [hb]
  cases b
  cases hstates
  cases hentry
  cases horigin
  cases halphabet
  rfl

theorem setEntry_eq_error (hq : q ∉ a) : a.setEntry q = .error (.foreignState q) := by
  rw [setEntry, state_eq_error hq]

theorem setExit_eq_error (hq : q ∉ a) : a.setExit q = .error (.foreignState q) := by
  rw [setExit, state_eq_error hq]

/-- Drawing an arc checks the letter first, then the target and then the source. -/
theorem addArc_eq (a : Automaton) (p : StateId) (l : Letter) (q : StateId) :
    a.addArc p l q =
      if l ∉ a.alphabet then .error (.foreignLetter l)
      else if q ∉ a then .error (.foreignState q)
      else if p ∉ a then .error (.foreignState p)
      else .ok (a.modifyState p fun s => s.addArc l q) := by
  by_cases hl : l ∈ a.alphabet
  · by_cases hq : q ∈ a
    · by_cases hp : p ∈ a
      · rw [if_neg (not_not.mpr hl), if_neg (not_not.mpr hq), if_neg (not_not.mpr hp)]
        exact addArc_eq_ok_iff.mpr ⟨hl, hq, hp, rfl⟩
      · obtain ⟨t, ht⟩ := exists_state hq
        rw [if_neg (not_not.mpr hl), if_neg (not_not.mpr hq), if_pos hp, addArc, if_pos hl, ht,
          state_eq_error hp]
    · rw [if_neg (not_not.mpr hl), if_pos hq, addArc, if_pos hl, state_eq_error hq]
  · rw [if_pos hl, addArc, if_neg hl]

end Automaton

namespace Change

open Automaton

variable {a b : Automaton} {p q : StateId} {l : Letter} {c d : Change} {f : State → State}

/-- What a change leaves behind that is all or nothing. -/
def settle (a : Automaton) : Except Fault Automaton → Automaton × Option Fault
  | .ok b => (b, none)
  | .error f => (a, some f)

theorem andThen_of_none (h : c a = (b, none)) : c.andThen d a = d b := by
  rw [andThen, h]

theorem andThen_of_some {f : Fault} (h : c a = (b, some f)) : c.andThen d a = (b, some f) := by
  rw [andThen, h]

theorem requireState_of_mem (h : q ∈ a) : requireState q a = (a, none) := by
  obtain ⟨s, hs⟩ := exists_state h
  rw [requireState, hs]

theorem requireState_of_not_mem (h : q ∉ a) : requireState q a = (a, some (.foreignState q)) := by
  rw [requireState, state_eq_error h]

theorem onState_of_mem (h : q ∈ a) : onState q f a = (a.modifyState q f, none) :=
  andThen_of_none (requireState_of_mem h)

theorem onState_of_not_mem (h : q ∉ a) : onState q f a = (a, some (.foreignState q)) :=
  andThen_of_some (requireState_of_not_mem h)

theorem addArc_eq_settle (a : Automaton) (p : StateId) (l : Letter) (q : StateId) :
    addArc p l q a = settle a (a.addArc p l q) := by
  rw [addArc_eq]
  by_cases hl : l ∈ a.alphabet
  · have hletter : requireLetter l a = (a, none) := if_pos hl
    rw [if_neg (not_not.mpr hl), addArc, andThen_of_none hletter]
    by_cases hq : q ∈ a
    · rw [if_neg (not_not.mpr hq), andThen_of_none (requireState_of_mem hq)]
      by_cases hp : p ∈ a
      · rw [if_neg (not_not.mpr hp), onState_of_mem hp, settle]
      · rw [if_pos hp, onState_of_not_mem hp, settle]
    · rw [if_pos hq, andThen_of_some (requireState_of_not_mem hq), settle]
  · have hletter : requireLetter l a = (a, some (.foreignLetter l)) := if_neg hl
    rw [if_pos hl, addArc, andThen_of_some hletter, settle]

theorem setExit_eq_settle (a : Automaton) (q : StateId) :
    setExit q a = settle a (a.setExit q) := by
  rw [setExit]
  by_cases hq : q ∈ a
  · rw [onState_of_mem hq, setExit_eq_ok_iff.mpr ⟨hq, rfl⟩, settle]
  · rw [onState_of_not_mem hq, setExit_eq_error hq, settle]

/-- A state after the flag has been taken from the previous entry. -/
def unflagged (previous : Option StateId) (q : StateId) (s : State) : State :=
  if previous = some s.id ∧ s.id ≠ q then { s with isEntry := false } else s

/-- Taking the flag from the previous entry succeeds if that is a state of the automaton. -/
theorem unflag_eq {previous : Option StateId} (ha : a.Numbered)
    (hprevious : ∀ p, previous = some p → p ∈ a) (q : StateId) :
    unflag previous q a = ({ a with states := a.states.map (unflagged previous q) }, none) := by
  have hskip (h : ∀ s : State, ¬ (previous = some s.id ∧ s.id ≠ q)) :
      skip a = ({ a with states := a.states.map (unflagged previous q) }, none) := by
    have hsame : unflagged previous q = id := funext fun s => if_neg (h s)
    rw [hsame, Array.map_id, skip]
  cases previous with
  | none => exact hskip fun s h => nomatch h.1
  | some p =>
    by_cases hpq : p = q
    · rw [unflag, if_pos hpq]
      exact hskip fun s h => h.2 (Option.some.inj h.1 ▸ hpq)
    · rw [unflag, if_neg hpq, onState_of_mem (hprevious p rfl),
        modifyState_eq_map ha (hprevious p rfl)]
      have hsame : (fun s : State => if s.id = p then { s with isEntry := false } else s) =
          unflagged (some p) q := funext fun s => by
        unfold unflagged
        grind
      rw [hsame]

/-- A state that is flagged exactly if it was the entry, after the flag has moved. -/
theorem unflagged_flagged {previous : Option StateId} {s : State}
    (hs : s.isEntry = true ↔ previous = some s.id) (q : StateId) :
    unflagged previous q (if s.id = q then { s with isEntry := true } else s) =
      { s with isEntry := decide (s.id = q) } := by
  by_cases hsq : s.id = q
  · rw [if_pos hsq, decide_eq_true hsq, unflagged, if_neg (fun h => h.2 hsq)]
  · rw [if_neg hsq, decide_eq_false hsq, unflagged]
    by_cases hprevious : previous = some s.id
    · rw [if_pos ⟨hprevious, hsq⟩]
    · rw [if_neg fun h => hprevious h.1]
      exact (State.eq_of_isEntry (Bool.eq_false_iff.mpr fun h => hprevious (hs.mp h))).symm

/-- **Designating an entry in place is all or nothing**, since the state that was the entry before
is there to take its flag from. -/
theorem setEntry_eq_settle (ha : a.WellFormed) (q : StateId) :
    setEntry q a = settle a (a.setEntry q) := by
  by_cases hq : q ∈ a
  · -- the automaton after the first two writes
    let b : Automaton := { a with
      states := a.states.map fun s => if s.id = q then { s with isEntry := true } else s
      entry := some q }
    have hwrites : setEntry q a = unflag a.entry q b := by
      rw [setEntry, andThen_of_none (onState_of_mem hq), modifyState_eq_map ha.numbered hq]
    have hb : b.Numbered := by
      intro i t ht
      obtain ⟨s, hs, rfl⟩ := Option.map_eq_some_iff.mp (Array.getElem?_map ▸ ht)
      rw [← ha.id_eq_of_getElem? hs]
      split <;> rfl
    have hprevious : ∀ p, a.entry = some p → p ∈ b := fun p hp =>
      ⟨(ha.entry_mem hp).1, lt_of_lt_of_eq (ha.entry_mem hp).2 Array.size_map.symm⟩
    have hstates : b.states.map (unflagged a.entry q) = (a.withEntry q).states := by
      rw [Array.map_map]
      exact Array.map_congr_left fun s hs => unflagged_flagged (ha.isEntry_iff_of_mem hs) q
    rw [hwrites, unflag_eq hb hprevious, hstates, Automaton.setEntry_eq ha hq, settle, withEntry]
  · rw [setEntry, andThen_of_some (onState_of_not_mem hq), setEntry_eq_error hq, settle]

end Change

end PatternAutomata
