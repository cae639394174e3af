import PatternAutomata.Proofs.Automaton.InPlace
import PatternAutomata.Workbench

/-!
# What one step of building does

An edit in place works on the automaton itself, and could leave it half changed when it fails.  As
long as all automata are well formed this does not happen (`Change.setEntry_eq_settle`), so that an
edit does one of five things only.  `Effect` lists them, and whatever is said about the course of
building is said by going through this list.

* `perform_effect`: an edit of well-formed automata has one of the effects.
* `perform_eq_of_failed`: an edit that fails leaves the workbench as it was.
* `Edit.Applies.keeps`: what operations in place keep, and where they add a state or an entry.
-/

namespace PatternAutomata

namespace Workbench

open Automaton

variable {w w' : Workbench} {e : Edit} {m k : Nat} {a b c : Automaton} {f : Fault}
  {op : Automaton → Except Fault Automaton}

/-- All automata on a workbench are well formed. -/
def Sound (w : Workbench) : Prop :=
  ∀ {m : Nat} {a : Automaton}, w.automata[m]? = some a → a.WellFormed

/-- Another automaton takes a place. -/
def replace (w : Workbench) (m : Nat) (b : Automaton) : Workbench :=
  { w with automata := w.automata.setIfInBounds m b }

/-- One more automaton is put on the workbench. -/
def add (w : Workbench) (a : Automaton) : Workbench := { w with automata := w.automata.push a }

theorem getElem?_replace (ha : w.automata[m]? = some a) (b : Automaton) (k : Nat) :
    (w.replace m b).automata[k]? = if m = k then some b else w.automata[k]? := by
  rw [replace, Array.getElem?_setIfInBounds]
  split
  · rw [if_pos (Array.getElem?_eq_some_iff.mp ha).1]
  · rfl

theorem replace_self (ha : w.automata[m]? = some a) : w.replace m a = w := by
  have hsame : w.automata.setIfInBounds m a = w.automata := by
    refine Array.ext_getElem? fun k => ?_
    have hk := getElem?_replace ha a k
    rw [replace] at hk
    rw [hk]
    by_cases hmk : m = k
    · rw [if_pos hmk, ← hmk, ha]
    · rw [if_neg hmk]
  rw [replace, hsame]

theorem getElem?_add (w : Workbench) (a : Automaton) (k : Nat) :
    (w.add a).automata[k]? = if k = w.automata.size then some a else w.automata[k]? :=
  Array.getElem?_push

theorem eq_or_getElem?_of_replace (ha : w.automata[m]? = some a)
    (h : (w.replace m b).automata[k]? = some c) : (k = m ∧ c = b) ∨ w.automata[k]? = some c := by
  rw [getElem?_replace ha] at h
  by_cases hmk : m = k
  · rw [if_pos hmk] at h
    exact Or.inl ⟨hmk.symm, (Option.some.inj h).symm⟩
  · rw [if_neg hmk] at h
    exact Or.inr h

theorem exists_replace_iff (ha : w.automata[m]? = some a) {P : Automaton → Prop} :
    (∃ c, (w.replace m b).automata[k]? = some c ∧ P c) ↔
      (k = m ∧ P b) ∨ (k ≠ m ∧ ∃ c, w.automata[k]? = some c ∧ P c) := by
  rw [getElem?_replace ha]
  by_cases hk : m = k
  · simp [hk]
  · simp [hk, Ne.symm hk]

theorem eq_or_getElem?_of_add (h : (w.add b).automata[k]? = some c) :
    c = b ∨ w.automata[k]? = some c := by
  rw [getElem?_add] at h
  split at h
  · exact Or.inl (Option.some.inj h).symm
  · exact Or.inr h

theorem exists_add_iff {P : Automaton → Prop} :
    (∃ c, (w.add b).automata[k]? = some c ∧ P c) ↔
      (∃ c, w.automata[k]? = some c ∧ P c) ∨ (k = w.automata.size ∧ P b) := by
  rw [getElem?_add]
  by_cases hk : k = w.automata.size
  · simp [hk]
  · simp [hk]

/-! ## Operations in place -/

namespace Edit

/-- The place of the automaton that an edit is about. -/
def place : Edit → Option Nat
  | .create _ => none
  | .copy m | .addState m | .addArc m _ _ _ | .setEntry m _ | .setExit m _ => some m

/-- An edit applies an operation to the automaton at a place. -/
inductive Applies : Edit → Nat → (Automaton → Except Fault Automaton) → Prop where
  | addState (m : Nat) : Applies (.addState m) m fun a => .ok a.addState
  | addArc (m : Nat) (p : StateId) (l : Letter) (q : StateId) :
      Applies (.addArc m p l q) m fun a => a.addArc p l q
  | setEntry (m : Nat) (q : StateId) : Applies (.setEntry m q) m fun a => a.setEntry q
  | setExit (m : Nat) (q : StateId) : Applies (.setExit m q) m fun a => a.setExit q

theorem Applies.place_eq (h : e.Applies m op) : e.place = some m := by
  cases h <;> rfl

/-- What an edit in place makes of an automaton. -/
structure Keeps (e : Edit) (m : Nat) (a b : Automaton) : Prop where
  wellFormed : b.WellFormed
  origin_eq : b.origin = a.origin
  /-- A state that was not there before is one that the edit has added. -/
  mem : ∀ {q}, q ∈ b → q ∈ a ∨ (e = .addState m ∧ q = a.nextId)
  /-- Nothing takes the entry away, and only designating one provides it. -/
  entry_iff : b.entry ≠ none ↔ a.entry ≠ none ∨ ∃ q, e = .setEntry m q

theorem Applies.keeps (h : e.Applies m op) (ha : a.WellFormed) (hb : op a = .ok b) :
    e.Keeps m a b := by
  cases h with
  | addState =>
    cases hb
    refine ⟨ha.addState, rfl, fun hq => ?_, by simp⟩
    exact (mem_addState.mp hq).imp_right fun hq => ⟨rfl, hq⟩
  | addArc =>
    have hsame := sameStates_addArc hb
    exact ⟨ha.addArc hb, hsame.origin_eq, fun hq => Or.inl (hsame.mem_iff.mp hq),
      by simp [entry_addArc hb]⟩
  | setEntry =>
    have hsame := sameStates_setEntry hb
    exact ⟨ha.setEntry hb, hsame.origin_eq, fun hq => Or.inl (hsame.mem_iff.mp hq),
      by simp [entry_setEntry hb]⟩
  | setExit =>
    have hsame := sameStates_setExit hb
    exact ⟨ha.setExit hb, hsame.origin_eq, fun hq => Or.inl (hsame.mem_iff.mp hq),
      by simp [entry_setExit hb]⟩

end Edit

/-! ## Effects -/

/-- What an edit can make of a workbench, and what can be wrong with it. -/
inductive Effect (w : Workbench) : Edit → Workbench × Option Fault → Prop where
  | created (alphabet : OrderedSet Letter) : Effect w (.create alphabet)
      ({ w.add (.empty w.nextOrigin alphabet) with nextOrigin := w.nextOrigin + 1 }, none)
  | copied {m : Nat} {a : Automaton} : w.automata[m]? = some a → Effect w (.copy m) (w.add a, none)
  | changed {e : Edit} {m : Nat} {op : Automaton → Except Fault Automaton} {a b : Automaton} :
      e.Applies m op → w.automata[m]? = some a → op a = .ok b → Effect w e (w.replace m b, none)
  | failed {e : Edit} {m : Nat} {op : Automaton → Except Fault Automaton} {a : Automaton}
      {f : Fault} :
      e.Applies m op → w.automata[m]? = some a → op a = .error f → Effect w e (w, some f)
  /-- There is no automaton at the place. -/
  | absent {e : Edit} {m : Nat} : e.place = some m → w.automata[m]? = none → Effect w e (w, none)

/-- What an operation on the automaton at a place leaves behind that is all or nothing. -/
def settle (w : Workbench) (m : Nat) : Except Fault Automaton → Workbench × Option Fault
  | .ok b => (w.replace m b, none)
  | .error f => (w, some f)

theorem change_eq_settle {c : Change} {r : Except Fault Automaton}
    (ha : w.automata[m]? = some a) (hc : c a = Change.settle a r) :
    w.change m c = w.settle m r := by
  simp only [change, ha, hc]
  cases r with
  | ok b => rfl
  | error f =>
    have hsame := replace_self ha
    rw [replace] at hsame
    simp only [Change.settle, hsame, settle]

/-- An edit in place has the effect of its operation, and no effect if that fails. -/
theorem perform_eq_settle (hw : w.Sound) (h : e.Applies m op) (ha : w.automata[m]? = some a) :
    w.perform e = w.settle m (op a) := by
  cases h with
  | addState => exact change_eq_settle (r := .ok a.addState) ha rfl
  | addArc _ p l q => exact change_eq_settle ha (Change.addArc_eq_settle a p l q)
  | setEntry _ q => exact change_eq_settle ha (Change.setEntry_eq_settle (hw ha) q)
  | setExit _ q => exact change_eq_settle ha (Change.setExit_eq_settle a q)

theorem perform_of_absent (h : e.place = some m) (hm : w.automata[m]? = none) :
    w.perform e = (w, none) := by
  cases e with
  | create => cases h
  | _ =>
    cases h
    simp only [perform, change, hm]

theorem effect_of_applies (hw : w.Sound) (h : e.Applies m op) : Effect w e (w.perform e) := by
  cases ha : w.automata[m]? with
  | none =>
    rw [perform_of_absent h.place_eq ha]
    exact .absent h.place_eq ha
  | some a =>
    rw [perform_eq_settle hw h ha]
    cases hop : op a with
    | ok b => exact .changed h ha hop
    | error f => exact .failed h ha hop

/-- **A step of building has one of the listed effects.** -/
theorem perform_effect (hw : w.Sound) (e : Edit) : Effect w e (w.perform e) := by
  cases e with
  | create alphabet => exact .created alphabet
  | copy m =>
    cases ha : w.automata[m]? with
    | none =>
      rw [perform_of_absent rfl ha]
      exact .absent rfl ha
    | some a =>
      simp only [perform, ha]
      exact .copied ha
  | addState m => exact effect_of_applies hw (.addState m)
  | addArc m p l q => exact effect_of_applies hw (.addArc m p l q)
  | setEntry m q => exact effect_of_applies hw (.setEntry m q)
  | setExit m q => exact effect_of_applies hw (.setExit m q)

theorem perform_eq_of_failed (hw : w.Sound) (h : (w.perform e).2 ≠ none) :
    (w.perform e).1 = w := by
  have heffect := perform_effect hw e
  revert h
  generalize w.perform e = result at heffect ⊢
  cases heffect with
  | failed => exact fun _ => rfl
  | _ => exact fun h => absurd rfl h

end Workbench

end PatternAutomata
