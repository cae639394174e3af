import Mathlib.Data.Finset.Image
import Mathlib.Data.Finset.Range
import PatternAutomata.Automaton.Acceptance
import PatternAutomata.Proofs.Automaton.WellFormed
import PatternAutomata.Proofs.Exploration

/-!
# Paths and the words they spell

`Leads a p w q` says that arcs of `a` lead from `p` to `q` and that their letters, with the
epsilons left out, spell `w`.  It is what epsilon closures and simulations compute.

* `closure_spec`: the closure of some seeds is what epsilon arcs lead to.
* `simulatesFrom_spec`: one simulation, from any closed set of states on.
* `simulates_spec`: a simulation accepts a word exactly if a path from the entry to an exit spells
  it.
-/

namespace PatternAutomata

namespace Automaton

variable {a b : Automaton} {p q r : StateId} {c : Char} {l : Letter} {u v w : List Char}

/-- Arcs lead from one state to another, and their letters without the epsilons spell a word. -/
inductive Leads (a : Automaton) : StateId → List Char → StateId → Prop where
  | refl (q : StateId) : Leads a q [] q
  | epsilon {p q r : StateId} {w : List Char} :
      a.HasArc p .epsilon q → Leads a q w r → Leads a p w r
  | char {p q r : StateId} {c : Char} {w : List Char} :
      a.HasArc p (.char c) q → Leads a q w r → Leads a p (c :: w) r

/-- A path from the entry to an exit spells a word. -/
def Accepts (a : Automaton) (w : List Char) : Prop :=
  ∃ p q, a.entry = some p ∧ a.Leads p w q ∧ a.IsExit q

theorem accepts_iff_leads (hentry : a.entry = some p) :
    a.Accepts w ↔ ∃ q, a.Leads p w q ∧ a.IsExit q := by
  constructor
  · rintro ⟨p', q, hp', hpq, hq⟩
    rw [hentry] at hp'
    cases hp'
    exact ⟨q, hpq, hq⟩
  · rintro ⟨q, hpq, hq⟩
    exact ⟨p, q, hentry, hpq, hq⟩

namespace Leads

theorem of_epsilon (h : a.HasArc p .epsilon q) : a.Leads p [] q := .epsilon h (.refl q)

theorem of_char (h : a.HasArc p (.char c) q) : a.Leads p [c] q := .char h (.refl q)

theorem append (h : a.Leads p u q) (h' : a.Leads q v r) : a.Leads p (u ++ v) r := by
  induction h with
  | refl _ => exact h'
  | epsilon harc _ ih => exact .epsilon harc (ih h')
  | char harc _ ih => exact .char harc (ih h')

/-- A path that spells a character and more passes an arc on that character. -/
theorem exists_of_cons (h : a.Leads p (c :: w) r) :
    ∃ q q', a.Leads p [] q ∧ a.HasArc q (.char c) q' ∧ a.Leads q' w r := by
  generalize hword : c :: w = word at h
  induction h with
  | refl _ => cases hword
  | epsilon harc _ ih =>
    obtain ⟨q, q', hq, hc, hw⟩ := ih hword
    exact ⟨q, q', .epsilon harc hq, hc, hw⟩
  | char harc hw _ =>
    cases hword
    exact ⟨_, _, .refl _, harc, hw⟩

theorem mono (harcs : ∀ {p l q}, a.HasArc p l q → b.HasArc p l q) (h : a.Leads p w q) :
    b.Leads p w q := by
  induction h with
  | refl q => exact .refl q
  | epsilon harc _ ih => exact .epsilon (harcs harc) ih
  | char harc _ ih => exact .char (harcs harc) ih

theorem target_mem (ha : a.WellFormed) (h : a.Leads p w q) (hp : p ∈ a) : q ∈ a := by
  induction h with
  | refl _ => exact hp
  | epsilon harc _ ih => exact ih (ha.target_mem harc)
  | char harc _ ih => exact ih (ha.target_mem harc)

end Leads

/-! ## Epsilon closures -/

/-- The states of an automaton. -/
def ownStates (a : Automaton) : Finset StateId :=
  (Finset.range a.size).image fun i => ⟨i, a.origin⟩

theorem mem_ownStates : q ∈ a.ownStates ↔ q ∈ a := by
  rw [ownStates, Finset.mem_image, mem_def]
  constructor
  · rintro ⟨i, hi, rfl⟩
    exact ⟨rfl, Finset.mem_range.mp hi⟩
  · rintro ⟨horigin, hindex⟩
    exact ⟨q.index, Finset.mem_range.mpr hindex, by rw [← horigin]⟩

theorem card_ownStates_le (a : Automaton) : a.ownStates.card ≤ a.size :=
  Finset.card_image_le.trans (Finset.card_range a.size).le

theorem exists_epsilonSuccessors (h : q ∈ a) :
    ∃ next, a.epsilonSuccessors q = .ok next ∧ ∀ r, r ∈ next ↔ a.HasArc q .epsilon r := by
  obtain ⟨s, hs⟩ := exists_state h
  refine ⟨(s.targets .epsilon).toList, by rw [epsilonSuccessors, hs]; rfl, fun r => ?_⟩
  rw [hasArc_iff (state_eq_ok_iff.mp hs)]
  exact State.mem_targets

theorem discoverable_epsilonSuccessors_iff {seeds : List StateId} :
    Discoverable a.epsilonSuccessors seeds q ↔ ∃ p ∈ seeds, a.Leads p [] q := by
  constructor
  · intro h
    induction h with
    | seed hq => exact ⟨_, hq, .refl _⟩
    | @next q r next _ hnext hr ih =>
      obtain ⟨p, hp, hpq⟩ := ih
      have hq : q ∈ a := by
        by_cases hq : q ∈ a
        · exact hq
        · rw [epsilonSuccessors, state_eq_error hq] at hnext
          cases hnext
      obtain ⟨next', hnext', hmem⟩ := exists_epsilonSuccessors hq
      rw [hnext] at hnext'
      cases hnext'
      exact ⟨p, hp, hpq.append (.of_epsilon ((hmem r).mp hr))⟩
  · rintro ⟨p, hp, hpq⟩
    have hreach : ∀ {p w q}, a.Leads p w q → w = [] → Discoverable a.epsilonSuccessors seeds p →
        Discoverable a.epsilonSuccessors seeds q := by
      intro p w q hpq
      induction hpq with
      | refl _ => exact fun _ h => h
      | epsilon harc _ ih =>
        intro hw hp
        obtain ⟨next, hnext, hmem⟩ := exists_epsilonSuccessors harc.source_mem
        exact ih hw (hp.next hnext ((hmem _).mpr harc))
      | char _ _ _ => exact fun hw => by cases hw
    exact hreach hpq rfl (.seed hp)

/-- **The closure of states of the automaton is what epsilon arcs lead to from them.** -/
theorem closure_spec (ha : a.WellFormed) {seeds : List StateId} (hseeds : ∀ q ∈ seeds, q ∈ a) :
    ∃ s, a.closure seeds = .ok s ∧ ∀ q, q ∈ s ↔ ∃ p ∈ seeds, a.Leads p [] q := by
  have hmem : ∀ q, Discoverable a.epsilonSuccessors seeds q → q ∈ a := fun q hq => by
    obtain ⟨p, hp, hpq⟩ := discoverable_epsilonSuccessors_iff.mp hq
    exact hpq.target_mem ha (hseeds p hp)
  obtain ⟨found, hfound, hexplored⟩ := exists_explored (d := .breadthFirst)
    (fun q hq => ⟨mem_ownStates.mpr (hmem q hq),
      (exists_epsilonSuccessors (hmem q hq)).imp fun _ h => h.1⟩)
    (Nat.lt_succ_of_le (card_ownStates_le a))
  refine ⟨OrderedSet.ofList found, by rw [closure, hfound]; rfl, fun q => ?_⟩
  rw [OrderedSet.mem_ofList, hexplored.mem_iff, discoverable_epsilonSuccessors_iff]

/-! ## Sets of states -/

theorem targetsOfAll_spec (l : Letter) {qs : List StateId} (hqs : ∀ q ∈ qs, q ∈ a) :
    ∃ s, a.targetsOfAll l qs = .ok s ∧ ∀ r, r ∈ s ↔ ∃ q ∈ qs, a.HasArc q l r := by
  induction qs with
  | nil => exact ⟨∅, rfl, fun r => by simp⟩
  | cons q qs ih =>
    obtain ⟨t, ht⟩ := exists_state (hqs q List.mem_cons_self)
    obtain ⟨s, hs, hmem⟩ := ih fun r hr => hqs r (List.mem_cons_of_mem _ hr)
    refine ⟨t.targets l ∪ s, by simp only [targetsOfAll, ht, hs, Except.map], fun r => ?_⟩
    simp [hmem, hasArc_iff (state_eq_ok_iff.mp ht)]

theorem anyExit_spec {qs : List StateId} (hqs : ∀ q ∈ qs, q ∈ a) :
    ∃ x, a.anyExit qs = .ok x ∧ (x = true ↔ ∃ q ∈ qs, a.IsExit q) := by
  induction qs with
  | nil => exact ⟨false, rfl, by simp⟩
  | cons q qs ih =>
    obtain ⟨s, hs⟩ := exists_state (hqs q List.mem_cons_self)
    obtain ⟨x, hx, hiff⟩ := ih fun r hr => hqs r (List.mem_cons_of_mem _ hr)
    have hexit := isExit_iff (state_eq_ok_iff.mp hs)
    by_cases hflag : s.isExit = true
    · exact ⟨true, by simp only [anyExit, hs, hflag, if_true], by simp [hexit, hflag]⟩
    · refine ⟨x, by simp only [anyExit, hs, hflag]; exact hx, ?_⟩
      simp [hiff, hexit, hflag]

/-- States of the automaton, together with all that epsilon arcs lead to from them. -/
structure Closed (a : Automaton) (s : OrderedSet StateId) : Prop where
  mem : ∀ q ∈ s, q ∈ a
  epsilon : ∀ p ∈ s, ∀ q, a.HasArc p .epsilon q → q ∈ s

theorem Closed.mem_of_leads {s : OrderedSet StateId} (hs : a.Closed s) (hp : p ∈ s)
    (h : a.Leads p [] q) : q ∈ s := by
  generalize hword : [] = word at h
  induction h with
  | refl _ => exact hp
  | epsilon harc _ ih => exact ih (hs.epsilon _ hp _ harc) hword
  | char _ _ _ => cases hword

/-- A set that is given by the paths to its members is closed. -/
theorem closed_of_leads (ha : a.WellFormed) {s : OrderedSet StateId} {P : StateId → Prop}
    (hP : ∀ p, P p → p ∈ a) (hs : ∀ q, q ∈ s ↔ ∃ p, P p ∧ a.Leads p [] q) : a.Closed s where
  mem q hq := by
    obtain ⟨p, hp, hpq⟩ := (hs q).mp hq
    exact hpq.target_mem ha (hP p hp)
  epsilon q hq r hqr := by
    obtain ⟨p, hp, hpq⟩ := (hs q).mp hq
    exact (hs r).mpr ⟨p, hp, hpq.append (.of_epsilon hqr)⟩

/-- The closure of one state holds what paths without characters lead to, and is closed. -/
theorem exists_closure (ha : a.WellFormed) (hp : p ∈ a) :
    ∃ s, a.closure [p] = .ok s ∧ (∀ q, q ∈ s ↔ a.Leads p [] q) ∧ a.Closed s := by
  have hseed : ∀ q ∈ [p], q ∈ a := List.forall_mem_singleton.mpr hp
  obtain ⟨s, hs, hmem⟩ := closure_spec ha hseed
  exact ⟨s, hs, by simpa using hmem, closed_of_leads ha hseed hmem⟩

/-! ## Simulations -/

/-- From a closed set, a simulation accepts what paths from its members to exits spell. -/
theorem simulatesFrom_spec (ha : a.WellFormed) {current : OrderedSet StateId}
    (hcurrent : a.Closed current) (w : List Char) :
    ∃ x, a.simulatesFrom current w = .ok x ∧
      (x = true ↔ ∃ p ∈ current, ∃ q, a.Leads p w q ∧ a.IsExit q) := by
  induction w generalizing current with
  | nil =>
    obtain ⟨x, hx, hiff⟩ := anyExit_spec fun q hq => hcurrent.mem q hq
    refine ⟨x, hx, hiff.trans ⟨?_, ?_⟩⟩
    · rintro ⟨q, hq, hexit⟩
      exact ⟨q, hq, q, .refl q, hexit⟩
    · rintro ⟨p, hp, q, hpq, hexit⟩
      exact ⟨q, hcurrent.mem_of_leads hp hpq, hexit⟩
  | cons c w ih =>
    obtain ⟨s, hs, hs_mem⟩ := targetsOfAll_spec (.char c) fun q hq => hcurrent.mem q hq
    have hs_own : ∀ q ∈ s.toList, q ∈ a := fun q hq => by
      obtain ⟨p, -, hpq⟩ := (hs_mem q).mp hq
      exact ha.target_mem hpq
    obtain ⟨next, hnext, hnext_mem⟩ := closure_spec ha hs_own
    have hnext_closed : a.Closed next := closed_of_leads ha hs_own hnext_mem
    -- a path on `c :: w` from the set is a path on `w` from the next one
    have hstep : (∃ p ∈ current, ∃ q, a.Leads p (c :: w) q ∧ a.IsExit q) ↔
        ∃ p ∈ next, ∃ q, a.Leads p w q ∧ a.IsExit q := by
      constructor
      · rintro ⟨p, hp, q, hpq, hexit⟩
        obtain ⟨r, r', hpr, harc, hrq⟩ := hpq.exists_of_cons
        refine ⟨r', (hnext_mem r').mpr ⟨r', (hs_mem r').mpr ⟨r, ?_, harc⟩, .refl _⟩, q, hrq, hexit⟩
        exact hcurrent.mem_of_leads hp hpr
      · rintro ⟨p, hp, q, hpq, hexit⟩
        obtain ⟨r, hr, hrp⟩ := (hnext_mem p).mp hp
        obtain ⟨p', hp', harc⟩ := (hs_mem r).mp hr
        exact ⟨p', hp', q, .char harc (hrp.append hpq), hexit⟩
    rw [hstep]
    simp only [simulatesFrom, hs, hnext]
    by_cases hempty : next.isEmpty = true
    · rw [if_pos hempty]
      rw [OrderedSet.isEmpty_iff.mp hempty]
      exact ⟨false, rfl, by simp⟩
    · rw [if_neg hempty]
      exact ih hnext_closed

/-- **A simulation decides whether a path from the entry to an exit spells a word.** -/
theorem simulates_spec (ha : a.WellFormed) (hentry : a.entry = some p) (w : List Char) :
    ∃ x, a.simulates w = .ok x ∧ (x = true ↔ a.Accepts w) := by
  obtain ⟨s, hs, hs_mem, hclosed⟩ := exists_closure ha (ha.entry_mem hentry)
  obtain ⟨x, hx, hiff⟩ := simulatesFrom_spec ha hclosed w
  refine ⟨x, by simp only [simulates, requireEntry_eq hentry, hs]; exact hx, hiff.trans ?_⟩
  constructor
  · rintro ⟨r, hr, q, hrq, hexit⟩
    exact ⟨p, q, hentry, ((hs_mem r).mp hr).append hrq, hexit⟩
  · rintro ⟨p', q, hentry', hpq, hexit⟩
    rw [hentry] at hentry'
    cases hentry'
    exact ⟨p, (hs_mem p).mpr (.refl p), q, hpq, hexit⟩

end Automaton

end PatternAutomata
