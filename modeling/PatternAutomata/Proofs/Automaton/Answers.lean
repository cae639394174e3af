import PatternAutomata.Proofs.Automaton.Reachability
import PatternAutomata.Proofs.Automaton.Walks

/-!
# What asking an automaton can fail for

Whoever asks an automaton what can be reached, whether it is deterministic or whether it accepts a
word gives no state.  So the only state that could turn out to be foreign is one that the automaton
leads to by itself, and there is none if the automaton is well formed.  What can be missing is the
entry.

* `Answers`: a question fails for want of an entry exactly if there is none, and for no foreign
  state.
* `answers_reachable`, `answers_isDeterministic`, `answers_simulates`, `answers_accepts`: this holds
  of all questions to a well-formed automaton.
-/

namespace PatternAutomata

/-- The result of a question that fails for want of an entry exactly if there is none, and never
for a foreign state. -/
structure Answers {α : Type} (result : Except Fault α) (hasEntry : Prop) : Prop where
  ne_foreignState : ∀ q, result ≠ .error (.foreignState q)
  noEntry_iff : result = .error .noEntry ↔ ¬ hasEntry

namespace Automaton

variable {α : Type} {a : Automaton} {p q : StateId} {l : Letter} {s : State} {w : List Char}

/-- It is enough to look at automata that have an entry. -/
theorem answers_of_entry {result : Except Fault α}
    (hnone : a.entry = none → result = .error .noEntry)
    (hsome : ∀ p, a.entry = some p →
      (∃ x, result = .ok x) ∨ ∃ q l n, result = .error (.severalTargets q l n)) :
    Answers result (a.entry ≠ none) := by
  cases hentry : a.entry with
  | none =>
    rw [hnone hentry]
    exact ⟨by simp, by simp⟩
  | some p =>
    obtain ⟨x, rfl⟩ | ⟨q, l, n, rfl⟩ := hsome p hentry
    · exact ⟨by simp, by simp⟩
    · exact ⟨by simp, by simp⟩

theorem requireEntry_eq_error (h : a.entry = none) : a.requireEntry = .error .noEntry := by
  rw [requireEntry, h]

/-! ## Searching -/

theorem reachable_eq_error (h : a.entry = none) : a.reachable = .error .noEntry := by
  rw [reachable, requireEntry_eq_error h]

theorem answers_reachable (ha : a.WellFormed) : Answers a.reachable (a.entry ≠ none) := by
  refine answers_of_entry reachable_eq_error fun p hp => Or.inl ?_
  obtain ⟨s, hs, -⟩ := exists_reachable ha hp
  exact ⟨s, hs⟩

theorem exists_allDeterministic {qs : List StateId} (hqs : ∀ q ∈ qs, q ∈ a) :
    ∃ x, a.allDeterministic qs = .ok x := by
  induction qs with
  | nil => exact ⟨true, rfl⟩
  | cons q qs ih =>
    obtain ⟨s, hs⟩ := exists_state (hqs q List.mem_cons_self)
    simp only [allDeterministic, hs]
    by_cases hdet : s.isDeterministic = true
    · rw [if_pos hdet]
      exact ih fun r hr => hqs r (List.mem_cons_of_mem _ hr)
    · rw [if_neg hdet]
      exact ⟨false, rfl⟩

theorem answers_isDeterministic (ha : a.WellFormed) :
    Answers a.isDeterministic (a.entry ≠ none) := by
  refine answers_of_entry (fun hnone => ?_) fun p hp => Or.inl ?_
  · rw [isDeterministic, reachable_eq_error hnone]
  · obtain ⟨s, hs, hmem⟩ := exists_reachable ha hp
    simp only [isDeterministic, hs]
    exact exists_allDeterministic fun q hq => ((hmem q).mp hq).mem ha

/-! ## Reading words -/

theorem answers_simulates (ha : a.WellFormed) (w : List Char) :
    Answers (a.simulates w) (a.entry ≠ none) := by
  refine answers_of_entry (fun hnone => ?_) fun p hp => Or.inl ?_
  · rw [simulates, requireEntry_eq_error hnone]
  · obtain ⟨x, hx, -⟩ := simulates_spec ha hp w
    exact ⟨x, hx⟩

theorem answers_accepts (ha : a.WellFormed) (w : List Char) :
    Answers (a.accepts w) (a.entry ≠ none) := by
  refine answers_of_entry (fun hnone => ?_) fun p hp => ?_
  · rw [accepts, walk, requireEntry_eq_error hnone]
  · have hmeets := walkFrom_meets ha (ha.entry_mem hp) w
    rw [accepts_eq_walkFrom hp]
    generalize a.walkFrom p w = x at hmeets
    cases hmeets with
    | finished hway =>
      obtain ⟨s, hs⟩ := exists_state (hway.target_mem ha (ha.entry_mem hp))
      simp only [endsAtExit, hs]
      exact Or.inl ⟨_, rfl⟩
    | blocked _ _ _ => exact Or.inl ⟨_, rfl⟩
    | @forked q c n _ => exact Or.inr ⟨q, .char c, n, rfl⟩

end Automaton

end PatternAutomata
