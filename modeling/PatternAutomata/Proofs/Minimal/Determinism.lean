import PatternAutomata.Proofs.Automaton.Answers
import PatternAutomata.Proofs.Automaton.Verdicts
import PatternAutomata.Proofs.Minimal.Exactness

/-!
# Which automata have classes

Classes of equivalent states are looked for in deterministic automata.  The search for the states
that take part follows sole targets, while `reachable` follows all arcs.  On an automaton whose
reachable states have one target at most on each letter both find the same states, and what is found
is closed under arcs, so no target is missing among the states that take part.  On any other one the
first search fails.  It may have met fewer states than the second one then, but it has followed
arcs, so it stops at a reachable state (`soleReachable_cases`).
-/

namespace PatternAutomata

namespace Automaton

variable {a : Automaton} {p q r : StateId} {l : Letter} {n : Nat} {s : State}

/-- Arcs on one letter lead from a state to a number of states, more than one. -/
def ForksAt (a : Automaton) (q : StateId) (l : Letter) (n : Nat) : Prop :=
  2 ≤ n ∧ {r | a.HasArc q l r}.ncard = n

theorem not_forksAt_of_functionalAt (h : a.FunctionalAt q) : ¬ a.ForksAt q l n := by
  rintro ⟨hn, hcard⟩
  by_cases hr : ∃ r, a.HasArc q l r
  · obtain ⟨r, hr⟩ := hr
    rw [ncard_targets_of_only hr fun r' hr' => h l r' r hr' hr] at hcard
    omega
  · rw [ncard_targets_of_none fun r h => hr ⟨r, h⟩] at hcard
    omega

/-! ## Where the search stops -/

theorem soleTargets_cases (ha : a.WellFormed) (hs : a.state? q = some s) (letters : List Letter) :
    (∃ targets, soleTargets s letters = .ok targets) ∨
      ∃ l n, soleTargets s letters = .error (.severalTargets q l n) ∧ a.ForksAt q l n := by
  induction letters with
  | nil => exact Or.inl ⟨[], rfl⟩
  | cons l letters ih =>
    have hrest : ∀ o, s.soleTarget l = .ok o →
        (∃ targets, soleTargets s (l :: letters) = .ok targets) ∨
        ∃ l' n, soleTargets s (l :: letters) = .error (.severalTargets q l' n) ∧
          a.ForksAt q l' n := by
      intro o ho
      simp only [soleTargets, ho]
      rcases ih with ⟨targets, h⟩ | ⟨l', n, h, hfork⟩
      · exact Or.inl ⟨o :: targets, by rw [h]; rfl⟩
      · exact Or.inr ⟨l', n, by rw [h]; rfl, hfork⟩
    rcases soleTarget_spec ha hs l with ⟨ho, -⟩ | ⟨r, ho, -⟩ | ⟨n, hfail, hfork⟩
    · exact hrest none ho
    · exact hrest (some r) ho
    · exact Or.inr ⟨l, n, by simp only [soleTargets, hfail], hfork⟩

/-- A state of the automaton is expanded to its targets, or it is reported. -/
theorem soleSuccessors_cases (ha : a.WellFormed) (hq : q ∈ a) :
    (∃ next, a.soleSuccessors q = .ok next ∧ ∀ r, r ∈ next ↔ a.Linked q r) ∨
      ∃ l n, a.soleSuccessors q = .error (.severalTargets q l n) ∧ a.ForksAt q l n := by
  obtain ⟨s, hs⟩ := exists_state hq
  rcases soleTargets_cases ha (state_eq_ok_iff.mp hs) a.alphabet.toList with
    ⟨targets, h⟩ | ⟨l, n, h, hfork⟩
  · have hnext : a.soleSuccessors q = .ok (targets.filterMap id) := by
      simp only [soleSuccessors, hs, h]
      rfl
    exact Or.inl (exists_soleSuccessors ha hq (functionalAt_of_soleSuccessors ha hnext))
  · refine Or.inr ⟨l, n, ?_, hfork⟩
    simp only [soleSuccessors, hs, h]
    rfl

/-- The search follows arcs. -/
theorem reachable_of_discoverable (ha : a.WellFormed) (hentry : a.entry = some p)
    (h : Discoverable a.soleSuccessors [p] q) : a.Reachable q := by
  induction h with
  | seed hq =>
    rw [List.mem_singleton.mp hq]
    exact ⟨p, hentry, .refl⟩
  | next _ hnext hr ih =>
    rcases soleSuccessors_cases ha (ih.mem ha) with ⟨next, hnext', hmem⟩ | ⟨l, n, hfail, -⟩
    · rw [hnext] at hnext'
      cases hnext'
      obtain ⟨l, harc⟩ := (hmem _).mp hr
      exact ih.tail harc
    · rw [hnext] at hfail
      cases hfail

/-- **The search succeeds, or it stops at a reachable state** with several targets on one letter. -/
theorem soleReachable_cases (ha : a.WellFormed) (hentry : a.entry = some p) :
    (∃ reached, a.soleReachable = .ok reached) ∨
      ∃ q l n, a.soleReachable = .error (.severalTargets q l n) ∧ a.Reachable q ∧
        a.ForksAt q l n := by
  have hpool : ∀ q, Discoverable a.soleSuccessors [p] q →
      (∃ next, a.soleSuccessors q = .ok next) → q ∈ a.ownStates :=
    fun q hq _ => mem_ownStates.mpr ((reachable_of_discoverable ha hentry hq).mem ha)
  rcases explore_cases (d := .depthFirst) hpool (Nat.lt_succ_of_le (card_ownStates_le a)) with
    ⟨found, hfound, -⟩ | ⟨q, e, hq, he, hfail⟩
  · refine Or.inl ⟨OrderedSet.ofList found, ?_⟩
    simp only [soleReachable, requireEntry_eq hentry, hfound]
    rfl
  · have hreachable := reachable_of_discoverable ha hentry hq
    rcases soleSuccessors_cases ha (hreachable.mem ha) with ⟨next, hnext, -⟩ | ⟨l, n, hstop, hfork⟩
    · rw [he] at hnext
      cases hnext
    · rw [he] at hstop
      cases hstop
      refine Or.inr ⟨q, l, n, ?_, hreachable, hfork⟩
      simp only [soleReachable, requireEntry_eq hentry, hfail]
      rfl

/-! ## Which automata have a partition -/

/-- Either there is a partition, or it fails at a reachable state. -/
theorem partition_cases_of_entry (ha : a.WellFormed) (hentry : a.entry = some p) :
    (∃ P, a.partition = .ok P ∧ ∀ q, a.Reachable q → a.FunctionalAt q) ∨
      ∃ q l n, a.partition = .error (.severalTargets q l n) ∧ a.Reachable q ∧ a.ForksAt q l n := by
  rcases soleReachable_cases ha hentry with ⟨reached, h⟩ | ⟨q, l, n, h, hq, hfork⟩
  · obtain ⟨-, -, hfun⟩ := functionalAt_of_soleReachable ha h
    obtain ⟨P, hP, -⟩ := exists_partition ha hentry hfun
    exact Or.inl ⟨P, hP, hfun⟩
  · exact Or.inr ⟨q, l, n, by simp only [partition, h], hq, hfork⟩

theorem partition_eq_noEntry (h : a.entry = none) : a.partition = .error .noEntry := by
  simp only [partition, soleReachable, requireEntry_eq_error h]

theorem answers_partition (ha : a.WellFormed) : Answers a.partition (a.entry ≠ none) := by
  refine answers_of_entry partition_eq_noEntry fun p hp => ?_
  rcases partition_cases_of_entry ha hp with ⟨P, hP, -⟩ | ⟨q, l, n, h, -⟩
  · exact Or.inl ⟨P, hP⟩
  · exact Or.inr ⟨q, l, n, h⟩

/-- A state that is found to be deterministic has one target at most on each letter. -/
theorem functionalAt_of_isDeterministic (hs : a.state? q = some s)
    (h : s.isDeterministic = true) : a.FunctionalAt q := by
  intro l r r' hr hr'
  rw [hasArc_iff hs, ← State.mem_targets] at hr hr'
  have hl : l ∈ s.letters.toList := State.mem_letters.mpr ⟨r, State.mem_targets.mp hr⟩
  have hsize : (s.targets l).toList.length ≤ 1 := by
    have hall := List.all_eq_true.mp h l hl
    rw [Bool.and_eq_true, decide_eq_true_iff] at hall
    exact hall.2
  rw [← OrderedSet.mem_toList] at hr hr'
  rcases hlist : (s.targets l).toList with _ | ⟨t, _ | ⟨t', rest⟩⟩
  · rw [hlist] at hr
    cases hr
  · rw [hlist, List.mem_singleton] at hr hr'
    rw [hr, hr']
  · rw [hlist, List.length_cons, List.length_cons] at hsize
    omega

theorem functionalAt_of_allDeterministic {qs : List StateId} (h : a.allDeterministic qs = .ok true)
    (hq : q ∈ qs) : a.FunctionalAt q := by
  induction qs with
  | nil => cases hq
  | cons q' qs ih =>
    rw [allDeterministic] at h
    cases hs : a.state q' with
    | error e => simp only [hs, reduceCtorEq] at h
    | ok s =>
      simp only [hs] at h
      split_ifs at h with hdet
      · rcases List.mem_cons.mp hq with rfl | hq
        · exact functionalAt_of_isDeterministic (state_eq_ok_iff.mp hs) hdet
        · exact ih h hq
      · cases h

theorem functionalAt_of_isDeterministic_eq_ok (ha : a.WellFormed)
    (h : a.isDeterministic = .ok true) :
    ∃ p, a.entry = some p ∧ ∀ q, a.Reachable q → a.FunctionalAt q := by
  cases hentry : a.entry with
  | none => simp only [isDeterministic, reachable_eq_error hentry, reduceCtorEq] at h
  | some p =>
    obtain ⟨reached, hreached, hmem⟩ := exists_reachable ha hentry
    simp only [isDeterministic, hreached] at h
    exact ⟨p, rfl, fun q hq => functionalAt_of_allDeterministic h ((hmem q).mpr hq)⟩

/-- **Exactly the automata that are not deterministic are rejected.**  There is no partition without
an entry.  With an entry there is none exactly if a reachable state has several targets on one
letter, and what is reported then are such a state, such a letter and the number of its targets.  No
state turns out to be foreign, and what cannot be reached does not matter. -/
theorem partition_rejects (ha : a.Built) :
    (a.partition = .error .noEntry ↔ a.entry = none) ∧
    (∀ p, a.entry = some p → ∃ reached, a.reachable = .ok reached ∧
      (∀ q, q ∈ reached ↔ a.Reachable q) ∧
      ((∃ q l n, a.partition = .error (.severalTargets q l n)) ↔
        ∃ q ∈ reached, ∃ l n, a.ForksAt q l n) ∧
      (∀ q l n, a.partition = .error (.severalTargets q l n) → q ∈ reached ∧ a.ForksAt q l n) ∧
      ((∀ q ∈ reached, ∀ l n, ¬ a.ForksAt q l n) → ∃ P, a.partition = .ok P)) ∧
    (∀ q, a.partition ≠ .error (.foreignState q)) ∧
    (a.isDeterministic = .ok true → ∃ P, a.partition = .ok P) := by
  have hwf := ha.wellFormed
  have hanswers := answers_partition hwf
  refine ⟨hanswers.noEntry_iff.trans not_not, fun p hentry => ?_, hanswers.ne_foreignState,
    fun hdet => ?_⟩
  · obtain ⟨reached, hreached, hmem⟩ := exists_reachable hwf hentry
    refine ⟨reached, hreached, hmem, ?_⟩
    rcases partition_cases_of_entry hwf hentry with ⟨P, hP, hfun⟩ | ⟨q, l, n, h, hq, hfork⟩
    · have hnone : ∀ q ∈ reached, ∀ l n, ¬ a.ForksAt q l n := fun q hq l n =>
        not_forksAt_of_functionalAt (hfun q ((hmem q).mp hq))
      rw [hP]
      refine ⟨⟨?_, ?_⟩, ?_, fun _ => ⟨P, rfl⟩⟩
      · rintro ⟨q, l, n, ⟨⟩⟩
      · rintro ⟨q, hq, l, n, hfork⟩
        exact absurd hfork (hnone q hq l n)
      · rintro q l n ⟨⟩
    · rw [← hmem] at hq
      rw [h]
      refine ⟨⟨fun _ => ⟨q, hq, l, n, hfork⟩, fun _ => ⟨q, l, n, rfl⟩⟩, ?_, fun hnone =>
        absurd hfork (hnone q hq l n)⟩
      rintro q' l' n' h'
      cases h'
      exact ⟨hq, hfork⟩
  · obtain ⟨p, hentry, hfun⟩ := functionalAt_of_isDeterministic_eq_ok hwf hdet
    obtain ⟨P, hP, -⟩ := exists_partition hwf hentry hfun
    exact ⟨P, hP⟩

/-- In `forkedExits` only a state outside has two targets on a letter, so there is a partition.  In
`forkedEntry` the entry has, and so there is none. -/
theorem partition_rejects_forkedEntry :
    forkedExits.ForksAt ⟨3, 0⟩ (.char 'a') 2 ∧ (∃ P, forkedExits.partition = .ok P) ∧
      ∃ q l n, forkedEntry.partition = .error (.severalTargets q l n) ∧
        forkedEntry.ForksAt q l n := by
  refine ⟨⟨Nat.le_refl 2, ?_⟩, ?_, ?_⟩
  · rw [ncard_targets (show forkedExits.state? ⟨3, 0⟩ = some _ from rfl)]
    decide
  · obtain ⟨-, hsome, -⟩ := partition_rejects built_forkedExits
    obtain ⟨reached, -, hmem, -, -, hok⟩ := hsome ⟨0, 0⟩ rfl
    exact hok fun q hq l n =>
      not_forksAt_of_functionalAt (functionalAt_forkedExits ((hmem q).mp hq))
  · obtain ⟨-, hsome, -⟩ := partition_rejects built_forkedEntry
    obtain ⟨reached, -, hmem, hiff, hreport, -⟩ := hsome ⟨0, 0⟩ rfl
    have hentry : ⟨0, 0⟩ ∈ reached := (hmem _).mpr ⟨⟨0, 0⟩, rfl, .refl⟩
    have hfork : forkedEntry.ForksAt ⟨0, 0⟩ (.char 'b') 2 := by
      refine ⟨Nat.le_refl 2, ?_⟩
      rw [ncard_targets (show forkedEntry.state? ⟨0, 0⟩ = some _ from rfl)]
      decide
    obtain ⟨q, l, n, h⟩ := hiff.mpr ⟨⟨0, 0⟩, hentry, .char 'b', 2, hfork⟩
    exact ⟨q, l, n, h, (hreport q l n h).2⟩

end Automaton

end PatternAutomata
