import Mathlib.Order.Bounds.Basic
import PatternAutomata.Proofs.Automaton.Answers

/-!
# Searches find least closed sets

What a search finds holds its seeds, is closed under the relation that it follows, and is the least
such set.  How the search goes about it, in which order the seeds are given and whether one of them
is given twice plays no part in this, so everything about closures that does not mention the search
follows from it.

The only way for a closure to fail is a foreign seed.  The seeds wait in front of everything that is
discovered from them, so the first foreign seed is the one named.

* `LeastClosed.subset_iff`, `LeastClosed.self`, `LeastClosed.union`: least closed sets.
* `closure_eq_ok_iff`: the closure is the least closed set, for seeds of the automaton.
* `closure_eq_error_iff`: otherwise it fails for the first foreign seed.
* `traversals_least`: both traversals, and the laws of closures.
-/

namespace PatternAutomata

/-! ## Least closed sets -/

section LeastClosed

variable {α : Type} {R : α → α → Prop} {seeds seeds' : List α}

/-- The sets that hold the seeds, and with each member all that a relation leads to from it. -/
def closedSets (R : α → α → Prop) (seeds : List α) : Set (Set α) :=
  {t | (∀ a ∈ seeds, a ∈ t) ∧ ∀ a ∈ t, ∀ b, R a b → b ∈ t}

variable [LT α]

/-- The least set that holds the seeds and is closed under a relation. -/
def LeastClosed (R : α → α → Prop) (seeds : List α) (s : OrderedSet α) : Prop :=
  IsLeast (closedSets R seeds) {a | a ∈ s}

namespace LeastClosed

variable {s s' : OrderedSet α}

theorem seed_mem (h : LeastClosed R seeds s) : ∀ a ∈ seeds, a ∈ s := h.1.1

theorem next_mem (h : LeastClosed R seeds s) : ∀ a ∈ s, ∀ b, R a b → b ∈ s := h.1.2

/-- Induction over a least closed set: a property of the seeds that the relation preserves. -/
theorem induction (h : LeastClosed R seeds s) {P : α → Prop} (hseeds : ∀ a ∈ seeds, P a)
    (hnext : ∀ a, P a → ∀ b, R a b → P b) : ∀ a ∈ s, P a :=
  fun _ ha => h.2 (show {a | P a} ∈ closedSets R seeds from ⟨hseeds, hnext⟩) ha

/-- A least closed set lies in a closed set exactly if its seeds do. -/
theorem subset_iff (h : LeastClosed R seeds s) (h' : LeastClosed R seeds' s') :
    (∀ a ∈ s, a ∈ s') ↔ ∀ a ∈ seeds, a ∈ s' :=
  ⟨fun hs a ha => hs a (h.seed_mem a ha), fun hseeds => h.induction hseeds h'.next_mem⟩

/-- A closed set is the least one that holds its members. -/
theorem self (h : LeastClosed R seeds s) : LeastClosed R s.toList s :=
  ⟨⟨fun _ ha => ha, h.next_mem⟩, fun _ ht => ht.1⟩

variable [StrictTotalOrder α]

/-- Seeds that lie in each other's least closed sets have the same one. -/
theorem eq_of_mem (h : LeastClosed R seeds s) (h' : LeastClosed R seeds' s')
    (hseeds : ∀ a ∈ seeds, a ∈ s') (hseeds' : ∀ a ∈ seeds', a ∈ s) : s = s' :=
  OrderedSet.ext_mem fun a =>
    ⟨(h.subset_iff h').mpr hseeds a, (h'.subset_iff h).mpr hseeds' a⟩

theorem unique (h : LeastClosed R seeds s) (h' : LeastClosed R seeds s') : s = s' :=
  h.eq_of_mem h' h'.seed_mem h.seed_mem

variable [DecidableLT α]

/-- The least closed set of all seeds together is the union of the least closed sets. -/
theorem union (h : LeastClosed R seeds s) (h' : LeastClosed R seeds' s') :
    LeastClosed R (seeds ++ seeds') (s ∪ s') := by
  refine ⟨⟨fun a ha => ?_, fun a ha b hab => ?_⟩, fun t ht a ha => ?_⟩
  · rw [Set.mem_ofPred_eq, OrderedSet.mem_union]
    exact (List.mem_append.mp ha).imp (h.seed_mem a) (h'.seed_mem a)
  · rw [Set.mem_ofPred_eq, OrderedSet.mem_union] at ha ⊢
    exact ha.imp (fun ha => h.next_mem a ha b hab) fun ha => h'.next_mem a ha b hab
  · rw [Set.mem_ofPred_eq, OrderedSet.mem_union] at ha
    rcases ha with ha | ha
    · exact h.induction (fun b hb => ht.1 b (List.mem_append_left _ hb)) ht.2 a ha
    · exact h'.induction (fun b hb => ht.1 b (List.mem_append_right _ hb)) ht.2 a ha

end LeastClosed

/-- **A search finds the least closed set**, if expanding what it finds follows the relation. -/
theorem Explored.leastClosed {ε : Type} [DecidableEq α] [DecidableLT α] [StrictTotalOrder α]
    {successors : α → Except ε (List α)} {d : Discipline} {found : List α}
    (h : Explored successors d seeds found)
    (hR : ∀ a ∈ found, ∀ next, successors a = .ok next → ∀ b, b ∈ next ↔ R a b) :
    LeastClosed R seeds (.ofList found) := by
  refine ⟨⟨fun a ha => ?_, fun a ha b hab => ?_⟩, fun t ht a ha => ?_⟩
  · exact OrderedSet.mem_ofList.mpr (h.mem_iff.mpr (.seed ha))
  · have ha' : a ∈ found := OrderedSet.mem_ofList.mp ha
    obtain ⟨next, hnext, hsub⟩ := h.closed a ha'
    exact OrderedSet.mem_ofList.mpr (hsub ((hR a ha' next hnext b).mpr hab))
  · -- a set that is closed holds whatever can be discovered
    induction h.mem_iff.mp (OrderedSet.mem_ofList.mp ha) with
    | seed hseed => exact ht.1 _ hseed
    | @next a b next hdiscovered hnext hb ih =>
      have ha' : a ∈ found := h.mem_iff.mpr hdiscovered
      exact ht.2 a (ih (OrderedSet.mem_ofList.mpr ha')) b ((hR a ha' next hnext b).mp hb)

end LeastClosed

namespace Automaton

variable {a : Automaton} {p q : StateId} {seeds seeds' : List StateId} {s s' : OrderedSet StateId}

/-- An epsilon arc leads from one state to another. -/
def EpsilonLinked (a : Automaton) (p q : StateId) : Prop := a.HasArc p .epsilon q

/-! ## Both searches -/

/-- A search that follows a relation between states of the automaton comes to an end within its
budget, and finds the least closed set. -/
theorem exists_leastClosed (d : Discipline) {R : StateId → StateId → Prop}
    {successors : StateId → Except Fault (List StateId)}
    (hsuccessors : ∀ q ∈ a, ∃ next, successors q = .ok next ∧ ∀ r, r ∈ next ↔ R q r)
    (hR : ∀ {q r}, R q r → r ∈ a) (hseeds : ∀ q ∈ seeds, q ∈ a) :
    ∃ found, explore successors d (a.size + 1) seeds = .ok found ∧
      Explored successors d seeds found ∧ LeastClosed R seeds (.ofList found) := by
  have hown : ∀ q, Discoverable successors seeds q → q ∈ a := fun q hq => by
    induction hq with
    | seed hq => exact hseeds _ hq
    | next _ hnext hr ih =>
      obtain ⟨next, hok, hiff⟩ := hsuccessors _ ih
      rw [hnext] at hok
      cases hok
      exact hR ((hiff _).mp hr)
  obtain ⟨found, hfound, hexplored⟩ := exists_explored (d := d)
    (fun q hq => ⟨mem_ownStates.mpr (hown q hq),
      (hsuccessors q (hown q hq)).imp fun _ h => h.1⟩)
    (Nat.lt_succ_of_le (card_ownStates_le a))
  refine ⟨found, hfound, hexplored, hexplored.leastClosed fun q hq next hnext => ?_⟩
  obtain ⟨next', hok, hiff⟩ := hsuccessors q (hown q (hexplored.mem_iff.mp hq))
  rw [hnext] at hok
  cases hok
  exact hiff

theorem exists_leastClosed_closure (ha : a.WellFormed) (hseeds : ∀ q ∈ seeds, q ∈ a) :
    ∃ found, a.closure seeds = .ok (.ofList found) ∧
      Explored a.epsilonSuccessors .breadthFirst seeds found ∧
      LeastClosed a.EpsilonLinked seeds (.ofList found) := by
  obtain ⟨found, hfound, h⟩ := exists_leastClosed .breadthFirst (R := a.EpsilonLinked)
    (fun q hq => exists_epsilonSuccessors hq) ha.target_mem hseeds
  exact ⟨found, by rw [closure, hfound]; rfl, h⟩

theorem exists_leastClosed_reachable (ha : a.WellFormed) (hentry : a.entry = some p) :
    ∃ found, a.reachable = .ok (.ofList found) ∧ Explored a.successors .depthFirst [p] found ∧
      LeastClosed a.Linked [p] (.ofList found) := by
  obtain ⟨found, hfound, h⟩ := exists_leastClosed .depthFirst (R := a.Linked)
    (fun q hq => exists_successors hq) (fun ⟨_, hlr⟩ => ha.target_mem hlr)
    (List.forall_mem_singleton.mpr (ha.entry_mem hentry))
  refine ⟨found, ?_, h⟩
  rw [reachable, requireEntry_eq hentry]
  simp only [hfound]
  rfl

/-! ## Closures -/

/-- A state is the first of the seeds that does not belong to the automaton. -/
def FirstForeign (a : Automaton) (seeds : List StateId) (q : StateId) : Prop :=
  ∃ before after, seeds = before ++ q :: after ∧ (∀ p ∈ before, p ∈ a) ∧ q ∉ a

theorem seeds_cases (a : Automaton) (seeds : List StateId) :
    (∀ q ∈ seeds, q ∈ a) ∨ ∃ q, a.FirstForeign seeds q := by
  induction seeds with
  | nil => exact Or.inl (by simp)
  | cons p seeds ih =>
    by_cases hp : p ∈ a
    · rcases ih with h | ⟨q, before, after, rfl, hbefore, hq⟩
      · exact Or.inl (List.forall_mem_cons.mpr ⟨hp, h⟩)
      · exact Or.inr ⟨q, p :: before, after, rfl, List.forall_mem_cons.mpr ⟨hp, hbefore⟩, hq⟩
    · exact Or.inr ⟨p, [], seeds, rfl, by simp, hp⟩

/-- **A closure fails for the first foreign seed.** -/
theorem FirstForeign.closure_eq_error (h : a.FirstForeign seeds q) :
    a.closure seeds = .error (.foreignState q) := by
  obtain ⟨before, after, rfl, hbefore, hq⟩ := h
  have hsuccessors : a.epsilonSuccessors q = .error (.foreignState q) := by
    rw [epsilonSuccessors, state_eq_error hq]
    rfl
  have hfail := explore_eq_error
    (fun p hp => ⟨mem_ownStates.mpr (hbefore p hp),
      (exists_epsilonSuccessors (hbefore p hp)).imp fun _ h => h.1⟩)
    hsuccessors (Nat.lt_succ_of_le (card_ownStates_le a)) after
  rw [closure, hfail]
  rfl

theorem closure_eq_error_iff (ha : a.WellFormed) {f : Fault} :
    a.closure seeds = .error f ↔ ∃ q, a.FirstForeign seeds q ∧ f = .foreignState q := by
  constructor
  · intro hf
    rcases a.seeds_cases seeds with hseeds | ⟨q, hq⟩
    · obtain ⟨found, hfound, -⟩ := exists_leastClosed_closure ha hseeds
      rw [hfound] at hf
      cases hf
    · rw [hq.closure_eq_error] at hf
      cases hf
      exact ⟨q, hq, rfl⟩
  · rintro ⟨q, hq, rfl⟩
    exact hq.closure_eq_error

/-- **The closure is the least closed set.** -/
theorem closure_eq_ok_iff (ha : a.WellFormed) :
    a.closure seeds = .ok s ↔ (∀ q ∈ seeds, q ∈ a) ∧ LeastClosed a.EpsilonLinked seeds s := by
  constructor
  · intro hs
    rcases a.seeds_cases seeds with hseeds | ⟨q, hq⟩
    · obtain ⟨found, hfound, -, hleast⟩ := exists_leastClosed_closure ha hseeds
      rw [hs] at hfound
      cases hfound
      exact ⟨hseeds, hleast⟩
    · rw [hq.closure_eq_error] at hs
      cases hs
  · rintro ⟨hseeds, hleast⟩
    obtain ⟨found, hfound, -, hfound_least⟩ := exists_leastClosed_closure ha hseeds
    rw [hfound, hleast.unique hfound_least]

theorem closure_self (ha : a.WellFormed) (hs : a.closure seeds = .ok s) :
    a.closure s.toList = .ok s := by
  obtain ⟨hseeds, hleast⟩ := (closure_eq_ok_iff ha).mp hs
  exact (closure_eq_ok_iff ha).mpr
    ⟨hleast.induction hseeds fun _ _ _ hqr => ha.target_mem hqr, hleast.self⟩

theorem exists_closure_of_subset (ha : a.WellFormed) (hsub : ∀ q ∈ seeds, q ∈ seeds')
    (hs' : a.closure seeds' = .ok s') : ∃ s, a.closure seeds = .ok s ∧ ∀ q ∈ s, q ∈ s' := by
  obtain ⟨hseeds', hleast'⟩ := (closure_eq_ok_iff ha).mp hs'
  obtain ⟨found, hfound, -, hleast⟩ :=
    exists_leastClosed_closure ha fun q hq => hseeds' q (hsub q hq)
  exact ⟨_, hfound, (hleast.subset_iff hleast').mpr fun q hq => hleast'.seed_mem q (hsub q hq)⟩

theorem closure_congr (ha : a.WellFormed) (hsame : ∀ q, q ∈ seeds ↔ q ∈ seeds') :
    a.closure seeds = .ok s ↔ a.closure seeds' = .ok s := by
  have hclosed : closedSets a.EpsilonLinked seeds = closedSets a.EpsilonLinked seeds' := by
    simp only [closedSets, hsame]
  simp only [closure_eq_ok_iff ha, LeastClosed, hclosed, hsame]

theorem closure_append_iff (ha : a.WellFormed) :
    a.closure (seeds ++ seeds') = .ok s ↔
      ∃ t t', a.closure seeds = .ok t ∧ a.closure seeds' = .ok t' ∧ s = t ∪ t' := by
  constructor
  · intro hs
    obtain ⟨t, ht, -⟩ := exists_closure_of_subset ha (fun q => List.mem_append_left seeds') hs
    obtain ⟨t', ht', -⟩ := exists_closure_of_subset ha (fun q => List.mem_append_right seeds) hs
    refine ⟨t, t', ht, ht', ?_⟩
    exact ((closure_eq_ok_iff ha).mp hs).2.unique
      (((closure_eq_ok_iff ha).mp ht).2.union ((closure_eq_ok_iff ha).mp ht').2)
  · rintro ⟨t, t', ht, ht', rfl⟩
    obtain ⟨hseeds, hleast⟩ := (closure_eq_ok_iff ha).mp ht
    obtain ⟨hseeds', hleast'⟩ := (closure_eq_ok_iff ha).mp ht'
    exact (closure_eq_ok_iff ha).mpr
      ⟨fun q hq => (List.mem_append.mp hq).elim (hseeds q) (hseeds' q), hleast.union hleast'⟩

/-! ## The traversals -/

/-- What the two traversals of an automaton do, whatever the seeds. -/
structure TraversalLaws (a : Automaton) : Prop where
  /-- A closure fails exactly if some seed is foreign, and for the first such seed. -/
  closure_error_iff : ∀ seeds f, a.closure seeds = .error f ↔
    ∃ q, a.FirstForeign seeds q ∧ f = .foreignState q
  exists_foreign_iff : ∀ seeds, (∃ f, a.closure seeds = .error f) ↔ ∃ q ∈ seeds, q ∉ a
  /-- Otherwise the search comes to an end, and the closure is the least closed set. -/
  closure_least : ∀ seeds, (∀ q ∈ seeds, q ∈ a) →
    ∃ found, a.closure seeds = .ok (.ofList found) ∧
      Explored a.epsilonSuccessors .breadthFirst seeds found ∧
      LeastClosed a.EpsilonLinked seeds (.ofList found)
  idempotent : ∀ seeds s, a.closure seeds = .ok s → a.closure s.toList = .ok s
  monotone : ∀ seeds seeds' s', (∀ q ∈ seeds, q ∈ seeds') → a.closure seeds' = .ok s' →
    ∃ s, a.closure seeds = .ok s ∧ ∀ q ∈ s, q ∈ s'
  /-- Neither the order of the seeds nor their repetition matters. -/
  congr : ∀ seeds seeds' s, (∀ q, q ∈ seeds ↔ q ∈ seeds') →
    (a.closure seeds = .ok s ↔ a.closure seeds' = .ok s)
  union : ∀ seeds seeds' s, a.closure (seeds ++ seeds') = .ok s ↔
    ∃ t t', a.closure seeds = .ok t ∧ a.closure seeds' = .ok t' ∧ s = t ∪ t'
  reachable_error_iff : ∀ f, a.reachable = .error f ↔ a.entry = none ∧ f = .noEntry
  reachable_least : ∀ p, a.entry = some p →
    ∃ found, a.reachable = .ok (.ofList found) ∧ Explored a.successors .depthFirst [p] found ∧
      LeastClosed a.Linked [p] (.ofList found)

/-- **Closures and reachable states are least closed sets**, in any automaton that has been built,
whatever the cycles of its arcs. -/
theorem traversals_least (ha : a.Built) : a.TraversalLaws := by
  have hwf := ha.wellFormed
  refine
    { closure_error_iff := fun _ _ => closure_eq_error_iff hwf
      exists_foreign_iff := fun seeds => ?_
      closure_least := fun _ => exists_leastClosed_closure hwf
      idempotent := fun _ _ => closure_self hwf
      monotone := fun _ _ _ => exists_closure_of_subset hwf
      congr := fun _ _ _ => closure_congr hwf
      union := fun _ _ _ => closure_append_iff hwf
      reachable_error_iff := fun f => ?_
      reachable_least := fun _ => exists_leastClosed_reachable hwf }
  · rcases a.seeds_cases seeds with hseeds | ⟨q, hq⟩
    · obtain ⟨found, hfound, -⟩ := exists_leastClosed_closure hwf hseeds
      exact iff_of_false (by simp [hfound]) fun ⟨q, hq, hforeign⟩ => hforeign (hseeds q hq)
    · refine iff_of_true ⟨_, hq.closure_eq_error⟩ ?_
      obtain ⟨before, after, rfl, -, hforeign⟩ := hq
      exact ⟨q, by simp, hforeign⟩
  · cases hentry : a.entry with
    | none => simp [reachable_eq_error hentry, eq_comm]
    | some p =>
      obtain ⟨found, hfound, -⟩ := exists_leastClosed_reachable hwf hentry
      simp [hfound]

/-- Epsilon arcs lead into a cycle of two states, and a letter leads out of it. -/
def epsilonLasso : Automaton where
  origin := 0
  alphabet := .ofList [.char 'a', .epsilon]
  states := #[
    ⟨⟨0, 0⟩, true, false, .ofList [⟨.epsilon, ⟨0, 0⟩⟩, ⟨.epsilon, ⟨1, 0⟩⟩]⟩,
    ⟨⟨1, 0⟩, false, false, .ofList [⟨.epsilon, ⟨1, 0⟩⟩, ⟨.epsilon, ⟨2, 0⟩⟩]⟩,
    ⟨⟨2, 0⟩, false, false,
      .ofList [⟨.char 'a', ⟨3, 0⟩⟩, ⟨.epsilon, ⟨1, 0⟩⟩, ⟨.epsilon, ⟨2, 0⟩⟩]⟩,
    ⟨⟨3, 0⟩, false, false, .ofList [⟨.epsilon, ⟨3, 0⟩⟩]⟩]
  entry := some ⟨0, 0⟩

theorem built_epsilonLasso : epsilonLasso.Built := by
  have h₀ : (empty 0 (.ofList [.char 'a', .epsilon])).addState.addState.Built :=
    .addState (.addState (.empty _ _))
  have h := h₀.addState.addState
  have h₁ := Built.addArc (p := ⟨0, 0⟩) (l := .epsilon) (q := ⟨1, 0⟩) h rfl
  have h₂ := Built.addArc (p := ⟨1, 0⟩) (l := .epsilon) (q := ⟨2, 0⟩) h₁ rfl
  have h₃ := Built.addArc (p := ⟨2, 0⟩) (l := .epsilon) (q := ⟨1, 0⟩) h₂ rfl
  have h₄ := Built.addArc (p := ⟨2, 0⟩) (l := .char 'a') (q := ⟨3, 0⟩) h₃ rfl
  exact .setEntry (q := ⟨0, 0⟩) h₄ rfl

/-- The closure of the cycle from either of its states, the first of two foreign seeds, and the
state behind the cycle, which is reachable but in no closure of the others. -/
theorem traversals_least_epsilonLasso :
    epsilonLasso.TraversalLaws ∧
    epsilonLasso.closure [⟨2, 0⟩, ⟨1, 0⟩, ⟨2, 0⟩] = .ok (.ofList [⟨1, 0⟩, ⟨2, 0⟩]) ∧
    epsilonLasso.closure [⟨0, 0⟩, ⟨7, 0⟩, ⟨0, 1⟩] = .error (.foreignState ⟨7, 0⟩) ∧
    epsilonLasso.reachable = .ok (.ofList [⟨0, 0⟩, ⟨1, 0⟩, ⟨2, 0⟩, ⟨3, 0⟩]) :=
  ⟨traversals_least built_epsilonLasso, by rfl, by rfl, by rfl⟩

end Automaton

end PatternAutomata
