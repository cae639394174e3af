import PatternAutomata.Proofs.Automaton.Trim

/-!
# Runs and the languages of states

A run follows arcs on the letters of a word, one after the other.  Epsilon is a letter like any
other here, so that a run passes epsilon arcs only where the word says so.  Where one arc at most
leaves on each letter, a word has one run at most from a state.

The outcome of a state is what its runs look like from outside.  Two states have the same outcome
if their runs agree on every word over the alphabet (`outcome_eq_iff`).  Where every run can be
continued to an exit, it is enough that the same words are accepted from both
(`languageFrom_eq_iff`); otherwise one of them may still follow words that are accepted nowhere.

* `follows_iff_run`: runs are the runs of the automaton as a system.
* `leads_iff_follows`: a path spells what is left of the word of a run without the epsilons.
-/

namespace PatternAutomata

/-- The characters of a word, in their order, without the epsilons. -/
def spelled (w : List Letter) : List Char :=
  w.filterMap fun l =>
    match l with
    | .char c => some c
    | .epsilon => none

@[simp] theorem spelled_char (c : Char) (w : List Letter) :
    spelled (.char c :: w) = c :: spelled w := rfl

@[simp] theorem spelled_map_char (u : List Char) : spelled (u.map .char) = u := by
  induction u with
  | nil => rfl
  | cons c u ih => rw [List.map_cons, spelled_char, ih]

namespace Automaton

variable {a b : Automaton} {p q r t : StateId} {l : Letter} {w : List Letter} {u : List Char}

/-- Arcs lead from one state to another, one on each letter of a word. -/
inductive Follows (a : Automaton) : StateId → List Letter → StateId → Prop where
  | nil (q : StateId) : Follows a q [] q
  | cons {p q r : StateId} {l : Letter} {w : List Letter} :
      a.HasArc p l q → Follows a q w r → Follows a p (l :: w) r

/-- Either there is no run on a word from either of two states, or the runs from them lead to two
exits, or to two states that are none. -/
def RunsAgree (a b : Automaton) (p q : StateId) (w : List Letter) : Prop :=
  ((∀ r, ¬ a.Follows p w r) ∧ ∀ t, ¬ b.Follows q w t) ∨
    ∃ r t, a.Follows p w r ∧ b.Follows q w t ∧ (a.IsExit r ↔ b.IsExit t)

/-- The words that paths from a state to an exit spell. -/
def languageFrom (a : Automaton) (p : StateId) : Language Char :=
  {u | ∃ q, a.Leads p u q ∧ a.IsExit q}

/-! ## Runs of deterministic automata -/

theorem Follows.letter_mem (ha : a.WellFormed) (h : a.Follows p w q) : ∀ l ∈ w, l ∈ a.alphabet := by
  induction h with
  | nil q => exact fun l hl => absurd hl List.not_mem_nil
  | cons harc _ ih => exact List.forall_mem_cons.mpr ⟨ha.letter_mem harc, ih⟩

/-- Where one arc at most leaves on each letter, runs are those of the automaton as a system. -/
theorem follows_iff_run (hfun : ∀ q, a.Reachable q → a.FunctionalAt q) (hp : a.Reachable p) :
    a.Follows p w q ↔ a.system.run p w = some q := by
  constructor
  · intro h
    induction h with
    | nil q => rfl
    | cons harc _ ih =>
      rw [System.run_cons, (system_step_iff (hfun _ hp)).mpr harc]
      exact ih (hp.tail harc)
  · intro h
    induction w generalizing p with
    | nil =>
      obtain rfl := Option.some.inj h
      exact .nil p
    | cons l w ih =>
      rw [System.run_cons] at h
      obtain ⟨r, hr, hrun⟩ := Option.bind_eq_some_iff.mp h
      have harc := (system_step_iff (hfun p hp)).mp hr
      exact .cons harc (ih (hp.tail harc) hrun)

/-- A letter outside the alphabet leads nowhere. -/
theorem system_step_of_not_mem (ha : a.WellFormed) (hl : l ∉ a.alphabet) :
    a.system.step q l = none := by
  refine Option.eq_none_iff_forall_ne_some.mpr fun r hr => hl ?_
  cases hs : a.state? q with
  | none =>
    simp only [system, hs] at hr
    cases hr
  | some s =>
    cases hsole : s.soleTarget l with
    | error e =>
      simp only [system, hs, hsole] at hr
      cases hr
    | ok o =>
      simp only [system, hs, hsole] at hr
      exact ha.letter_mem ((hasArc_iff hs).mpr ((soleTarget_eq_ok_iff.mp hsole _).mpr hr))

/-- Runs agree on a word if the outcomes do. -/
theorem runsAgree_iff (hfa : ∀ q, a.Reachable q → a.FunctionalAt q)
    (hfb : ∀ q, b.Reachable q → b.FunctionalAt q) (hp : a.Reachable p) (hq : b.Reachable q) :
    RunsAgree a b p q w ↔ a.system.outcome p w = b.system.outcome q w := by
  unfold RunsAgree System.outcome
  simp only [follows_iff_run hfa hp, follows_iff_run hfb hq, ← system_isExit_iff]
  cases a.system.run p w <;> cases b.system.run q w <;> simp

/-- **States have the same outcome if their runs agree on every word over the alphabet.**  On other
words there are no runs. -/
theorem outcome_eq_iff (ha : a.WellFormed) (hb : b.WellFormed) (halphabet : a.alphabet = b.alphabet)
    (hfa : ∀ q, a.Reachable q → a.FunctionalAt q) (hfb : ∀ q, b.Reachable q → b.FunctionalAt q)
    (hp : a.Reachable p) (hq : b.Reachable q) : a.system.outcome p = b.system.outcome q ↔
      ∀ w, (∀ l ∈ w, l ∈ a.alphabet) → RunsAgree a b p q w := by
  constructor
  · intro h w _
    exact (runsAgree_iff hfa hfb hp hq).mpr (congrFun h w)
  · intro h
    funext w
    refine (runsAgree_iff hfa hfb hp hq).mp ?_
    by_cases hw : ∀ l ∈ w, l ∈ a.alphabet
    · exact h w hw
    · exact Or.inl ⟨fun r hr => hw (hr.letter_mem ha),
        fun t ht => hw (halphabet ▸ ht.letter_mem hb)⟩

/-! ## Words without epsilons -/

theorem Follows.leads (h : a.Follows p w q) : a.Leads p (spelled w) q := by
  induction h with
  | nil q => exact .refl q
  | @cons p q r l w harc _ ih =>
    cases l with
    | char c => exact .char harc ih
    | epsilon => exact .epsilon harc ih

/-- A path spells what is left of the word of some run without the epsilons. -/
theorem leads_iff_follows : a.Leads p u q ↔ ∃ w, a.Follows p w q ∧ spelled w = u := by
  constructor
  · intro h
    induction h with
    | refl q => exact ⟨[], .nil q, rfl⟩
    | epsilon harc _ ih =>
      obtain ⟨w, hw, hu⟩ := ih
      exact ⟨.epsilon :: w, .cons harc hw, hu⟩
    | char harc _ ih =>
      obtain ⟨w, hw, hu⟩ := ih
      exact ⟨.char _ :: w, .cons harc hw, congrArg _ hu⟩
  · intro h
    obtain ⟨w, hw, hu⟩ := h
    exact hu ▸ hw.leads

/-- Without epsilons, the path that spells a word is the run on it. -/
theorem leads_iff_follows_map_char (ha : a.WellFormed) (hε : Letter.epsilon ∉ a.alphabet) :
    a.Leads p u q ↔ a.Follows p (u.map .char) q := by
  constructor
  · intro h
    induction h with
    | refl q => exact .nil q
    | epsilon harc _ _ => exact absurd (ha.letter_mem harc) hε
    | char harc _ ih => exact .cons harc ih
  · intro h
    have hleads := h.leads
    rwa [spelled_map_char] at hleads

/-- The only epsilon arc of a deterministic state is the one to itself. -/
theorem eq_of_leads_nil (ha : a.WellFormed) (hp : a.FunctionalAt p) (h : a.Leads p [] q) :
    q = p := by
  generalize hword : [] = word at h
  induction h with
  | refl q => rfl
  | @epsilon p q r w harc _ ih =>
    have hself := ha.epsilon_self (ha.letter_mem harc) harc.source_mem
    obtain rfl := hp _ _ _ harc hself
    exact ih hp hword
  | char _ _ _ => cases hword

/-- Whatever epsilons a word contains, a path that spells the rest is a run on it. -/
theorem follows_of_leads (ha : a.WellFormed) (hfun : ∀ q, a.Reachable q → a.FunctionalAt q)
    (hp : a.Reachable p) (hw : ∀ l ∈ w, l ∈ a.alphabet) (h : a.Leads p (spelled w) q) :
    a.Follows p w q := by
  induction w generalizing p with
  | nil =>
    rw [eq_of_leads_nil ha (hfun p hp) h]
    exact .nil p
  | cons l w ih =>
    obtain ⟨hl, hrest⟩ := List.forall_mem_cons.mp hw
    cases l with
    | epsilon => exact .cons (ha.epsilon_self hl (hp.mem ha)) (ih hp hrest h)
    | char c =>
      obtain ⟨r, r', hpr, harc, hr'⟩ := Leads.exists_of_cons h
      obtain rfl := eq_of_leads_nil ha (hfun p hp) hpr
      exact .cons harc (ih (hp.tail harc) hrest hr')

/-- The words accepted from a deterministic state are those whose outcome is an exit. -/
theorem outcome_eq_true_iff (ha : a.WellFormed) (hfun : ∀ q, a.Reachable q → a.FunctionalAt q)
    (hp : a.Reachable p) : a.system.outcome p w = some true ↔
      (∀ l ∈ w, l ∈ a.alphabet) ∧ spelled w ∈ a.languageFrom p := by
  unfold System.outcome
  rw [Option.map_eq_some_iff]
  constructor
  · intro h
    obtain ⟨q, hq, hexit⟩ := h
    have hrun := (follows_iff_run hfun hp).mpr hq
    exact ⟨hrun.letter_mem ha, q, hrun.leads, system_isExit_iff.mp hexit⟩
  · intro h
    obtain ⟨hw, q, hq, hexit⟩ := h
    exact ⟨q, (follows_iff_run hfun hp).mp (follows_of_leads ha hfun hp hw hq),
      system_isExit_iff.mpr hexit⟩

/-- Where exits can always be reached, every run can be continued to an exit. -/
theorem outcome_live (hfun : ∀ q, a.Reachable q → a.FunctionalAt q) (hp : a.Reachable p)
    (hlive : ∀ q, a.Reachable q → ∃ r, Relation.ReflTransGen a.Linked q r ∧ a.IsExit r) :
    a.system.outcome p w ≠ none ↔ ∃ v, a.system.outcome p (w ++ v) = some true := by
  constructor
  · intro h
    obtain ⟨x, hx⟩ := Option.ne_none_iff_exists'.mp h
    obtain ⟨q, hq, -⟩ := Option.map_eq_some_iff.mp hx
    have hpq := hp.trans ((linked_iff_run hfun hp).mpr ⟨w, hq⟩)
    obtain ⟨r, hqr, hexit⟩ := hlive q hpq
    obtain ⟨v, hv⟩ := (linked_iff_run hfun hpq).mp hqr
    refine ⟨v, ?_⟩
    rw [System.outcome, System.run_append, hq, Option.bind_some, hv, Option.map_some,
      system_isExit_iff.mpr hexit]
  · intro h
    obtain ⟨v, hv⟩ := h
    exact System.followed_of_append (v := v) (by rw [hv]; exact Option.some_ne_none true)

/-- **Where exits can always be reached, states have the same outcome if the same words are accepted
from them.** -/
theorem languageFrom_eq_iff (ha : a.WellFormed) (hfun : ∀ q, a.Reachable q → a.FunctionalAt q)
    (hlive : ∀ q, a.Reachable q → ∃ r, Relation.ReflTransGen a.Linked q r ∧ a.IsExit r)
    (hp : a.Reachable p) (hq : a.Reachable q) :
    a.languageFrom p = a.languageFrom q ↔ a.system.outcome p = a.system.outcome q := by
  constructor
  · intro h
    refine Behaviour.eq_of_live (fun w => outcome_live hfun hp hlive)
      (fun w => outcome_live hfun hq hlive) fun w => ?_
    rw [outcome_eq_true_iff ha hfun hp, outcome_eq_true_iff ha hfun hq, h]
  · intro h
    have hmem : ∀ {p q}, a.Reachable p → a.Reachable q →
        a.system.outcome p = a.system.outcome q → ∀ u ∈ a.languageFrom p, u ∈ a.languageFrom q := by
      intro p q hp hq h u hu
      obtain ⟨r, hpr, hexit⟩ := hu
      obtain ⟨w, hw, rfl⟩ := leads_iff_follows.mp hpr
      have hp' := (outcome_eq_true_iff ha hfun hp).mpr ⟨hw.letter_mem ha, r, hw.leads, hexit⟩
      exact ((outcome_eq_true_iff ha hfun hq).mp (h ▸ hp')).2
    ext u
    exact ⟨hmem hp hq h u, hmem hq hp h.symm u⟩

end Automaton

/-- The runs of an automaton that presents a system are those of the system. -/
theorem System.Presents.follows_iff {β : Type} {S : System β} {a : Automaton} {items : List β}
    {x : β} {i : Nat} {w : List Letter} {q : StateId} (h : S.Presents a items)
    (hx : items[i]? = some x) : a.Follows ⟨i, a.origin⟩ w q ↔
      ∃ j y, S.run x w = some y ∧ items[j]? = some y ∧ q = ⟨j, a.origin⟩ := by
  constructor
  · intro hw
    induction w generalizing i x with
    | nil =>
      cases hw
      exact ⟨i, x, rfl, hx, rfl⟩
    | cons l w ih =>
      cases hw with
      | cons harc hrest =>
        obtain ⟨j, y, hstep, hj, rfl⟩ := (h.hasArc_iff hx).mp harc
        obtain ⟨k, z, hrun, hk, rfl⟩ := ih hj hrest
        refine ⟨k, z, ?_, hk, rfl⟩
        rw [run_cons, hstep]
        exact hrun
  · intro hw
    obtain ⟨j, y, hrun, hj, rfl⟩ := hw
    induction w generalizing i x with
    | nil =>
      obtain rfl := Option.some.inj hrun
      rw [h.index_unique hx hj]
      exact .nil _
    | cons l w ih =>
      rw [run_cons] at hrun
      obtain ⟨z, hstep, hrest⟩ := Option.bind_eq_some_iff.mp hrun
      obtain ⟨k, hk⟩ := List.mem_iff_getElem?.mp (h.closed (List.mem_of_getElem? hx) hstep)
      exact .cons ((h.hasArc_iff hx).mpr ⟨k, z, hstep, hk, rfl⟩) (ih hk hrest)

end PatternAutomata
