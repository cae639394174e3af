import PatternAutomata.Proofs.Minimal.Exactness

/-!
# Minimization as a normal form

What minimizing leaves of an automaton is the behaviour of its entry, with the behaviours that are
found from it, in the order in which they are found.  Neither the representatives of the classes nor
the order of the classes can be seen in the result.  So automata whose runs agree have minimal
automata with the same dump, however different they are, and a minimal automaton is its own minimal
automaton, down to the numbering of the states.

The states of an automaton that is `MinimalOf` a behaviour have different outcomes, because they
stand for behaviours that are their own outcomes.  This is why minimizing again finds single states.

* `System.Presents.dump_eq`: the dump of an automaton that presents a system.
* `MinimalOf.dump_eq`: a behaviour has one minimal automaton.
* `MinimalOf.idempotent`: minimizing it again changes nothing.
* `minimize_normal_form`: both, for any automaton that has a partition.
-/

namespace PatternAutomata

namespace System.Presents

variable {β : Type} [DecidableEq β] {S : System β} {a : Automaton} {items : List β} {x : β}
  {i : Nat}

/-- What a letter leads to from the state of an item, by its index. -/
theorem targets_eq (h : S.Presents a items) (hx : items[i]? = some x) {s : State}
    (hs : a.state? ⟨i, a.origin⟩ = some s) (l : Letter) :
    (s.targets l).toList.map StateId.index = ((S.step x l).map items.idxOf).toList := by
  have hmem : ∀ q, q ∈ s.targets l ↔
      ∃ j y, S.step x l = some y ∧ items[j]? = some y ∧ q = ⟨j, a.origin⟩ := by
    intro q
    rw [State.mem_targets, ← Automaton.hasArc_iff hs, h.hasArc_iff hx]
  cases hy : S.step x l with
  | none =>
    have hempty : s.targets l = ∅ := by
      refine OrderedSet.ext_mem fun q => ?_
      rw [hmem]
      simp [hy]
    rw [hempty]
    rfl
  | some y =>
    have hj : items[items.idxOf y]? = some y :=
      List.getElem?_idxOf (h.closed (List.mem_of_getElem? hx) hy)
    have hsingle : s.targets l = .singleton ⟨items.idxOf y, a.origin⟩ := by
      refine OrderedSet.ext_mem fun q => ?_
      rw [hmem, OrderedSet.mem_singleton]
      constructor
      · intro hq
        obtain ⟨k, z, hz, hk, rfl⟩ := hq
        rw [hy] at hz
        cases hz
        rw [h.index_unique hk hj]
      · exact fun hq => ⟨_, y, hy, hj, hq⟩
    rw [hsingle]
    rfl

/-- **The dump of an automaton shows the items and their steps, and nothing else.** -/
theorem dump_eq (h : S.Presents a items) : a.dump =
    ⟨a.alphabet.toList, some 0, items.map fun x =>
      (S.isExit x, a.alphabet.toList.map fun l => ((S.step x l).map items.idxOf).toList)⟩ := by
  unfold Automaton.dump
  rw [h.entry_eq]
  refine congrArg _ (List.ext_getElem ?_ fun i hi hi' => ?_)
  · rw [List.length_map, List.length_map, Array.length_toList, ← h.size_eq]
    rfl
  · rw [List.length_map] at hi hi'
    have hx : items[i]? = some items[i] := List.getElem?_eq_getElem hi'
    have hs : a.state? ⟨i, a.origin⟩ = some a.states[i] := Automaton.state?_index hi
    have hexit : a.states[i].isExit = S.isExit items[i] := by
      rw [Bool.eq_iff_iff, ← Automaton.isExit_iff hs, h.isExit_iff hx]
    rw [List.getElem_map, List.getElem_map, Array.getElem_toList, hexit]
    exact congrArg _ (List.map_congr_left fun l _ => h.targets_eq hx hs l)

end System.Presents

namespace Behaviour

variable {f g : Behaviour} {l : Letter}

/-- A behaviour that follows no word without following its beginnings is its own outcome. -/
def Coherent (f : Behaviour) : Prop := system.outcome f = f

theorem Coherent.step (hf : f.Coherent) (h : system.step f l = some g) : g.Coherent := by
  have hg : g = fun w => f (l :: w) := by
    simp only [system] at h
    split at h
    · cases h
    · exact (Option.some.inj h).symm
  funext w
  rw [← System.outcome_cons_of_step h w, hf, hg]

end Behaviour

namespace Automaton

variable {a b m : Automaton} {p q : StateId} {P : Partition} {f : Behaviour}
  {items items' : List Behaviour}

/-- An automaton whose states are the behaviours found from one, in the order in which a depth-first
search finds them. -/
structure MinimalOf (m : Automaton) (f : Behaviour) (items : List Behaviour) : Prop where
  coherent : f.Coherent
  explored : Explored (behaviourSuccessors m.alphabet) .depthFirst [f] items
  presents : Behaviour.system.Presents m items

/-- Minimizing leaves the minimal automaton of the behaviour of the entry. -/
theorem exists_minimalOf (ha : a.WellFormed) (hP : a.partition = .ok P) (hentry : a.entry = some p)
    (origin : Nat) : ∃ m items, a.quotient origin P.classes = .ok m ∧ m.alphabet = a.alphabet ∧
      m.MinimalOf (a.system.outcome p) items := by
  obtain ⟨p', hentry', hfun, -⟩ := outcomeClasses_of_partition ha hP
  rw [hentry] at hentry'
  cases hentry'
  obtain ⟨P', m, items, hP', hm, -, halphabet, hexplored, hpresents⟩ :=
    exists_minimal ha hentry hfun origin
  rw [hP] at hP'
  cases hP'
  exact ⟨m, items, hm, halphabet, System.outcome_outcome _ _, halphabet ▸ hexplored, hpresents⟩

namespace MinimalOf

/-- **A behaviour has one minimal automaton over an alphabet**, apart from its origin. -/
theorem dump_eq (h : a.MinimalOf f items) (h' : b.MinimalOf f items')
    (halphabet : a.alphabet = b.alphabet) : a.dump = b.dump := by
  have hitems : items = items' := h.explored.unique (halphabet ▸ h'.explored)
  rw [h.presents.dump_eq, h'.presents.dump_eq, hitems, halphabet]

theorem coherent_of_mem (h : m.MinimalOf f items) {g : Behaviour} (hg : g ∈ items) :
    g.Coherent := by
  rw [h.explored.mem_iff] at hg
  induction hg with
  | seed hg =>
    rw [List.mem_singleton] at hg
    exact hg ▸ h.coherent
  | next _ hnext hg ih =>
    cases hnext
    obtain ⟨l, -, hstep⟩ := List.mem_filterMap.mp hg
    exact ih.step hstep

/-- A state has the behaviour that it stands for. -/
theorem outcome_eq (h : m.MinimalOf f items) {i : Nat} {g : Behaviour} (hg : items[i]? = some g) :
    m.system.outcome ⟨i, m.origin⟩ = g :=
  (h.presents.outcome_eq hg).trans (h.coherent_of_mem (List.mem_of_getElem? hg))

/-- No two states have the same behaviour. -/
theorem eq_of_outcome_eq (h : m.MinimalOf f items) (hp : p ∈ m) (hq : q ∈ m)
    (houtcome : m.system.outcome p = m.system.outcome q) : p = q := by
  obtain ⟨i, g, rfl, hi⟩ := h.presents.origin_eq_of_mem hp
  obtain ⟨j, g', rfl, hj⟩ := h.presents.origin_eq_of_mem hq
  rw [h.outcome_eq hi, h.outcome_eq hj] at houtcome
  cases houtcome
  rw [h.presents.index_unique hi hj]

/-- The classes of a minimal automaton are single states. -/
theorem exists_singleton (h : m.MinimalOf f items) (hP : m.partition = .ok P) :
    ∀ c ∈ P.classes, ∃ q, c = .singleton q := by
  obtain ⟨-, -, -, hclasses⟩ := outcomeClasses_of_partition h.presents.wellFormed hP
  intro c hc
  obtain ⟨q, hq⟩ := hclasses.exists_mem c hc
  have hmem : ∀ r ∈ c, r ∈ m := fun r hr =>
    (hclasses.covered_iff.mp ⟨c, hc, hr⟩).mem h.presents.wellFormed
  refine ⟨q, OrderedSet.ext_mem fun r => ?_⟩
  rw [OrderedSet.mem_singleton]
  constructor
  · intro hr
    exact h.eq_of_outcome_eq (hmem r hr) (hmem q hq) ((hclasses.mem_iff c hc q hq r).mp hr).2
  · intro hr
    rw [hr]
    exact hq

/-- **Minimizing a minimal automaton changes nothing but the origin.** -/
theorem idempotent (h : m.MinimalOf f items) :
    ∃ R, m.partition = .ok R ∧ (∀ c ∈ R.classes, ∃ q, c = .singleton q) ∧
      ∀ origin, ∃ n, m.quotient origin R.classes = .ok n ∧ n.dump = m.dump := by
  have hwf := h.presents.wellFormed
  obtain ⟨R, hR, -⟩ := exists_partition hwf h.presents.entry_eq fun q _ => h.presents.functionalAt q
  refine ⟨R, hR, h.exists_singleton hR, fun origin => ?_⟩
  obtain ⟨n, items', hn, halphabet, hminimal⟩ :=
    exists_minimalOf hwf hR h.presents.entry_eq origin
  rw [h.outcome_eq h.explored.getElem?_zero] at hminimal
  exact ⟨n, hn, hminimal.dump_eq h halphabet⟩

end MinimalOf

/-- **Minimization is a normal form.**  Automata over one alphabet from whose entries the runs agree
on every word have minimal automata with the same dump.  Minimizing a minimal automaton finds single
states only, and leads to the same dump again. -/
theorem minimize_normal_form (ha : a.Built) (hP : a.partition = .ok P) (origin : Nat) :
    ∃ m, a.quotient origin P.classes = .ok m ∧
      (∀ b Q p q, b.Built → b.partition = .ok Q → a.alphabet = b.alphabet →
        a.entry = some p → b.entry = some q →
        (∀ w, (∀ l ∈ w, l ∈ a.alphabet) → RunsAgree a b p q w) →
          ∀ origin', ∃ n, b.quotient origin' Q.classes = .ok n ∧ n.dump = m.dump) ∧
      ∃ R, m.partition = .ok R ∧ (∀ c ∈ R.classes, ∃ q, c = .singleton q) ∧
        ∀ origin', ∃ n, m.quotient origin' R.classes = .ok n ∧ n.dump = m.dump := by
  have hwf := ha.wellFormed
  obtain ⟨p, hentry, hfun, -⟩ := outcomeClasses_of_partition hwf hP
  obtain ⟨m, items, hm, halphabet, hminimal⟩ := exists_minimalOf hwf hP hentry origin
  refine ⟨m, hm, ?_, hminimal.idempotent⟩
  intro b Q p' q hb hQ hsame hentry' hentry_b hagree origin'
  rw [hentry] at hentry'
  cases hentry'
  obtain ⟨-, -, hfun_b, -⟩ := outcomeClasses_of_partition hb.wellFormed hQ
  have houtcome : a.system.outcome p = b.system.outcome q :=
    (outcome_eq_iff hwf hb.wellFormed hsame hfun hfun_b ⟨p, hentry, .refl⟩
      ⟨q, hentry_b, .refl⟩).mpr hagree
  obtain ⟨n, items', hn, halphabet', hminimal'⟩ :=
    exists_minimalOf hb.wellFormed hQ hentry_b origin'
  rw [← houtcome] at hminimal'
  exact ⟨n, hn, hminimal'.dump_eq hminimal (halphabet'.trans (hsame.symm.trans halphabet.symm))⟩

/-- An entry whose two letters lead to one exit, which leads to itself, and an exit outside. -/
def loopedExit : Automaton where
  origin := 1
  alphabet := .ofList [.char 'a', .char 'b']
  states := #[
    ⟨⟨0, 1⟩, false, true, .ofList [⟨.char 'a', ⟨0, 1⟩⟩]⟩,
    ⟨⟨1, 1⟩, true, false, .ofList [⟨.char 'a', ⟨0, 1⟩⟩, ⟨.char 'b', ⟨0, 1⟩⟩]⟩,
    ⟨⟨2, 1⟩, false, true, ∅⟩]
  entry := some ⟨1, 1⟩

theorem built_loopedExit : loopedExit.Built := by
  have h : (empty 1 (.ofList [.char 'a', .char 'b'])).addState.addState.addState.Built :=
    .addState (.addState (.addState (.empty _ _)))
  have h₁ := Built.addArc (p := ⟨0, 1⟩) (l := .char 'a') (q := ⟨0, 1⟩) h rfl
  have h₂ := Built.addArc (p := ⟨1, 1⟩) (l := .char 'a') (q := ⟨0, 1⟩) h₁ rfl
  have h₃ := Built.addArc (p := ⟨1, 1⟩) (l := .char 'b') (q := ⟨0, 1⟩) h₂ rfl
  have h₄ := Built.setExit (q := ⟨0, 1⟩) h₃ rfl
  have h₅ := Built.setExit (q := ⟨2, 1⟩) h₄ rfl
  exact .setEntry (q := ⟨1, 1⟩) h₅ rfl

/-- The two exits of `forkedExits` are matched with the one of `loopedExit`. -/
def matchedStates : List (StateId × StateId) :=
  [(⟨0, 0⟩, ⟨1, 1⟩), (⟨1, 0⟩, ⟨0, 1⟩), (⟨2, 0⟩, ⟨0, 1⟩)]

theorem outcome_forkedExits :
    forkedExits.system.outcome ⟨0, 0⟩ = loopedExit.system.outcome ⟨1, 1⟩ := by
  have hexit : ∀ pair ∈ matchedStates,
      forkedExits.system.isExit pair.1 = loopedExit.system.isExit pair.2 := by decide
  have hstep : ∀ pair ∈ matchedStates, ∀ l ∈ forkedExits.alphabet.toList,
      (forkedExits.system.step pair.1 l = none ∧ loopedExit.system.step pair.2 l = none) ∨
      ∃ next ∈ matchedStates, forkedExits.system.step pair.1 l = some next.1 ∧
        loopedExit.system.step pair.2 l = some next.2 := by decide
  refine System.outcome_eq_of_bisimulation (R := fun q r => (q, r) ∈ matchedStates)
    (fun q r hqr => hexit (q, r) hqr) (fun q r hqr l => ?_) (by decide)
  by_cases hl : l ∈ forkedExits.alphabet
  · rcases hstep (q, r) hqr l hl with ⟨hq, hr⟩ | ⟨next, hnext, hq, hr⟩
    · rw [hq, hr]
      exact .none
    · rw [hq, hr]
      exact .some hnext
  · rw [system_step_of_not_mem built_forkedExits.wellFormed hl,
      system_step_of_not_mem built_loopedExit.wellFormed hl]
    exact .none

/-- Four states and three become the same two, and stay the same when they are minimized again. -/
theorem minimize_normal_form_forkedExits :
    ∃ m n, forkedExits.minimize 2 = .ok m ∧ loopedExit.minimize 3 = .ok n ∧ n.dump = m.dump ∧
      ∃ n', m.minimize 4 = .ok n' ∧ n'.dump = m.dump := by
  have hP : forkedExits.partition = .ok ⟨[.singleton ⟨0, 0⟩, .ofList [⟨1, 0⟩, ⟨2, 0⟩]], [0]⟩ := by
    rfl
  have hQ : loopedExit.partition = .ok ⟨[.singleton ⟨0, 1⟩, .singleton ⟨1, 1⟩], [0]⟩ := by rfl
  have hfun : ∀ q, loopedExit.Reachable q → loopedExit.FunctionalAt q := by
    obtain ⟨-, -, hfun, -⟩ := outcomeClasses_of_partition built_loopedExit.wellFormed hQ
    exact hfun
  have hagree := (outcome_eq_iff built_forkedExits.wellFormed built_loopedExit.wellFormed rfl
    (fun q => functionalAt_forkedExits) hfun ⟨_, rfl, .refl⟩ ⟨_, rfl, .refl⟩).mp outcome_forkedExits
  obtain ⟨m, hm, hbehaviour, R, hR, -, hagain⟩ := minimize_normal_form built_forkedExits hP 2
  obtain ⟨n, hn, hdump⟩ := hbehaviour _ _ _ _ built_loopedExit hQ rfl rfl rfl hagree 3
  obtain ⟨n', hn', hdump'⟩ := hagain 4
  exact ⟨m, n, by simp only [minimize, hP, hm], by simp only [minimize, hQ, hn], hdump, n',
    by simp only [minimize, hR, hn'], hdump'⟩

end Automaton

end PatternAutomata
