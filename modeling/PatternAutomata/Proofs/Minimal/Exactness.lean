import PatternAutomata.Proofs.Automaton.Runs
import PatternAutomata.Proofs.Minimal.Minimization

/-!
# What the classes of equivalent states are

The classes of a partition come from a table, which is filled in place, and from a forest, whose
sets are united one pair after the other.  Nothing of this is left in `ExactClasses`: the classes
share out the reachable states, are listed by their smallest members, and keep two states together
exactly if no word tells their runs apart.

A number is never below the root of its set, so the state whose index is the root is the smallest of
its class (`exists_isLeast_setOf_root`).  This is why listing the sets by their roots lists the
classes by their smallest members.

* `partition_ascending`: the order of the classes of any partition.
* `partition_exact`: any automaton with an entry whose reachable states have one target at most on
  each letter has such classes.
-/

namespace PatternAutomata

/-- A member of a set that precedes all others. -/
def OrderedSet.IsLeast {α : Type} [LT α] (s : OrderedSet α) (a : α) : Prop :=
  a ∈ s ∧ ∀ b ∈ s, b = a ∨ a < b

/-! ## The order of the classes -/

/-- Uniting pairs never puts a parent above its child. -/
theorem ordered_unmarkedSets (n : Nat) (t : PairMarks) : (unmarkedSets n t).Ordered := by
  have hfold : ∀ (pairs : List (Nat × Nat)) (s : SetForest),
      (∀ pair ∈ pairs, pair.1 < n ∧ pair.2 < n) → s.Ordered → s.parent.size = n →
        (pairs.foldl (fun s pair =>
          if t.isMarked pair.1 pair.2 then s else s.union pair.1 pair.2) s).Ordered := by
    intro pairs
    induction pairs with
    | nil => exact fun s _ hs _ => hs
    | cons pair pairs ih =>
      intro s hpairs hs hsize
      obtain ⟨⟨hi, hj⟩, hrest⟩ := List.forall_mem_cons.mp hpairs
      rw [List.foldl_cons]
      split
      · exact ih s hrest hs hsize
      · obtain ⟨hordered, hsize', -⟩ :=
          SetForest.union_spec hs (hsize ▸ hi : pair.1 < s.parent.size) (hsize ▸ hj)
        exact ih _ hrest hordered (hsize'.trans hsize)
  obtain ⟨hdiscrete, hsize, -⟩ := SetForest.discrete_spec n
  refine hfold _ _ (fun pair hpair => ?_) hdiscrete hsize
  obtain ⟨hj, hi⟩ := PairMarks.mem_pairs.mp hpair
  exact ⟨hi, hj.trans hi⟩

/-- The state whose index is the root of a set is the smallest of the set. -/
theorem exists_isLeast_setOf_root {states : List StateId} (hstates : states.Pairwise (· < ·))
    {forest : SetForest} (hordered : forest.Ordered) {k : Nat} {q : StateId}
    (hq : q ∈ statesOfRoot (states.zip (forest.roots (List.range states.length))) k) :
    ∃ p, states[k]? = some p ∧
      (statesOfRoot (states.zip (forest.roots (List.range states.length))) k).IsLeast p := by
  obtain ⟨i, hi, hik⟩ := (mem_setOf_root states hordered).mp hq
  have hki : k ≤ i := hik ▸ SetForest.root_le forest i
  have hk : k < states.length := hki.trans_lt (List.getElem?_eq_some_iff.mp hi).1
  have hget : states[k]? = some states[k] := List.getElem?_eq_getElem hk
  have hroot : forest.root k = k := by rw [← hik, hordered.root_root]
  refine ⟨states[k], hget, (mem_setOf_root states hordered).mpr ⟨k, hget, hroot⟩, fun r hr => ?_⟩
  obtain ⟨j, hj, hjk⟩ := (mem_setOf_root states hordered).mp hr
  obtain ⟨hlt, rfl⟩ := List.getElem?_eq_some_iff.mp hj
  have hkj : k ≤ j := hjk ▸ SetForest.root_le forest j
  rcases Nat.eq_or_lt_of_le hkj with rfl | hkj
  · exact Or.inl rfl
  · exact Or.inr (List.pairwise_iff_getElem.mp hstates k j hk hlt hkj)

namespace Automaton

variable {a : Automaton} {p q r : StateId} {classes : List (OrderedSet StateId)}

/-- **The classes of a partition are listed by their smallest members.** -/
theorem partition_ascending {P : Partition} (h : a.partition = .ok P)
    (hmem : ∀ c ∈ P.classes, ∃ q, q ∈ c) :
    P.classes.Pairwise fun c d => ∃ p q, c.IsLeast p ∧ d.IsLeast q ∧ p < q := by
  obtain ⟨reached, -, hsingle | ⟨t, hclasses⟩⟩ := partition_cases h
  · rw [hsingle]
    exact List.pairwise_singleton _ _
  · rw [hclasses] at hmem ⊢
    have hordered := ordered_unmarkedSets reached.toList.length t
    unfold unmarkedClasses at hmem ⊢
    rw [List.pairwise_filter, List.pairwise_map]
    refine List.Pairwise.imp_of_mem ?_ List.pairwise_lt_range
    intro i j hi hj hij hne hne'
    obtain ⟨x, hx⟩ := hmem _ (List.mem_filter.mpr ⟨List.mem_map_of_mem hi, hne⟩)
    obtain ⟨y, hy⟩ := hmem _ (List.mem_filter.mpr ⟨List.mem_map_of_mem hj, hne'⟩)
    obtain ⟨p, hp, hleast⟩ := exists_isLeast_setOf_root reached.ascending hordered hx
    obtain ⟨q, hq, hleast'⟩ := exists_isLeast_setOf_root reached.ascending hordered hy
    obtain ⟨hlt, rfl⟩ := List.getElem?_eq_some_iff.mp hp
    obtain ⟨hlt', rfl⟩ := List.getElem?_eq_some_iff.mp hq
    exact ⟨_, _, hleast, hleast', List.pairwise_iff_getElem.mp reached.ascending i j hlt hlt' hij⟩

/-! ## Classes and runs -/

/-- Classes of some states of an automaton that keep together what no word tells apart. -/
structure ExactClasses (a : Automaton) (reached : OrderedSet StateId)
    (classes : List (OrderedSet StateId)) : Prop where
  exists_mem : ∀ c ∈ classes, ∃ q, q ∈ c
  disjoint : classes.Pairwise fun c d => ∀ q ∈ c, q ∉ d
  mem_iff : ∀ q, q ∈ reached ↔ ∃ c ∈ classes, q ∈ c
  /-- The classes are listed by their smallest members. -/
  ascending : classes.Pairwise fun c d => ∃ p q, c.IsLeast p ∧ d.IsLeast q ∧ p < q
  /-- Two states are together if their runs agree on every word over the alphabet. -/
  together_iff : ∀ q ∈ reached, ∀ r ∈ reached, (∃ c ∈ classes, q ∈ c ∧ r ∈ c) ↔
    ∀ w, (∀ l ∈ w, l ∈ a.alphabet) → RunsAgree a a q r w
  /-- If exits can be reached from everywhere, they are together if they accept the same words. -/
  together_iff_language : (∀ q ∈ reached, ∃ r, Relation.ReflTransGen a.Linked q r ∧ a.IsExit r) →
    ∀ q ∈ reached, ∀ r ∈ reached, (∃ c ∈ classes, q ∈ c ∧ r ∈ c) ↔
      a.languageFrom q = a.languageFrom r

/-- Two states are in one class if they have the same outcome. -/
theorem OutcomeClasses.together_iff (h : a.OutcomeClasses classes) (hq : a.Reachable q)
    (hr : a.Reachable r) :
    (∃ c ∈ classes, q ∈ c ∧ r ∈ c) ↔ a.system.outcome q = a.system.outcome r := by
  constructor
  · intro htogether
    obtain ⟨c, hc, hqc, hrc⟩ := htogether
    exact ((h.mem_iff c hc r hrc q).mp hqc).2
  · intro houtcome
    obtain ⟨c, hc, hrc⟩ := h.exists_class r hr
    exact ⟨c, hc, (h.mem_iff c hc r hrc q).mpr ⟨hq, houtcome⟩, hrc⟩

/-- The classes of a partition are exact. -/
theorem exactClasses_of_partition (ha : a.WellFormed) {P : Partition} (hP : a.partition = .ok P)
    {reached : OrderedSet StateId} (hreached : ∀ q, q ∈ reached ↔ a.Reachable q) :
    a.ExactClasses reached P.classes := by
  obtain ⟨p, -, hfun, hclasses⟩ := outcomeClasses_of_partition ha hP
  refine ⟨hclasses.exists_mem, partition_disjoint hP,
    fun q => (hreached q).trans hclasses.covered_iff.symm,
    partition_ascending hP hclasses.exists_mem, fun q hq r hr => ?_, fun hlive q hq r hr => ?_⟩
  · rw [hreached] at hq hr
    rw [hclasses.together_iff hq hr, outcome_eq_iff ha ha rfl hfun hfun hq hr]
  · have hexits : ∀ q, a.Reachable q → ∃ r, Relation.ReflTransGen a.Linked q r ∧ a.IsExit r :=
      fun q hq => hlive q ((hreached q).mpr hq)
    rw [hreached] at hq hr
    rw [hclasses.together_iff hq hr, languageFrom_eq_iff ha hfun hexits hq hr]

/-- **Equivalence classes are exact.**  Every automaton with an entry whose reachable states have
one target at most on each letter has a partition.  Its classes share out the reachable states, and
two of these are together exactly if their runs agree on every word. -/
theorem partition_exact (ha : a.Built) (hentry : a.entry = some p)
    (hfun : ∀ q, a.Reachable q → a.FunctionalAt q) :
    ∃ P reached, a.partition = .ok P ∧ a.reachable = .ok reached ∧
      (∀ q, q ∈ reached ↔ a.Reachable q) ∧ a.ExactClasses reached P.classes := by
  have hwf := ha.wellFormed
  obtain ⟨P, hP, -⟩ := exists_partition hwf hentry hfun
  obtain ⟨reached, hreached, hmem⟩ := exists_reachable hwf hentry
  exact ⟨P, reached, hP, hreached, hmem, exactClasses_of_partition hwf hP hmem⟩

/-- From the entry each of two letters leads to an exit, and the two exits lead to each other.  A
state outside leads to both of them on one letter. -/
def forkedExits : Automaton where
  origin := 0
  alphabet := .ofList [.char 'a', .char 'b']
  states := #[
    ⟨⟨0, 0⟩, true, false, .ofList [⟨.char 'a', ⟨1, 0⟩⟩, ⟨.char 'b', ⟨2, 0⟩⟩]⟩,
    ⟨⟨1, 0⟩, false, true, .ofList [⟨.char 'a', ⟨2, 0⟩⟩]⟩,
    ⟨⟨2, 0⟩, false, true, .ofList [⟨.char 'a', ⟨1, 0⟩⟩]⟩,
    ⟨⟨3, 0⟩, false, false, .ofList [⟨.char 'a', ⟨1, 0⟩⟩, ⟨.char 'a', ⟨2, 0⟩⟩]⟩]
  entry := some ⟨0, 0⟩

theorem built_forkedExits : forkedExits.Built := by
  have h : (empty 0 (.ofList [.char 'a', .char 'b'])).addState.addState.addState.addState.Built :=
    .addState (.addState (.addState (.addState (.empty _ _))))
  have h₁ := Built.addArc (p := ⟨0, 0⟩) (l := .char 'a') (q := ⟨1, 0⟩) h rfl
  have h₂ := Built.addArc (p := ⟨0, 0⟩) (l := .char 'b') (q := ⟨2, 0⟩) h₁ rfl
  have h₃ := Built.addArc (p := ⟨1, 0⟩) (l := .char 'a') (q := ⟨2, 0⟩) h₂ rfl
  have h₄ := Built.addArc (p := ⟨2, 0⟩) (l := .char 'a') (q := ⟨1, 0⟩) h₃ rfl
  have h₅ := Built.addArc (p := ⟨3, 0⟩) (l := .char 'a') (q := ⟨1, 0⟩) h₄ rfl
  have h₆ := Built.addArc (p := ⟨3, 0⟩) (l := .char 'a') (q := ⟨2, 0⟩) h₅ rfl
  have h₇ := Built.setExit (q := ⟨1, 0⟩) h₆ rfl
  have h₈ := Built.setExit (q := ⟨2, 0⟩) h₇ rfl
  exact .setEntry (q := ⟨0, 0⟩) h₈ rfl

/-- The reachable states of `forkedExits` are its first three. -/
theorem index_lt_of_reachable_forkedExits (h : forkedExits.Reachable q) : q.index < 3 := by
  obtain ⟨p, hp, hpq⟩ := h
  have htarget : ∀ arc ∈ forkedExits.arcList, arc.2.2.index < 3 := by decide
  rcases Relation.ReflTransGen.cases_tail hpq with rfl | ⟨r, -, l, harc⟩
  · cases hp
    decide
  · exact htarget _ (built_forkedExits.wellFormed.mem_arcList.mpr harc)

theorem functionalAt_forkedExits (h : forkedExits.Reachable q) : forkedExits.FunctionalAt q := by
  have hfun : ∀ x ∈ forkedExits.arcList, ∀ y ∈ forkedExits.arcList, x.1.index < 3 → x.1 = y.1 →
      x.2.1 = y.2.1 → x.2.2 = y.2.2 := by decide
  intro l r r' hr hr'
  have hwf := built_forkedExits.wellFormed
  exact hfun _ (hwf.mem_arcList.mpr hr) _ (hwf.mem_arcList.mpr hr')
    (index_lt_of_reachable_forkedExits h) rfl rfl

/-- The two exits are one class, after that of the entry, so no word tells them apart. -/
theorem partition_exact_forkedExits :
    forkedExits.partition = .ok ⟨[.singleton ⟨0, 0⟩, .ofList [⟨1, 0⟩, ⟨2, 0⟩]], [0]⟩ ∧
      ∀ w, (∀ l ∈ w, l ∈ forkedExits.alphabet) →
        RunsAgree forkedExits forkedExits ⟨1, 0⟩ ⟨2, 0⟩ w := by
  obtain ⟨P, reached, hP, hreached, -, hexact⟩ :=
    partition_exact built_forkedExits rfl fun q => functionalAt_forkedExits
  have hpartition :
      forkedExits.partition = .ok ⟨[.singleton ⟨0, 0⟩, .ofList [⟨1, 0⟩, ⟨2, 0⟩]], [0]⟩ := by rfl
  have hreachable : forkedExits.reachable = .ok (.ofList [⟨0, 0⟩, ⟨1, 0⟩, ⟨2, 0⟩]) := by rfl
  rw [hpartition] at hP
  rw [hreachable] at hreached
  cases hP
  cases hreached
  refine ⟨hpartition, (hexact.together_iff ⟨1, 0⟩ (by decide) ⟨2, 0⟩ (by decide)).mp ?_⟩
  exact ⟨.ofList [⟨1, 0⟩, ⟨2, 0⟩], by simp, by decide, by decide⟩

end Automaton

end PatternAutomata
