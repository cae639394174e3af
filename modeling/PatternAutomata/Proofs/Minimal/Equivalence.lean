import PatternAutomata.Proofs.Automaton.Reachability
import PatternAutomata.Proofs.Minimal.SetForest
import PatternAutomata.Proofs.Minimal.TableFilling

/-!
# The classes are those of equal outcomes

For an automaton whose reachable states have one target at most on each letter, `partition`
succeeds, and two reachable states are in one class exactly if they have the same outcome
(`exists_partition`).  It does not succeed for any other automaton (`outcomeClasses_of_partition`).

The pairs that the filled table leaves unmarked are those of equal outcomes, hence an equivalence
relation, and uniting them one after the other makes its classes the sets of the forest
(`unmarkedSets_spec`).  The other lemmas say what is computed on the way there: the reachable
states, and their profiles.
-/

namespace PatternAutomata

namespace Automaton

variable {a : Automaton} {p q r : StateId} {s : State} {states : List StateId}

/-! ## Reachable states and their profiles -/

theorem soleTargets_eq (h : a.FunctionalAt q) (hs : a.state? q = some s) (letters : List Letter) :
    soleTargets s letters = .ok (letters.map (a.system.step q)) := by
  induction letters with
  | nil => rfl
  | cons l letters ih =>
    simp only [soleTargets, soleTarget_eq_step h hs, ih, Except.map, List.map_cons]

theorem exists_soleSuccessors (ha : a.WellFormed) (hq : q ∈ a) (h : a.FunctionalAt q) :
    ∃ next, a.soleSuccessors q = .ok next ∧ ∀ r, r ∈ next ↔ a.Linked q r := by
  obtain ⟨s, hs⟩ := exists_state hq
  have hsole := soleTargets_eq h (state_eq_ok_iff.mp hs) a.alphabet.toList
  refine ⟨_, by simp only [soleSuccessors, hs, hsole]; rfl, fun r => ?_⟩
  rw [List.mem_filterMap]
  constructor
  · rintro ⟨o, ho, hr⟩
    obtain ⟨l, -, rfl⟩ := List.mem_map.mp ho
    exact ⟨l, (system_step_iff h).mp hr⟩
  · rintro ⟨l, hr⟩
    exact ⟨_, List.mem_map.mpr ⟨l, ha.letter_mem hr, rfl⟩, (system_step_iff h).mpr hr⟩

theorem exists_soleReachable (ha : a.WellFormed) (hentry : a.entry = some p)
    (hfun : ∀ q, a.Reachable q → a.FunctionalAt q) :
    ∃ s, a.soleReachable = .ok s ∧ ∀ q, q ∈ s ↔ a.Reachable q := by
  obtain ⟨found, hfound, hmem⟩ := explore_reachable ha hentry .depthFirst fun q hq =>
    exists_soleSuccessors ha (hq.mem ha) (hfun q hq)
  refine ⟨OrderedSet.ofList found, ?_, fun q => OrderedSet.mem_ofList.trans (hmem q)⟩
  rw [soleReachable, requireEntry_eq hentry]
  simp only [hfound]
  rfl

theorem exists_soleTarget_of_soleTargets {letters : List Letter} {targets : List (Option StateId)}
    (h : soleTargets s letters = .ok targets) {l : Letter} (hl : l ∈ letters) :
    ∃ o, s.soleTarget l = .ok o := by
  induction letters generalizing targets with
  | nil => cases hl
  | cons l' letters ih =>
    rw [soleTargets] at h
    cases hsole : s.soleTarget l' with
    | error e => simp only [hsole, reduceCtorEq] at h
    | ok o =>
      simp only [hsole] at h
      rcases List.mem_cons.mp hl with rfl | hl
      · exact ⟨o, hsole⟩
      · cases hrest : soleTargets s letters with
        | error e =>
          rw [hrest] at h
          cases h
        | ok targets => exact ih hrest hl

/-- The search for reachable states fails at a state with several targets on one letter. -/
theorem functionalAt_of_soleSuccessors (ha : a.WellFormed) {next : List StateId}
    (h : a.soleSuccessors q = .ok next) : a.FunctionalAt q := by
  intro l r r' hr hr'
  obtain ⟨s, hs⟩ := exists_state hr.source_mem
  simp only [soleSuccessors, hs] at h
  cases hsole : soleTargets s a.alphabet.toList with
  | error e =>
    rw [hsole] at h
    cases h
  | ok targets =>
    obtain ⟨o, ho⟩ := exists_soleTarget_of_soleTargets hsole (ha.letter_mem hr)
    have hr := (soleTarget_eq_ok_iff.mp ho r).mp ((hasArc_iff (state_eq_ok_iff.mp hs)).mp hr)
    have hr' := (soleTarget_eq_ok_iff.mp ho r').mp ((hasArc_iff (state_eq_ok_iff.mp hs)).mp hr')
    exact Option.some.inj (hr.symm.trans hr')

/-- If the search for reachable states succeeds, it has found no such state. -/
theorem functionalAt_of_soleReachable (ha : a.WellFormed) {reached : OrderedSet StateId}
    (h : a.soleReachable = .ok reached) :
    ∃ p, a.entry = some p ∧ ∀ q, a.Reachable q → a.FunctionalAt q := by
  cases hentry : a.entry with
  | none => simp only [soleReachable, requireEntry, hentry, reduceCtorEq] at h
  | some p =>
    simp only [soleReachable, requireEntry_eq hentry] at h
    have hpool : ∀ q, Discoverable a.soleSuccessors [p] q →
        (∃ next, a.soleSuccessors q = .ok next) → q ∈ a.ownStates := by
      rintro q - ⟨next, hnext⟩
      by_contra hq
      simp only [soleSuccessors, state_eq_error fun h => hq (mem_ownStates.mpr h),
        reduceCtorEq] at hnext
    rcases explore_cases (d := .depthFirst) hpool (Nat.lt_succ_of_le (card_ownStates_le a)) with
      ⟨found, -, hexplored⟩ | ⟨q, e, -, -, hfail⟩
    · refine ⟨p, rfl, fun q hq => ?_⟩
      have hfound : q ∈ found := by
        rw [reachable_iff hentry] at hq
        induction hq with
        | refl => exact hexplored.mem_iff.mpr (.seed (List.mem_singleton_self p))
        | @tail q r hpq hqr ih =>
          obtain ⟨next, hnext, hsub⟩ := hexplored.closed q ih
          obtain ⟨l, hr⟩ := hqr
          obtain ⟨next', hnext', hmem⟩ :=
            exists_soleSuccessors ha hr.source_mem (functionalAt_of_soleSuccessors ha hnext)
          rw [hnext] at hnext'
          cases hnext'
          exact hsub ((hmem r).mpr ⟨l, hr⟩)
      obtain ⟨next, hnext, -⟩ := hexplored.closed q hfound
      exact functionalAt_of_soleSuccessors ha hnext
    · rw [hfail] at h
      cases h

theorem indicesAmong_eq {targets : List (Option StateId)}
    (h : ∀ q, some q ∈ targets → q ∈ states) :
    indicesAmong states targets = .ok (targets.map fun o => o.map states.idxOf) := by
  induction targets with
  | nil => rfl
  | cons o targets ih =>
    have hrest := ih fun q hq => h q (List.mem_cons_of_mem _ hq)
    cases o with
    | none => simp only [indicesAmong, indexAmong, hrest, Except.map, List.map_cons, Option.map_none]
    | some q =>
      have hq : q ∈ states := h q List.mem_cons_self
      simp only [indicesAmong, indexAmong, if_pos hq, hrest, Except.map, List.map_cons,
        Option.map_some]

/-- The profiles of states are those of the items they are in the system of the automaton. -/
theorem profiles_eq (hmem : ∀ q ∈ states, q ∈ a) (hfun : ∀ q ∈ states, a.FunctionalAt q)
    (hclosed : ∀ {q l r}, q ∈ states → a.system.step q l = some r → r ∈ states)
    {qs : List StateId} (hqs : ∀ q ∈ qs, q ∈ states) :
    a.profiles states qs = .ok (qs.map (Profile.ofItem a.system states a.alphabet.toList)) := by
  induction qs with
  | nil => rfl
  | cons q qs ih =>
    have hq := hqs q List.mem_cons_self
    obtain ⟨s, hs⟩ := exists_state (hmem q hq)
    have hsole := soleTargets_eq (hfun q hq) (state_eq_ok_iff.mp hs) a.alphabet.toList
    have htargets : ∀ r, some r ∈ a.alphabet.toList.map (a.system.step q) → r ∈ states :=
      fun r hr => by
        obtain ⟨l, -, hl⟩ := List.mem_map.mp hr
        exact hclosed hq hl
    have hindices := indicesAmong_eq htargets
    have hexit : a.system.isExit q = s.isExit := by
      rw [Bool.eq_iff_iff, system_isExit_iff, isExit_iff (state_eq_ok_iff.mp hs)]
    have hprofile : a.profile states q =
        .ok (Profile.ofItem a.system states a.alphabet.toList q) := by
      simp only [profile, hs, hsole, hindices, Except.map, List.map_map]
      rw [Profile.ofItem, hexit]
      rfl
    simp only [profiles, hprofile, ih fun q hq => hqs q (List.mem_cons_of_mem _ hq), Except.map,
      List.map_cons]

end Automaton

/-! ## Uniting the unmarked pairs -/

/-- Uniting some unmarked pairs relates what they relate, and nothing that is marked. -/
theorem foldl_union_spec {n : Nat} {t : PairMarks}
    (htrans : ∀ i j k, i < n → j < n → k < n → t.isMarked i j = false → t.isMarked j k = false →
      t.isMarked i k = false)
    (pairs : List (Nat × Nat)) (hpairs : ∀ i j, (i, j) ∈ pairs → i < n ∧ j < n) {s : SetForest}
    (hs : s.Ordered) (hsize : s.parent.size = n)
    (hsound : ∀ i j, i < n → j < n → s.root i = s.root j → t.isMarked i j = false) :
    let s' := pairs.foldl
      (fun s pair => if t.isMarked pair.1 pair.2 then s else s.union pair.1 pair.2) s
    s'.Ordered ∧ (∀ i j, i < n → j < n → s'.root i = s'.root j → t.isMarked i j = false) ∧
      (∀ i j, s.root i = s.root j → s'.root i = s'.root j) ∧
      ∀ i j, (i, j) ∈ pairs → t.isMarked i j = false → s'.root i = s'.root j := by
  induction pairs generalizing s with
  | nil => exact ⟨hs, hsound, fun _ _ h => h, fun _ _ h => absurd h List.not_mem_nil⟩
  | cons pair pairs ih =>
    obtain ⟨i, j⟩ := pair
    obtain ⟨hi, hj⟩ := hpairs i j List.mem_cons_self
    have hrest : ∀ i j, (i, j) ∈ pairs → i < n ∧ j < n := fun i j h =>
      hpairs i j (List.mem_cons_of_mem _ h)
    simp only [List.foldl_cons]
    by_cases hmarked : t.isMarked i j = true
    · rw [if_pos hmarked]
      obtain ⟨hordered, hsound', hkeep, hall⟩ := ih hrest hs hsize hsound
      refine ⟨hordered, hsound', hkeep, fun i' j' hmem hunmarked => ?_⟩
      rcases List.mem_cons.mp hmem with hpair | hmem
      · cases hpair
        rw [hmarked] at hunmarked
        cases hunmarked
      · exact hall i' j' hmem hunmarked
    · have hunmarked : t.isMarked i j = false := Bool.eq_false_iff.mpr hmarked
      rw [if_neg hmarked]
      obtain ⟨hunion, hsize', -⟩ :=
        SetForest.union_spec hs (hsize ▸ hi : i < s.parent.size) (hsize ▸ hj)
      have hiff := SetForest.root_union_eq_iff hs (hsize ▸ hi : i < s.parent.size) (hsize ▸ hj)
      obtain ⟨hordered, hsound', hkeep, hall⟩ := ih hrest hunion (hsize'.trans hsize)
        fun i' j' hi' hj' hroot => by
          rcases (hiff i' j').mp hroot with h | ⟨h, h'⟩ | ⟨h, h'⟩
          · exact hsound i' j' hi' hj' h
          · exact htrans i' i j' hi' hi hj' (hsound i' i hi' hi h)
              (htrans i j j' hi hj hj' hunmarked (hsound j j' hj hj' h'.symm))
          · rw [PairMarks.isMarked_comm] at hunmarked
            exact htrans i' j j' hi' hj hj' (hsound i' j hi' hj h)
              (htrans j i j' hj hi hj' hunmarked (hsound i j' hi hj' h'.symm))
      refine ⟨hordered, hsound', fun i' j' h => hkeep i' j' ((hiff i' j').mpr (Or.inl h)),
        fun i' j' hmem hunmarked' => ?_⟩
      rcases List.mem_cons.mp hmem with hpair | hmem
      · cases hpair
        exact hkeep _ _ ((hiff _ _).mpr (Or.inr (Or.inl ⟨rfl, rfl⟩)))
      · exact hall i' j' hmem hunmarked'

/-- **The sets of the forest are the classes of the numbers that are not told apart**, provided
that being told apart leaves an equivalence relation. -/
theorem unmarkedSets_spec {n : Nat} {t : PairMarks}
    (htrans : ∀ i j k, i < n → j < n → k < n → t.isMarked i j = false → t.isMarked j k = false →
      t.isMarked i k = false) :
    (unmarkedSets n t).Ordered ∧ ∀ i j, i < n → j < n →
      ((unmarkedSets n t).root i = (unmarkedSets n t).root j ↔ t.isMarked i j = false) := by
  obtain ⟨hdiscrete, hsize, hroot⟩ := SetForest.discrete_spec n
  obtain ⟨hordered, hsound, -, hall⟩ := foldl_union_spec htrans (PairMarks.pairs n)
    (fun i j h => by
      obtain ⟨hj, hi⟩ := PairMarks.mem_pairs.mp h
      exact ⟨hi, hj.trans hi⟩) hdiscrete hsize
    (fun i j _ _ h => by
      rw [hroot, hroot] at h
      rw [h, PairMarks.isMarked_self])
  refine ⟨hordered, fun i j hi hj => ⟨hsound i j hi hj, fun hunmarked => ?_⟩⟩
  rcases Nat.lt_trichotomy i j with hlt | rfl | hlt
  · rw [PairMarks.isMarked_comm] at hunmarked
    exact (hall j i (PairMarks.mem_pairs.mpr ⟨hlt, hj⟩) hunmarked).symm
  · rfl
  · exact hall i j (PairMarks.mem_pairs.mpr ⟨hlt, hi⟩) hunmarked

theorem mem_statesOfRoot {paired : List (StateId × Nat)} {k : Nat} {q : StateId} :
    q ∈ statesOfRoot paired k ↔ (q, k) ∈ paired := by
  rw [statesOfRoot, OrderedSet.mem_ofList, List.mem_filterMap]
  constructor
  · rintro ⟨⟨q', k'⟩, hmem, h⟩
    by_cases hk : k' = k
    · rw [if_pos hk] at h
      cases h
      exact hk ▸ hmem
    · rw [if_neg hk] at h
      cases h
  · exact fun hmem => ⟨(q, k), hmem, if_pos rfl⟩

/-- A state has one root, so the sets for different numbers have no state in common. -/
theorem statesOfRoot_disjoint {states : List StateId} (hstates : states.Nodup) {roots : List Nat}
    {i j : Nat} (hij : i ≠ j) {q : StateId} (hi : q ∈ statesOfRoot (states.zip roots) i) :
    q ∉ statesOfRoot (states.zip roots) j := by
  intro hj
  rw [mem_statesOfRoot] at hi hj
  obtain ⟨m, hm⟩ := List.mem_iff_getElem?.mp hi
  obtain ⟨n, hn⟩ := List.mem_iff_getElem?.mp hj
  obtain ⟨hmq, hmi⟩ := List.getElem?_zip_eq_some.mp hm
  obtain ⟨hnq, hnj⟩ := List.getElem?_zip_eq_some.mp hn
  have hmn : m = n :=
    (List.getElem?_inj (List.getElem?_eq_some_iff.mp hmq).1 hstates).mp (hmq.trans hnq.symm)
  subst hmn
  rw [hmi] at hnj
  exact hij (Option.some.inj hnj)

/-- The set for a number holds the states whose index has that number as its root. -/
theorem mem_setOf_root (states : List StateId) {forest : SetForest} (hordered : forest.Ordered)
    {k : Nat} {q : StateId} :
    q ∈ statesOfRoot (states.zip (forest.roots (List.range states.length))) k ↔
      ∃ i, states[i]? = some q ∧ forest.root i = k := by
  rw [mem_statesOfRoot, SetForest.roots_eq hordered, List.mem_iff_getElem?]
  refine exists_congr fun i => ?_
  rw [List.getElem?_zip_eq_some, List.getElem?_map, Option.map_eq_some_iff]
  refine and_congr_right fun hq => ?_
  simp [List.getElem?_range (List.getElem?_eq_some_iff.mp hq).1]

/-- The classes are those of these sets that have members. -/
theorem mem_unmarkedClasses {states : List StateId} {t : PairMarks} {c : OrderedSet StateId} :
    c ∈ unmarkedClasses states t ↔ (∃ q, q ∈ c) ∧ ∃ k < states.length,
      statesOfRoot (states.zip
        ((unmarkedSets states.length t).roots (List.range states.length))) k = c := by
  have hne : c.isEmpty = false ↔ ∃ q, q ∈ c := by
    rw [Bool.eq_false_iff, Ne, OrderedSet.isEmpty_iff]
    constructor
    · intro h
      obtain ⟨q, hq⟩ := List.exists_mem_of_ne_nil c.toList fun hnil =>
        h (OrderedSet.toList_injective hnil)
      exact ⟨q, hq⟩
    · rintro ⟨q, hq⟩ rfl
      exact OrderedSet.not_mem_empty q hq
  simp only [unmarkedClasses, List.mem_filter, List.mem_map, List.mem_range, Bool.not_eq_true', hne,
    and_comm]

/-! ## Partitions -/

namespace Automaton

variable {a : Automaton} {p q : StateId} {classes : List (OrderedSet StateId)}

/-- The classes of the reachable states of an automaton by their outcomes. -/
structure OutcomeClasses (a : Automaton) (classes : List (OrderedSet StateId)) : Prop where
  exists_mem : ∀ c ∈ classes, ∃ q, q ∈ c
  exists_class : ∀ q, a.Reachable q → ∃ c ∈ classes, q ∈ c
  mem_iff : ∀ c ∈ classes, ∀ p ∈ c, ∀ q,
    q ∈ c ↔ a.Reachable q ∧ a.system.outcome q = a.system.outcome p

/-- The only reachable state is the only class. -/
theorem outcomeClasses_singleton {reached : OrderedSet StateId} (hentry : a.entry = some p)
    (hreached : ∀ q, q ∈ reached ↔ a.Reachable q) (hsize : reached.size < 2) :
    a.OutcomeClasses [reached] := by
  have hp : p ∈ reached := (hreached p).mpr ⟨p, hentry, .refl⟩
  have honly : ∀ q ∈ reached, ∀ r ∈ reached, q = r := by
    intro q hq r hr
    obtain ⟨x, hx⟩ : ∃ x, reached.toList = [x] := List.length_eq_one_iff.mp (by
      have := List.length_pos_of_mem hp
      rw [OrderedSet.size] at hsize
      omega)
    rw [← OrderedSet.mem_toList, hx, List.mem_singleton] at hq hr
    rw [hq, hr]
  refine ⟨fun c hc => ?_, fun q hq => ⟨reached, List.mem_singleton_self _, (hreached q).mpr hq⟩,
    fun c hc r hr q => ?_⟩
  · rw [List.mem_singleton] at hc
    exact hc ▸ ⟨p, hp⟩
  · rw [List.mem_singleton] at hc
    subst hc
    rw [← hreached]
    exact ⟨fun hq => ⟨hq, by rw [honly q hq r hr]⟩, fun hq => hq.1⟩

theorem outcomeClasses_unmarkedClasses {states : List StateId} {t : PairMarks}
    (hstates : ∀ q, q ∈ states ↔ a.Reachable q)
    (ht : ∀ i j p q, states[i]? = some p → states[j]? = some q →
      (t.isMarked i j = false ↔ a.system.outcome p = a.system.outcome q)) :
    a.OutcomeClasses (unmarkedClasses states t) := by
  have hget : ∀ {i}, i < states.length → ∃ q, states[i]? = some q := fun {i} hi =>
    ⟨states[i], List.getElem?_eq_getElem hi⟩
  obtain ⟨hordered, hroot⟩ := unmarkedSets_spec (n := states.length) (t := t)
    fun i j k hi hj hk hij hjk => by
      obtain ⟨p, hp⟩ := hget hi
      obtain ⟨q, hq⟩ := hget hj
      obtain ⟨r, hr⟩ := hget hk
      exact (ht i k p r hp hr).mpr (((ht i j p q hp hq).mp hij).trans ((ht j k q r hq hr).mp hjk))
  have hbound : ∀ {i q}, states[i]? = some q → i < states.length := fun h =>
    (List.getElem?_eq_some_iff.mp h).1
  have hmem := fun k q => mem_setOf_root states hordered (k := k) (q := q)
  refine ⟨fun c hc => (mem_unmarkedClasses.mp hc).1, fun q hq => ?_, fun c hc p hp q => ?_⟩
  · obtain ⟨i, hi⟩ := List.mem_iff_getElem?.mp ((hstates q).mpr hq)
    have hclass := (hmem _ q).mpr ⟨i, hi, rfl⟩
    exact ⟨_, mem_unmarkedClasses.mpr ⟨⟨q, hclass⟩, _,
      (SetForest.root_le _ i).trans_lt (hbound hi), rfl⟩, hclass⟩
  · obtain ⟨-, k, -, rfl⟩ := mem_unmarkedClasses.mp hc
    obtain ⟨i, hi, hik⟩ := (hmem k p).mp hp
    rw [hmem, ← hstates]
    constructor
    · rintro ⟨j, hj, hjk⟩
      exact ⟨List.mem_of_getElem? hj, (ht j i q p hj hi).mp
        ((hroot j i (hbound hj) (hbound hi)).mp (hjk.trans hik.symm))⟩
    · rintro ⟨hq, houtcome⟩
      obtain ⟨j, hj⟩ := List.mem_iff_getElem?.mp hq
      exact ⟨j, hj, ((hroot j i (hbound hj) (hbound hi)).mpr
        ((ht j i q p hj hi).mpr houtcome)).trans hik⟩

/-- The profiles of the reachable states are those of the items of a system that steps from reachable
states to reachable states, on letters of the alphabet. -/
theorem profiles_reached (ha : a.WellFormed) (hfun : ∀ q, a.Reachable q → a.FunctionalAt q)
    {reached : OrderedSet StateId} (hmem : ∀ q, q ∈ reached ↔ a.Reachable q) :
    a.profiles reached.toList reached.toList =
        .ok (reached.toList.map (Profile.ofItem a.system reached.toList a.alphabet.toList)) ∧
      ∀ {q l r}, q ∈ reached.toList → a.system.step q l = some r →
        r ∈ reached.toList ∧ l ∈ a.alphabet.toList := by
  have hstep : ∀ {q l r}, q ∈ reached.toList → a.system.step q l = some r →
      r ∈ reached.toList ∧ l ∈ a.alphabet.toList := fun {q l r} hq hr => by
    rw [OrderedSet.mem_toList, hmem] at hq
    have harc := (system_step_iff (hfun q hq)).mp hr
    exact ⟨(hmem r).mpr (hq.tail harc), ha.letter_mem harc⟩
  exact ⟨profiles_eq (fun q hq => ((hmem q).mp hq).mem ha)
    (fun q hq => hfun q ((hmem q).mp hq)) (fun hq hr => (hstep hq hr).1) (fun q hq => hq), hstep⟩

/-- **The partition of a deterministic automaton exists and is the one by outcomes.** -/
theorem exists_partition (ha : a.WellFormed) (hentry : a.entry = some p)
    (hfun : ∀ q, a.Reachable q → a.FunctionalAt q) :
    ∃ P, a.partition = .ok P ∧ a.OutcomeClasses P.classes := by
  obtain ⟨reached, hreached, hmem⟩ := exists_soleReachable ha hentry hfun
  by_cases hsize : reached.size < 2
  · exact ⟨⟨[reached], []⟩, by simp only [partition, hreached, if_pos hsize],
      outcomeClasses_singleton hentry hmem hsize⟩
  · obtain ⟨hprofiles, hstep⟩ := profiles_reached ha hfun hmem
    refine ⟨_, by simp only [partition, hreached, if_neg hsize, hprofiles, Except.map]; rfl, ?_⟩
    exact outcomeClasses_unmarkedClasses hmem fun i j p q hp hq =>
      Profile.fillTable_spec (fun hq hr => (hstep hq hr).1) (fun hq hr => (hstep hq hr).2) hp hq

/-- A partition has the reachable states as its only class, or the classes that some table leaves. -/
theorem partition_cases {P : Partition} (h : a.partition = .ok P) :
    ∃ reached, a.soleReachable = .ok reached ∧
      (P.classes = [reached] ∨ ∃ t, P.classes = unmarkedClasses reached.toList t) := by
  rw [partition] at h
  cases hreached : a.soleReachable with
  | error e => simp only [hreached, reduceCtorEq] at h
  | ok reached =>
    simp only [hreached] at h
    refine ⟨reached, rfl, ?_⟩
    split at h
    · cases h
      exact Or.inl rfl
    · cases hprofiles : a.profiles reached.toList reached.toList with
      | error e =>
        rw [hprofiles] at h
        cases h
      | ok profiles =>
        rw [hprofiles] at h
        cases h
        exact Or.inr ⟨_, rfl⟩

/-- **No two classes of a partition have a state in common.** -/
theorem partition_disjoint {P : Partition} (h : a.partition = .ok P) :
    P.classes.Pairwise fun c d => ∀ q ∈ c, q ∉ d := by
  obtain ⟨reached, -, hsingle | ⟨t, hclasses⟩⟩ := partition_cases h
  · rw [hsingle]
    exact List.pairwise_singleton _ _
  · rw [hclasses]
    have hnodup : reached.toList.Nodup := reached.nodup
    exact (List.pairwise_map.mpr (List.nodup_range.imp fun hij q hq =>
      statesOfRoot_disjoint hnodup hij hq)).filter _

/-- **Only an automaton with an entry, whose reachable states have one target at most on each letter,
has a partition**, and it is the one by outcomes. -/
theorem outcomeClasses_of_partition (ha : a.WellFormed) {P : Partition}
    (h : a.partition = .ok P) : ∃ p, a.entry = some p ∧
      (∀ q, a.Reachable q → a.FunctionalAt q) ∧ a.OutcomeClasses P.classes := by
  obtain ⟨p, hentry, hfun⟩ : ∃ p, a.entry = some p ∧ ∀ q, a.Reachable q → a.FunctionalAt q := by
    cases hreached : a.soleReachable with
    | error e => simp only [partition, hreached, reduceCtorEq] at h
    | ok reached => exact functionalAt_of_soleReachable ha hreached
  obtain ⟨P', hP', hclasses⟩ := exists_partition ha hentry hfun
  rw [h] at hP'
  cases hP'
  exact ⟨p, hentry, hfun, hclasses⟩

end Automaton

end PatternAutomata
