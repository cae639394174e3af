import Mathlib.Data.List.Pairwise
import PatternAutomata.Proofs.Minimal.Minimization

/-!
# Quotients by congruences

Minimization takes the quotient by the coarsest classes there are, but any classes will do that
agree with the arcs and the exits.  They form a `Congruence`: they are disjoint, hold the entry and
whatever arcs lead to from their members, and the members of one class look alike.  Which member
comes to represent a class does then not matter, so the classes are the items of a system,
`classSystem`, and a state is mapped to the one class that holds it (`Congruence.fibres`).

* `Congruence.exists_isQuotient`: the quotient by a congruence exists, its states are the classes
  that can be reached from that of the entry, and it accepts the same words.
* `congruence_of_outcomeClasses`: classes by outcomes are a congruence.
* `quotient_keeps_verdicts`: so minimizing succeeds wherever there is a partition, and leaves one
  state for each class of it.

States outside the classes are never looked at.  They may have several targets on one letter.
-/

namespace PatternAutomata

namespace Automaton

variable {a m : Automaton} {classes : List (OrderedSet StateId)} {c d : OrderedSet StateId}
  {p q : StateId} {l : Letter} {origin : Nat}

/-! ## Congruences -/

/-- A letter leads from neither of two states anywhere, or from both of them into one class. -/
def AgreeOn (a : Automaton) (classes : List (OrderedSet StateId)) (l : Letter) (p q : StateId) :
    Prop :=
  ((∀ r, ¬ a.HasArc p l r) ∧ ∀ r, ¬ a.HasArc q l r) ∨
    ∃ c ∈ classes, ∃ r ∈ c, ∃ t ∈ c, a.HasArc p l r ∧ a.HasArc q l t

/-- Disjoint classes of states of an automaton that hold the entry, that no arc leaves, and whose
members look alike. -/
structure Congruence (a : Automaton) (classes : List (OrderedSet StateId)) : Prop where
  exists_mem : ∀ c ∈ classes, ∃ q, q ∈ c
  disjoint : classes.Pairwise fun c d => ∀ q ∈ c, q ∉ d
  mem : ∀ c ∈ classes, ∀ q ∈ c, q ∈ a
  exists_entry : ∃ p, a.entry = some p ∧ Covered classes p
  functionalAt : ∀ c ∈ classes, ∀ q ∈ c, a.FunctionalAt q
  covered_target : ∀ c ∈ classes, ∀ q ∈ c, ∀ l r, a.HasArc q l r → Covered classes r
  isExit_iff : ∀ c ∈ classes, ∀ p ∈ c, ∀ q ∈ c, (a.IsExit p ↔ a.IsExit q)
  agreeOn : ∀ c ∈ classes, ∀ p ∈ c, ∀ q ∈ c, ∀ l ∈ a.alphabet, a.AgreeOn classes l p q

/-- An arc leads from a member of one class to a member of another. -/
def ClassLinked (a : Automaton) (classes : List (OrderedSet StateId)) (c d : OrderedSet StateId) :
    Prop :=
  d ∈ classes ∧ ∃ l, ∃ p ∈ c, ∃ q ∈ d, a.HasArc p l q

/-- Arcs lead to a class from that of the entry. -/
def ClassReachable (a : Automaton) (classes : List (OrderedSet StateId)) (c : OrderedSet StateId) :
    Prop :=
  ∃ e ∈ classes, (∃ p ∈ e, a.entry = some p) ∧ Relation.ReflTransGen (a.ClassLinked classes) e c

theorem ClassReachable.mem (h : a.ClassReachable classes c) : c ∈ classes := by
  obtain ⟨e, he, -, hec⟩ := h
  rcases Relation.ReflTransGen.cases_tail hec with rfl | ⟨d, -, hc, -⟩
  · exact he
  · exact hc

/-- The states of an automaton are the items of a list of classes of states of another, in its order.
What holds of a state is what holds of a member of its class. -/
structure IsQuotient (m a : Automaton) (items : List (OrderedSet StateId)) : Prop where
  alphabet_eq : m.alphabet = a.alphabet
  size_eq : m.size = items.length
  nodup : items.Nodup
  entry_iff : ∀ i c, items[i]? = some c →
    (m.entry = some ⟨i, m.origin⟩ ↔ ∃ p ∈ c, a.entry = some p)
  isExit_iff : ∀ i c, items[i]? = some c → (m.IsExit ⟨i, m.origin⟩ ↔ ∃ p ∈ c, a.IsExit p)
  hasArc_iff : ∀ i c, items[i]? = some c → ∀ l r, (m.HasArc ⟨i, m.origin⟩ l r ↔
    ∃ j d, items[j]? = some d ∧ r = ⟨j, m.origin⟩ ∧ ∃ p ∈ c, ∃ q ∈ d, a.HasArc p l q)

/-! ## The system of the classes -/

/-- The class that holds a state.  Without one, nothing. -/
def classAt (classes : List (OrderedSet StateId)) (q : StateId) : OrderedSet StateId :=
  (classOf classes q).getD ∅

/-- Classes as a system: the first member of a class steps for it, into the class of its target. -/
def classSystem (a : Automaton) (classes : List (OrderedSet StateId)) :
    System (OrderedSet StateId) where
  step c l := c.toList.head?.bind fun q => (a.system.step q l).map (classAt classes)
  isExit c := c.toList.head?.any a.system.isExit

theorem exists_head? (hq : q ∈ c) : ∃ p ∈ c, c.toList.head? = some p := by
  have hne : c.toList ≠ [] := List.ne_nil_of_mem hq
  exact ⟨c.toList.head hne, List.head_mem hne, List.head?_eq_some_head hne⟩

theorem system_step_eq_none (hnone : ∀ r, ¬ a.HasArc q l r) (h : a.FunctionalAt q) :
    a.system.step q l = none :=
  Option.eq_none_iff_forall_ne_some.mpr fun r hr => hnone r ((system_step_iff h).mp hr)

namespace Congruence

theorem eq_of_mem (h : a.Congruence classes) (hc : c ∈ classes) (hd : d ∈ classes) (hqc : q ∈ c)
    (hqd : q ∈ d) : c = d := by
  by_contra hne
  have hsymm : Std.Symm fun c d : OrderedSet StateId => ∀ q ∈ c, q ∉ d :=
    ⟨fun c d hcd q hqd hqc => hcd q hqc hqd⟩
  exact h.disjoint.forall hc hd hne q hqc hqd

/-- No class is listed twice. -/
theorem nodup (h : a.Congruence classes) : classes.Nodup := by
  refine List.nodup_iff_pairwise_ne.mpr (h.disjoint.imp_of_mem fun {c d} hc _ hcd heq => ?_)
  obtain ⟨q, hq⟩ := h.exists_mem c hc
  exact hcd q hq (heq ▸ hq)

theorem classAt_eq (h : a.Congruence classes) (hc : c ∈ classes) (hq : q ∈ c) :
    classAt classes q = c := by
  obtain ⟨c', hclass, hc', hq'⟩ := classOf_eq_some ⟨c, hc, hq⟩
  rw [classAt, hclass]
  exact h.eq_of_mem hc' hc hq' hq

/-- **Every member steps for its class.** -/
theorem step_eq (h : a.Congruence classes) (ha : a.WellFormed) (hc : c ∈ classes) (hq : q ∈ c)
    (l : Letter) :
    (a.classSystem classes).step c l = (a.system.step q l).map (classAt classes) := by
  obtain ⟨p, hp, hhead⟩ := exists_head? hq
  have hpfun := h.functionalAt c hc p hp
  have hqfun := h.functionalAt c hc q hq
  have hagree : a.AgreeOn classes l p q := by
    by_cases hl : l ∈ a.alphabet
    · exact h.agreeOn c hc p hp q hq l hl
    · exact Or.inl ⟨fun r hr => hl (ha.letter_mem hr), fun r hr => hl (ha.letter_mem hr)⟩
  simp only [classSystem, hhead, Option.bind_some]
  rcases hagree with ⟨hpnone, hqnone⟩ | ⟨d, hd, r, hr, t, ht, hpr, hqt⟩
  · rw [system_step_eq_none hpnone hpfun, system_step_eq_none hqnone hqfun]
  · rw [(system_step_iff hpfun).mpr hpr, (system_step_iff hqfun).mpr hqt, Option.map_some,
      Option.map_some, h.classAt_eq hd hr, h.classAt_eq hd ht]

theorem isExit_eq (h : a.Congruence classes) (hc : c ∈ classes) (hq : q ∈ c) :
    (a.classSystem classes).isExit c = a.system.isExit q := by
  obtain ⟨p, hp, hhead⟩ := exists_head? hq
  simp only [classSystem, hhead, Option.any_some]
  rw [Bool.eq_iff_iff, system_isExit_iff, system_isExit_iff]
  exact h.isExit_iff c hc p hp q hq

/-- **The classes of a congruence are the fibres of the map to them.** -/
theorem fibres (h : a.Congruence classes) (ha : a.WellFormed) :
    Fibres a classes (a.classSystem classes) (classAt classes) where
  mem := fun ⟨c, hc, hq⟩ => h.mem c hc _ hq
  functionalAt := fun ⟨c, hc, hq⟩ => h.functionalAt c hc _ hq
  covered_target := fun ⟨c, hc, hq⟩ hqr => h.covered_target c hc _ hq _ _ hqr
  mem_iff {c p} hc hp q := by
    rw [h.classAt_eq hc hp]
    constructor
    · exact fun hq => ⟨⟨c, hc, hq⟩, h.classAt_eq hc hq⟩
    · rintro ⟨⟨d, hd, hq⟩, hdc⟩
      rw [h.classAt_eq hd hq] at hdc
      exact hdc ▸ hq
  step_eq {q} := by
    rintro ⟨c, hc, hq⟩ l
    rw [h.classAt_eq hc hq]
    exact h.step_eq ha hc hq l
  isExit_eq {q} := by
    rintro ⟨c, hc, hq⟩
    rw [h.classAt_eq hc hq]
    exact h.isExit_eq hc hq

/-- A class steps along the arcs of its members. -/
theorem step_iff (h : a.Congruence classes) (ha : a.WellFormed) (hc : c ∈ classes) :
    (a.classSystem classes).step c l = some d ↔
      d ∈ classes ∧ ∃ p ∈ c, ∃ q ∈ d, a.HasArc p l q := by
  constructor
  · intro hd
    obtain ⟨p, hp⟩ := h.exists_mem c hc
    rw [h.step_eq ha hc hp] at hd
    obtain ⟨q, hq, rfl⟩ := Option.map_eq_some_iff.mp hd
    have hpq := (system_step_iff (h.functionalAt c hc p hp)).mp hq
    obtain ⟨d, hd, hqd⟩ := h.covered_target c hc p hp l q hpq
    rw [h.classAt_eq hd hqd]
    exact ⟨hd, p, hp, q, hqd, hpq⟩
  · rintro ⟨hd, p, hp, q, hq, hpq⟩
    rw [h.step_eq ha hc hp, (system_step_iff (h.functionalAt c hc p hp)).mpr hpq, Option.map_some,
      h.classAt_eq hd hq]

theorem isExit_eq_true_iff (h : a.Congruence classes) (hc : c ∈ classes) :
    (a.classSystem classes).isExit c = true ↔ ∃ p ∈ c, a.IsExit p := by
  constructor
  · obtain ⟨p, hp⟩ := h.exists_mem c hc
    rw [h.isExit_eq hc hp, system_isExit_iff]
    exact fun hexit => ⟨p, hp, hexit⟩
  · rintro ⟨p, hp, hexit⟩
    rw [h.isExit_eq hc hp]
    exact system_isExit_iff.mpr hexit

/-- **The search finds the classes that can be reached.** -/
theorem mem_explored_iff (h : a.Congruence classes) (ha : a.WellFormed) (hentry : a.entry = some p)
    (hc : c ∈ classes) (hp : p ∈ c) {items : List (OrderedSet StateId)}
    (hitems : Explored (fun x => (Except.ok ((a.classSystem classes).successors a.alphabet x) :
      Except Fault (List (OrderedSet StateId)))) .depthFirst [c] items) :
    d ∈ items ↔ a.ClassReachable classes d := by
  rw [hitems.mem_iff, discoverable_iff_reflTransGen (R := a.ClassLinked classes)]
  · constructor
    · rintro ⟨e, he, hed⟩
      rw [List.mem_singleton] at he
      subst he
      exact ⟨e, hc, ⟨p, hp, hentry⟩, hed⟩
    · rintro ⟨e, he, ⟨p', hp', hentry'⟩, hed⟩
      rw [hentry] at hentry'
      cases hentry'
      rw [h.eq_of_mem he hc hp' hp] at hed
      exact ⟨c, List.mem_singleton_self c, hed⟩
  · intro e s hs hse
    rw [List.mem_singleton] at hs
    subst hs
    have he : e ∈ classes := ClassReachable.mem ⟨s, hc, ⟨p, hp, hentry⟩, hse⟩
    refine ⟨_, rfl, fun d => ?_⟩
    rw [System.successors, List.mem_filterMap]
    constructor
    · rintro ⟨l, -, hl⟩
      obtain ⟨hd, harc⟩ := (h.step_iff ha he).mp hl
      exact ⟨hd, l, harc⟩
    · rintro ⟨hd, l, p, hp, q, hq, hpq⟩
      exact ⟨l, ha.letter_mem hpq, (h.step_iff ha he).mpr ⟨hd, p, hp, q, hq, hpq⟩⟩

/-- An automaton that presents the classes found from that of the entry is a quotient. -/
theorem isQuotient (h : a.Congruence classes) (ha : a.WellFormed) (hentry : a.entry = some p)
    {items : List (OrderedSet StateId)} (hzero : items[0]? = some c) (hp : p ∈ c)
    (hitems : ∀ d ∈ items, d ∈ classes) (halphabet : m.alphabet = a.alphabet)
    (hm : (a.classSystem classes).Presents m items) : m.IsQuotient a items where
  alphabet_eq := halphabet
  size_eq := hm.size_eq
  nodup := hm.nodup
  entry_iff i d hd := by
    have hdc := hitems d (List.mem_of_getElem? hd)
    have hcc := hitems c (List.mem_of_getElem? hzero)
    rw [hm.entry_eq]
    constructor
    · intro hi
      have hi : 0 = i := (StateId.mk.inj (Option.some.inj hi)).1
      subst hi
      rw [hzero] at hd
      cases hd
      exact ⟨p, hp, hentry⟩
    · rintro ⟨q, hq, hentry'⟩
      rw [hentry] at hentry'
      cases hentry'
      rw [h.eq_of_mem hdc hcc hq hp] at hd
      rw [hm.index_unique hzero hd]
  isExit_iff i d hd := by
    rw [hm.isExit_iff hd, h.isExit_eq_true_iff (hitems d (List.mem_of_getElem? hd))]
  hasArc_iff i d hd l r := by
    have hdc := hitems d (List.mem_of_getElem? hd)
    rw [hm.hasArc_iff hd]
    constructor
    · rintro ⟨j, e, hstep, hj, hr⟩
      exact ⟨j, e, hj, hr, ((h.step_iff ha hdc).mp hstep).2⟩
    · rintro ⟨j, e, hj, hr, harc⟩
      exact ⟨j, e, (h.step_iff ha hdc).mpr ⟨hitems e (List.mem_of_getElem? hj), harc⟩, hj, hr⟩

/-- The class of a state has the outcome of the state. -/
theorem outcome_eq (h : a.Congruence classes) (ha : a.WellFormed) (hc : c ∈ classes) (hq : q ∈ c) :
    (a.classSystem classes).outcome c = a.system.outcome q := by
  have hf := h.fibres ha
  have hmap := System.outcome_map (P := Covered classes) (fun _ hq l => hf.step_eq hq l)
    (fun _ hq l r hr => hf.covered_target hq ((system_step_iff (hf.functionalAt hq)).mp hr))
    (fun _ hq => hf.isExit_eq hq) ⟨c, hc, hq⟩
  rwa [h.classAt_eq hc hq] at hmap

/-- **The quotient by a congruence exists, consists of the classes that can be reached, and accepts
the same words.** -/
theorem exists_isQuotient (h : a.Congruence classes) (ha : a.WellFormed) (origin : Nat) :
    ∃ m items, a.quotient origin classes = .ok m ∧
      (∀ w, ∃ x, m.accepts w = .ok x ∧ a.accepts w = .ok x) ∧
      m.IsQuotient a items ∧ ∀ c, c ∈ items ↔ a.ClassReachable classes c := by
  obtain ⟨p, hentry, c, hc, hp⟩ := h.exists_entry
  have hf := h.fibres ha
  obtain ⟨m, items, hm, -, halphabet, hexplored, hpresents⟩ :=
    exists_quotient ha hf hentry ⟨c, hc, hp⟩ origin
  rw [h.classAt_eq hc hp] at hexplored
  have hitems := fun d => h.mem_explored_iff ha hentry hc hp hexplored (d := d)
  have hzero : items[0]? = some c := hexplored.getElem?_zero
  refine ⟨m, items, hm, fun w => ?_, ?_, hitems⟩
  · refine ⟨_, hpresents.accepts_eq hzero w, ?_⟩
    rw [h.outcome_eq ha hc hp]
    exact accepts_eq_of_closed ha (fun q hq => hf.functionalAt hq)
      (fun q hq l r hqr => hf.covered_target hq hqr) hentry ⟨c, hc, hp⟩ w
  · exact h.isQuotient ha hentry hzero hp
      (fun d hd => ((hitems d).mp hd).mem) halphabet hpresents

/-- Where every class can be reached, the quotient has one state for each. -/
theorem size_eq (h : a.Congruence classes) {items : List (OrderedSet StateId)}
    (hm : m.IsQuotient a items) (hitems : ∀ c, c ∈ items ↔ c ∈ classes) :
    m.size = classes.length := by
  rw [hm.size_eq]
  exact ((List.perm_ext_iff_of_nodup hm.nodup h.nodup).mpr hitems).length_eq

end Congruence

/-! ## Partitions -/

/-- **Classes by outcomes are a congruence.** -/
theorem congruence_of_outcomeClasses (ha : a.WellFormed) (hentry : a.entry = some p)
    (hfun : ∀ q, a.Reachable q → a.FunctionalAt q) (hclasses : a.OutcomeClasses classes)
    (hdisjoint : classes.Pairwise fun c d => ∀ q ∈ c, q ∉ d) : a.Congruence classes := by
  have hreachable : ∀ c ∈ classes, ∀ q ∈ c, a.Reachable q := fun c hc q hq =>
    hclasses.covered_iff.mp ⟨c, hc, hq⟩
  have houtcome : ∀ c ∈ classes, ∀ p ∈ c, ∀ q ∈ c, a.system.outcome p = a.system.outcome q :=
    fun c hc p hp q hq => ((hclasses.mem_iff c hc q hq p).mp hp).2
  refine ⟨hclasses.exists_mem, hdisjoint, fun c hc q hq => (hreachable c hc q hq).mem ha,
    ⟨p, hentry, hclasses.exists_class p ⟨p, hentry, .refl⟩⟩,
    fun c hc q hq => hfun q (hreachable c hc q hq),
    fun c hc q hq l r hqr => hclasses.exists_class r ((hreachable c hc q hq).tail hqr),
    fun c hc p hp q hq => ?_, fun c hc p hp q hq l _ => ?_⟩
  · rw [← system_isExit_iff, ← system_isExit_iff, ← System.isExit_outcome, houtcome c hc p hp q hq,
      System.isExit_outcome]
  · have hpfun := hfun p (hreachable c hc p hp)
    have hqfun := hfun q (hreachable c hc q hq)
    -- the outcomes that one letter leads to are those of the outcome itself
    have hstep : (a.system.step p l).map a.system.outcome =
        (a.system.step q l).map a.system.outcome := by
      rw [← System.step_outcome, ← System.step_outcome, houtcome c hc p hp q hq]
    cases hr : a.system.step p l with
    | none =>
      rw [hr, Option.map_none, eq_comm, Option.map_eq_none_iff] at hstep
      refine Or.inl ⟨fun r hpr => ?_, fun r hqr => ?_⟩
      · rw [(system_step_iff hpfun).mpr hpr] at hr
        cases hr
      · rw [(system_step_iff hqfun).mpr hqr] at hstep
        cases hstep
    | some r =>
      rw [hr, Option.map_some, eq_comm] at hstep
      obtain ⟨t, ht, hrt⟩ := Option.map_eq_some_iff.mp hstep
      have hpr := (system_step_iff hpfun).mp hr
      have hqt := (system_step_iff hqfun).mp ht
      have htarget := (hreachable c hc q hq).tail hqt
      obtain ⟨d, hd, hrd⟩ := hclasses.exists_class r ((hreachable c hc p hp).tail hpr)
      exact Or.inr ⟨d, hd, r, hrd, t, (hclasses.mem_iff d hd r hrd t).mpr ⟨htarget, hrt⟩, hpr, hqt⟩

/-- The classes of the states that can be reached can be reached. -/
theorem Congruence.exists_classReachable (h : a.Congruence classes) (hq : a.Reachable q) :
    ∃ c, a.ClassReachable classes c ∧ q ∈ c := by
  obtain ⟨p, hentry, hpq⟩ := hq
  obtain ⟨p', hentry', e, he, hp⟩ := h.exists_entry
  rw [hentry] at hentry'
  cases hentry'
  induction hpq with
  | refl => exact ⟨e, ⟨e, he, ⟨p, hp, hentry⟩, .refl⟩, hp⟩
  | @tail q r _ hqr ih =>
    obtain ⟨l, hqr⟩ := hqr
    obtain ⟨c, hreach, hqc⟩ := ih
    obtain ⟨d, hd, hrd⟩ := h.covered_target c hreach.mem q hqc l r hqr
    obtain ⟨e', he', hentered, hec⟩ := hreach
    exact ⟨d, ⟨e', he', hentered, hec.tail ⟨hd, l, q, hqc, r, hrd, hqr⟩⟩, hrd⟩

/-- If every class has a member that can be reached, every class can be reached. -/
theorem Congruence.classReachable_iff (h : a.Congruence classes)
    (hreach : ∀ c ∈ classes, ∃ q ∈ c, a.Reachable q) :
    a.ClassReachable classes c ↔ c ∈ classes := by
  refine ⟨ClassReachable.mem, fun hc => ?_⟩
  obtain ⟨q, hqc, hq⟩ := hreach c hc
  obtain ⟨d, hd, hqd⟩ := h.exists_classReachable hq
  rwa [h.eq_of_mem hc hd.mem hqc hqd]

/-- **Quotients by congruences keep the verdicts.**  Any congruence will do, also around unreachable
states that are not deterministic; the states of the quotient are the classes that can be reached,
with their arcs.  A partition is a congruence, and minimizing leaves one state for each class. -/
theorem quotient_keeps_verdicts (ha : a.Built) (origin : Nat) :
    (∀ classes, a.Congruence classes → ∃ m items, a.quotient origin classes = .ok m ∧
      (∀ w, ∃ x, m.accepts w = .ok x ∧ a.accepts w = .ok x) ∧
      m.IsQuotient a items ∧ ∀ c, c ∈ items ↔ a.ClassReachable classes c) ∧
    ∀ P, a.partition = .ok P → a.Congruence P.classes ∧
      ∃ m, a.minimize origin = .ok m ∧ m.size = P.classes.length := by
  refine ⟨fun classes h => h.exists_isQuotient ha.wellFormed origin, fun P hP => ?_⟩
  obtain ⟨p, hentry, hfun, hclasses⟩ := outcomeClasses_of_partition ha.wellFormed hP
  have h := congruence_of_outcomeClasses ha.wellFormed hentry hfun hclasses (partition_disjoint hP)
  obtain ⟨m, items, hm, -, hquotient, hitems⟩ := h.exists_isQuotient ha.wellFormed origin
  refine ⟨h, m, by simp only [minimize, hP, hm], h.size_eq hquotient fun c => ?_⟩
  rw [hitems, h.classReachable_iff fun c hc => ?_]
  obtain ⟨q, hq⟩ := hclasses.exists_mem c hc
  exact ⟨q, hq, hclasses.covered_iff.mp ⟨c, hc, hq⟩⟩

/-- Two exits that lead to each other, one of them the entry, a state that leads to the entry, and a
state outside that leads to both of them on one letter. -/
def mutualExits : Automaton where
  origin := 0
  alphabet := .ofList [.char 'a']
  states := #[
    ⟨⟨0, 0⟩, true, true, .ofList [⟨.char 'a', ⟨1, 0⟩⟩]⟩,
    ⟨⟨1, 0⟩, false, true, .ofList [⟨.char 'a', ⟨0, 0⟩⟩]⟩,
    ⟨⟨2, 0⟩, false, false, .ofList [⟨.char 'a', ⟨0, 0⟩⟩]⟩,
    ⟨⟨3, 0⟩, false, false, .ofList [⟨.char 'a', ⟨0, 0⟩⟩, ⟨.char 'a', ⟨1, 0⟩⟩]⟩]
  entry := some ⟨0, 0⟩

theorem built_mutualExits : mutualExits.Built := by
  have h : (empty 0 (.ofList [.char 'a'])).addState.addState.addState.addState.Built :=
    .addState (.addState (.addState (.addState (.empty _ _))))
  have h₁ := Built.addArc (p := ⟨0, 0⟩) (l := .char 'a') (q := ⟨1, 0⟩) h rfl
  have h₂ := Built.addArc (p := ⟨1, 0⟩) (l := .char 'a') (q := ⟨0, 0⟩) h₁ rfl
  have h₃ := Built.addArc (p := ⟨2, 0⟩) (l := .char 'a') (q := ⟨0, 0⟩) h₂ rfl
  have h₄ := Built.addArc (p := ⟨3, 0⟩) (l := .char 'a') (q := ⟨0, 0⟩) h₃ rfl
  have h₅ := Built.addArc (p := ⟨3, 0⟩) (l := .char 'a') (q := ⟨1, 0⟩) h₄ rfl
  have h₆ := Built.setExit (q := ⟨0, 0⟩) h₅ rfl
  have h₇ := Built.setExit (q := ⟨1, 0⟩) h₆ rfl
  exact .setEntry (q := ⟨0, 0⟩) h₇ rfl

/-- The two exits of `mutualExits`. -/
def exitPair : OrderedSet StateId := .ofList [⟨0, 0⟩, ⟨1, 0⟩]

/-- All arcs lead to the two exits, so they and the state that leads to the entry are congruent. -/
theorem congruence_mutualExits : mutualExits.Congruence [exitPair, .singleton ⟨2, 0⟩] := by
  have harc : ∀ {p l q}, mutualExits.HasArc p l q ↔ (p, l, q) ∈ mutualExits.arcList :=
    built_mutualExits.wellFormed.mem_arcList.symm
  have hexit : ∀ {q}, mutualExits.IsExit q ↔ q ∈ mutualExits.exitList :=
    built_mutualExits.wellFormed.mem_exitList.symm
  have htarget : ∀ arc ∈ mutualExits.arcList, arc.2.2 ∈ exitPair.toList := by decide
  have hfun : ∀ c ∈ [exitPair, .singleton ⟨2, 0⟩], ∀ q ∈ c.toList, ∀ x ∈ mutualExits.arcList,
      ∀ y ∈ mutualExits.arcList, x.1 = q → y.1 = q → x.2.1 = y.2.1 → x.2.2 = y.2.2 := by decide
  have hsource : ∀ c ∈ [exitPair, .singleton ⟨2, 0⟩], ∀ q ∈ c.toList,
      ∀ l ∈ mutualExits.alphabet.toList, ∃ r ∈ exitPair.toList, (q, l, r) ∈ mutualExits.arcList := by
    decide
  refine ⟨?_, ?_, ?_, ⟨⟨0, 0⟩, rfl, exitPair, List.mem_cons_self, by decide⟩,
    fun c hc q hq l r r' hr hr' => ?_, fun c hc q hq l r hqr => ?_, fun c hc p hp q hq => ?_,
    fun c hc p hp q hq l hl => ?_⟩
  · exact List.forall_mem_cons.mpr
      ⟨⟨⟨0, 0⟩, by decide⟩, List.forall_mem_singleton.mpr ⟨⟨2, 0⟩, by decide⟩⟩
  · have hdisjoint : [exitPair, .singleton ⟨2, 0⟩].Pairwise fun c d => ∀ q ∈ c.toList, q ∉ d := by
      decide
    exact hdisjoint
  · have hmem : ∀ c ∈ [exitPair, .singleton ⟨2, 0⟩], ∀ q ∈ c.toList,
        q.origin = mutualExits.origin ∧ q.index < mutualExits.size := by decide
    exact hmem
  · exact hfun c hc q hq _ (harc.mp hr) _ (harc.mp hr') rfl rfl rfl
  · exact ⟨exitPair, List.mem_cons_self, htarget _ (harc.mp hqr)⟩
  · have hexits : ∀ c ∈ [exitPair, .singleton ⟨2, 0⟩], ∀ p ∈ c.toList, ∀ q ∈ c.toList,
        (p ∈ mutualExits.exitList ↔ q ∈ mutualExits.exitList) := by decide
    rw [hexit, hexit]
    exact hexits c hc p hp q hq
  · obtain ⟨r, hr, hpr⟩ := hsource c hc p hp l hl
    obtain ⟨t, ht, hqt⟩ := hsource c hc q hq l hl
    exact Or.inr ⟨exitPair, List.mem_cons_self, r, hr, t, ht, harc.mpr hpr, harc.mpr hqt⟩

/-- Both halves: one of the two classes can be reached, and it is the only class of the partition. -/
theorem quotient_keeps_verdicts_mutualExits :
    (∃ m items, mutualExits.quotient 1 [exitPair, .singleton ⟨2, 0⟩] = .ok m ∧
      (∀ w, ∃ x, m.accepts w = .ok x ∧ mutualExits.accepts w = .ok x) ∧
      m.IsQuotient mutualExits items) ∧
    ∃ m, mutualExits.minimize 1 = .ok m ∧ m.size = 1 := by
  obtain ⟨hcongruence, hpartition⟩ := quotient_keeps_verdicts built_mutualExits 1
  obtain ⟨m, items, hm, hverdicts, hquotient, -⟩ := hcongruence _ congruence_mutualExits
  obtain ⟨-, hminimize⟩ := hpartition ⟨[exitPair], [0]⟩ rfl
  exact ⟨⟨m, items, hm, hverdicts, hquotient⟩, hminimize⟩

end Automaton

end PatternAutomata
