import PatternAutomata.Proofs.Automaton.Paths

/-!
# Reachable states

A state is `Reachable` if arcs on any letters lead to it from the entry.  The searches for
reachable states differ in how they list the targets of a state, but find the same set
(`explore_reachable`).

* `exists_reachable`: the computed set of reachable states holds exactly those.
* `Leads.reachable`: a path from the entry ends at a reachable state.
-/

namespace PatternAutomata

namespace Automaton

variable {a : Automaton} {p q r : StateId} {w : List Char}

/-- An arc leads from one state to another, on some letter. -/
def Linked (a : Automaton) (p q : StateId) : Prop := ∃ l, a.HasArc p l q

/-- Arcs lead to a state from the entry. -/
def Reachable (a : Automaton) (q : StateId) : Prop :=
  ∃ p, a.entry = some p ∧ Relation.ReflTransGen a.Linked p q

theorem reachable_iff (hentry : a.entry = some p) :
    a.Reachable q ↔ Relation.ReflTransGen a.Linked p q := by
  constructor
  · rintro ⟨p', hp', h⟩
    rw [hentry] at hp'
    cases hp'
    exact h
  · exact fun h => ⟨p, hentry, h⟩

theorem Reachable.mem (ha : a.WellFormed) (h : a.Reachable q) : q ∈ a := by
  obtain ⟨p, hp, hpq⟩ := h
  rcases Relation.ReflTransGen.cases_tail hpq with rfl | ⟨r, -, l, hrq⟩
  · exact ha.entry_mem hp
  · exact ha.target_mem hrq

theorem Reachable.trans (h : a.Reachable q) (hqr : Relation.ReflTransGen a.Linked q r) :
    a.Reachable r := by
  obtain ⟨p, hp, hpq⟩ := h
  exact ⟨p, hp, Relation.ReflTransGen.trans hpq hqr⟩

theorem Reachable.tail {l : Letter} (h : a.Reachable q) (hqr : a.HasArc q l r) :
    a.Reachable r := by
  obtain ⟨p, hp, hpq⟩ := h
  exact ⟨p, hp, hpq.tail ⟨l, hqr⟩⟩

theorem Leads.linked (h : a.Leads p w q) : Relation.ReflTransGen a.Linked p q := by
  induction h with
  | refl _ => exact .refl
  | epsilon harc _ ih => exact .head ⟨_, harc⟩ ih
  | char harc _ ih => exact .head ⟨_, harc⟩ ih

theorem Leads.reachable (hentry : a.entry = some p) (h : a.Leads p w q) : a.Reachable q :=
  ⟨p, hentry, h.linked⟩

/-- **A search that lists the targets of reachable states finds the reachable states.** -/
theorem explore_reachable (ha : a.WellFormed) (hentry : a.entry = some p) (d : Discipline)
    {successors : StateId → Except Fault (List StateId)}
    (hsuccessors : ∀ q, a.Reachable q →
      ∃ next, successors q = .ok next ∧ ∀ r, r ∈ next ↔ a.Linked q r) :
    ∃ found, explore successors d (a.size + 1) [p] = .ok found ∧
      ∀ q, q ∈ found ↔ a.Reachable q := by
  have hiff : ∀ q, Discoverable successors [p] q ↔ a.Reachable q := fun q => by
    rw [reachable_iff hentry, discoverable_iff_reflTransGen (R := a.Linked)]
    · simp
    · intro q s hs hsq
      rw [List.mem_singleton] at hs
      exact hsuccessors q ((reachable_iff hentry).mpr (hs ▸ hsq))
  obtain ⟨found, hfound, hexplored⟩ := exists_explored (d := d)
    (fun q hq => ⟨mem_ownStates.mpr (((hiff q).mp hq).mem ha),
      (hsuccessors q ((hiff q).mp hq)).imp fun _ h => h.1⟩)
    (Nat.lt_succ_of_le (card_ownStates_le a))
  exact ⟨found, hfound, fun q => hexplored.mem_iff.trans (hiff q)⟩

theorem exists_successors (h : q ∈ a) :
    ∃ next, a.successors q = .ok next ∧ ∀ r, r ∈ next ↔ a.Linked q r := by
  obtain ⟨s, hs⟩ := exists_state h
  refine ⟨s.arcs.toList.map Arc.target, by rw [successors, hs]; rfl, fun r => ?_⟩
  rw [List.mem_map]
  constructor
  · rintro ⟨⟨l, q⟩, harc, rfl⟩
    exact ⟨l, (hasArc_iff (state_eq_ok_iff.mp hs)).mpr harc⟩
  · rintro ⟨l, hqr⟩
    exact ⟨⟨l, r⟩, (hasArc_iff (state_eq_ok_iff.mp hs)).mp hqr, rfl⟩

/-- **The computed set holds exactly the reachable states.** -/
theorem exists_reachable (ha : a.WellFormed) (hentry : a.entry = some p) :
    ∃ s, a.reachable = .ok s ∧ ∀ q, q ∈ s ↔ a.Reachable q := by
  obtain ⟨found, hfound, hmem⟩ := explore_reachable ha hentry .depthFirst fun q hq =>
    exists_successors (hq.mem ha)
  refine ⟨OrderedSet.ofList found, ?_, fun q => OrderedSet.mem_ofList.trans (hmem q)⟩
  rw [reachable, requireEntry_eq hentry]
  simp only [hfound]
  rfl

end Automaton

end PatternAutomata
