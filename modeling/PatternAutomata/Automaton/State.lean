import PatternAutomata.Automaton.Fault

/-!
# States

A state knows its own identifier, whether it is the entry and whether it is an exit, and the arcs
that leave it.  `State.targets` is the view of the arcs that the algorithms use: the set of states
that one letter leads to.
-/

namespace PatternAutomata

/-- A state of an automaton. -/
structure State where
  id : StateId
  isEntry : Bool
  isExit : Bool
  arcs : OrderedSet Arc
  deriving DecidableEq

namespace State

/-- A state that is neither entry nor exit and that no arc leaves. -/
def isolated (id : StateId) : State := ⟨id, false, false, ∅⟩

/-- The states that a letter leads to. -/
def targets (s : State) (l : Letter) : OrderedSet StateId :=
  OrderedSet.ofList (s.arcs.toList.filterMap fun a => if a.letter = l then some a.target else none)

/-- The letters that lead anywhere. -/
def letters (s : State) : OrderedSet Letter := OrderedSet.ofList (s.arcs.toList.map Arc.letter)

/-- The state with one more arc. -/
def addArc (s : State) (l : Letter) (q : StateId) : State :=
  { s with arcs := s.arcs.insert ⟨l, q⟩ }

/-- The only state a letter leads to, if it leads anywhere.  Fails if it leads to several. -/
def soleTarget (s : State) (l : Letter) : Except Fault (Option StateId) :=
  match (s.targets l).toList with
  | [] => .ok none
  | [q] => .ok (some q)
  | qs => .error (.severalTargets s.id l qs.length)

/-- Whether the state has no epsilon arc and at most one target on each letter. -/
def isDeterministic (s : State) : Bool :=
  s.letters.toList.all fun l => l != .epsilon && (s.targets l).size ≤ 1

@[simp] theorem mem_targets {s : State} {l : Letter} {q : StateId} :
    q ∈ s.targets l ↔ ⟨l, q⟩ ∈ s.arcs := by
  rw [targets, OrderedSet.mem_ofList, List.mem_filterMap]
  constructor
  · rintro ⟨⟨l', r⟩, harc, htarget⟩
    by_cases hl : l' = l
    · subst hl
      rw [if_pos rfl, Option.some.injEq] at htarget
      exact htarget ▸ harc
    · rw [if_neg hl] at htarget
      cases htarget
  · intro harc
    exact ⟨⟨l, q⟩, harc, if_pos rfl⟩

@[simp] theorem mem_letters {s : State} {l : Letter} : l ∈ s.letters ↔ ∃ q, ⟨l, q⟩ ∈ s.arcs := by
  rw [letters, OrderedSet.mem_ofList, List.mem_map]
  constructor
  · rintro ⟨⟨l', q⟩, harc, rfl⟩
    exact ⟨q, harc⟩
  · rintro ⟨q, harc⟩
    exact ⟨⟨l, q⟩, harc, rfl⟩

@[simp] theorem mem_arcs_addArc {s : State} {l : Letter} {q : StateId} {a : Arc} :
    a ∈ (s.addArc l q).arcs ↔ a = ⟨l, q⟩ ∨ a ∈ s.arcs := OrderedSet.mem_insert

end State

end PatternAutomata
