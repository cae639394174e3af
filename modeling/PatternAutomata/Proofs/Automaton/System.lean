import PatternAutomata.Automaton.Acceptance
import PatternAutomata.Proofs.Automaton.Extensionality

/-!
# Deterministic systems and their behaviours

Subset construction and minimization both number what they discover and draw one arc for each
letter.  What they discover are sets of states in one case and classes of states in the other.
`System` is what the two have in common: items of any kind, at most one successor on each letter,
and exits among the items.

The `outcome` of an item tells, for every word, whether the system can follow it from there, and if
so whether it ends at an exit.  Outcomes are behaviours, and behaviours are a system of their own
(`Behaviour.system`), in which every item of every system is found again with its outcome
(`System.outcome_outcome`).

* `System.Presents`: the states of an automaton are the items of a list, in order.
* `System.Presents.accepts_eq`: such an automaton accepts by the outcome of the first item.
* `System.Presents.eq`: it is determined by the list, its alphabet and its origin.
-/

namespace PatternAutomata

/-- Items with at most one successor on each letter, some of which are exits. -/
structure System (β : Type) where
  step : β → Letter → Option β
  isExit : β → Bool

/-- For every word, whether it can be followed, and whether it then ends at an exit. -/
def Behaviour : Type := List Letter → Option Bool

namespace System

variable {β γ : Type}

/-- Follows a word from an item. -/
def run (S : System β) (b : β) : List Letter → Option β
  | [] => some b
  | l :: w => (S.step b l).bind fun b' => S.run b' w

/-- What following words from an item leads to. -/
def outcome (S : System β) (b : β) : Behaviour := fun w => (S.run b w).map S.isExit

/-- The successors of an item on some letters, in their order. -/
def successors (S : System β) (letters : OrderedSet Letter) (b : β) : List β :=
  letters.toList.filterMap (S.step b)

variable {S : System β} {b b' : β} {l : Letter} {u v w : List Letter}

theorem run_nil (S : System β) (b : β) : S.run b [] = some b := rfl

theorem run_cons (S : System β) (b : β) (l : Letter) (w : List Letter) :
    S.run b (l :: w) = (S.step b l).bind fun b' => S.run b' w := rfl

theorem run_append (S : System β) (b : β) (u v : List Letter) :
    S.run b (u ++ v) = (S.run b u).bind fun b' => S.run b' v := by
  induction u generalizing b with
  | nil => rfl
  | cons l u ih =>
    rw [List.cons_append, run_cons, run_cons, Option.bind_assoc]
    exact Option.bind_congr fun b' _ => ih b'

@[simp] theorem outcome_nil (S : System β) (b : β) : S.outcome b [] = some (S.isExit b) := rfl

theorem outcome_cons_of_step (h : S.step b l = some b') (w : List Letter) :
    S.outcome b (l :: w) = S.outcome b' w := by
  rw [outcome, outcome, run_cons, h]
  rfl

theorem outcome_cons_of_stuck (h : S.step b l = none) (w : List Letter) :
    S.outcome b (l :: w) = none := by
  rw [outcome, run_cons, h]
  rfl

theorem outcome_eq_none_iff : S.outcome b w = none ↔ S.run b w = none := Option.map_eq_none_iff

/-- A map that respects steps and exits respects outcomes. -/
theorem outcome_map {T : System γ} {φ : β → γ} {P : β → Prop}
    (hstep : ∀ b, P b → ∀ l, T.step (φ b) l = (S.step b l).map φ)
    (hclosed : ∀ b, P b → ∀ l b', S.step b l = some b' → P b')
    (hexit : ∀ b, P b → T.isExit (φ b) = S.isExit b) (hb : P b) :
    T.outcome (φ b) = S.outcome b := by
  funext w
  induction w generalizing b with
  | nil => rw [outcome_nil, outcome_nil, hexit b hb]
  | cons l w ih =>
    have hφ := hstep b hb l
    cases h : S.step b l with
    | none =>
      rw [h] at hφ
      rw [outcome_cons_of_stuck h, outcome_cons_of_stuck hφ]
    | some b' =>
      rw [h] at hφ
      rw [outcome_cons_of_step h, outcome_cons_of_step hφ]
      exact ih (hclosed b hb l b' h)

/-- If all members of a relation look alike and step to members, they have the same outcome. -/
theorem outcome_eq_of_bisimulation {T : System γ} {c : γ} {R : β → γ → Prop}
    (hexit : ∀ b c, R b c → S.isExit b = T.isExit c)
    (hstep : ∀ b c, R b c → ∀ l, Option.Rel R (S.step b l) (T.step c l)) (h : R b c) :
    S.outcome b = T.outcome c := by
  funext w
  induction w generalizing b c with
  | nil => rw [outcome_nil, outcome_nil, hexit b c h]
  | cons l w ih =>
    have hl := hstep b c h l
    cases hb : S.step b l with
    | none =>
      rw [hb] at hl
      cases hc : T.step c l with
      | none => rw [outcome_cons_of_stuck hb, outcome_cons_of_stuck hc]
      | some c' =>
        rw [hc] at hl
        cases hl
    | some b' =>
      rw [hb] at hl
      cases hc : T.step c l with
      | none =>
        rw [hc] at hl
        cases hl
      | some c' =>
        rw [hc] at hl
        cases hl with
        | some hr =>
          rw [outcome_cons_of_step hb, outcome_cons_of_step hc]
          exact ih hr

end System

namespace Behaviour

/-- The behaviours as a system: a step drops the first letter of every word. -/
def system : System Behaviour where
  step f l := if f [l] = none then none else some fun w => f (l :: w)
  isExit f := f [] = some true

end Behaviour

namespace System

variable {β : Type} {S : System β} {b : β} {l : Letter}

theorem step_outcome (S : System β) (b : β) (l : Letter) :
    Behaviour.system.step (S.outcome b) l = (S.step b l).map S.outcome := by
  cases h : S.step b l with
  | none =>
    have hl : S.outcome b [l] = none := outcome_cons_of_stuck h []
    simp [Behaviour.system, hl]
  | some b' =>
    have hl : S.outcome b [l] = some (S.isExit b') := outcome_cons_of_step h []
    simp only [Behaviour.system, hl, Option.map_some]
    rw [if_neg (by simp)]
    exact congrArg some (funext fun w => outcome_cons_of_step h w)

theorem isExit_outcome (S : System β) (b : β) :
    Behaviour.system.isExit (S.outcome b) = S.isExit b := by
  cases h : S.isExit b <;> simp [Behaviour.system, h]

/-- Outcomes, seen as items of the system of behaviours, are their own outcomes. -/
theorem outcome_outcome (S : System β) (b : β) :
    Behaviour.system.outcome (S.outcome b) = S.outcome b :=
  outcome_map (fun b (_ : True) l => step_outcome S b l) (fun _ _ _ _ _ => trivial)
    (fun b _ => isExit_outcome S b) trivial

end System

namespace Automaton

variable {a b : Automaton} {p q r : StateId} {l : Letter}

/-- On each letter, one arc at most leaves a state. -/
def FunctionalAt (a : Automaton) (q : StateId) : Prop :=
  ∀ l r r', a.HasArc q l r → a.HasArc q l r' → r = r'

/-- The states of an automaton as a system.  Where several arcs leave on one letter, there is no
step. -/
def system (a : Automaton) : System StateId where
  step q l :=
    match a.state? q with
    | none => none
    | some s =>
      match s.soleTarget l with
      | .ok o => o
      | .error _ => none
  isExit q :=
    match a.state? q with
    | none => false
    | some s => s.isExit

/-- Where an answer is given, it is the only state that a letter leads to, or that there is none. -/
theorem soleTarget_eq_ok_iff {s : State} {o : Option StateId} :
    s.soleTarget l = .ok o ↔ ∀ r, ⟨l, r⟩ ∈ s.arcs ↔ o = some r := by
  constructor
  · intro h r
    rw [← State.mem_targets, ← OrderedSet.mem_toList]
    rw [State.soleTarget] at h
    rcases hlist : (s.targets l).toList with _ | ⟨q, _ | ⟨q', qs⟩⟩
    · rw [hlist] at h
      cases h
      exact iff_of_false List.not_mem_nil (Option.some_ne_none r).symm
    · rw [hlist] at h
      cases h
      rw [List.mem_singleton, Option.some.injEq, eq_comm]
    · rw [hlist] at h
      cases h
  · intro h
    cases o with
    | none =>
      have hempty : s.targets l = ∅ := OrderedSet.ext_mem fun r => by simp [h]
      rw [State.soleTarget, hempty]
      rfl
    | some q =>
      have hsingle : s.targets l = OrderedSet.singleton q :=
        OrderedSet.ext_mem fun r => by simp [h, eq_comm]
      rw [State.soleTarget, hsingle]
      rfl

theorem exists_target (h : a.FunctionalAt q) (l : Letter) :
    ∃ o : Option StateId, ∀ r, a.HasArc q l r ↔ o = some r := by
  by_cases hr : ∃ r, a.HasArc q l r
  · obtain ⟨r, hr⟩ := hr
    refine ⟨some r, fun r' => ⟨fun hr' => congrArg some (h l r r' hr hr'), ?_⟩⟩
    rintro h
    cases h
    exact hr
  · refine ⟨none, fun r => ⟨fun h => absurd ⟨r, h⟩ hr, fun h => by cases h⟩⟩

theorem system_step_iff (h : a.FunctionalAt q) : a.system.step q l = some r ↔ a.HasArc q l r := by
  obtain ⟨o, ho⟩ := exists_target h l
  cases hs : a.state? q with
  | none =>
    have hnot : ¬ a.HasArc q l r := by
      rintro ⟨s, hs', -⟩
      rw [hs] at hs'
      cases hs'
    simp [system, hs, hnot]
  | some s =>
    have hsole : s.soleTarget l = .ok o :=
      soleTarget_eq_ok_iff.mpr fun r => (hasArc_iff hs).symm.trans (ho r)
    simp only [system, hs, hsole, ho]

theorem soleTarget_eq_step {s : State} (h : a.FunctionalAt q) (hs : a.state? q = some s) :
    s.soleTarget l = .ok (a.system.step q l) := by
  refine soleTarget_eq_ok_iff.mpr fun r => ?_
  rw [← hasArc_iff hs, system_step_iff h]

theorem system_isExit_iff : a.system.isExit q = true ↔ a.IsExit q := by
  cases hs : a.state? q with
  | none => simp [system, IsExit, hs]
  | some s => simp [system, IsExit, hs]

/-- A walk along a word is decided by the outcome of its start, provided that arcs do not lead from
it to a state that has several on one letter. -/
theorem walkFrom_spec (ha : a.WellFormed) {P : StateId → Prop} (hfun : ∀ q, P q → a.FunctionalAt q)
    (hclosed : ∀ q, P q → ∀ l r, a.HasArc q l r → P r) (hP : P q) (hq : q ∈ a)
    (w : List Char) : ∃ walk, a.walkFrom q w = .ok walk ∧
      a.endsAtExit walk = .ok ((a.system.outcome q (w.map .char)).getD false) := by
  induction w generalizing q with
  | nil =>
    obtain ⟨s, hs⟩ := mem_iff_state?.mp hq
    refine ⟨.finished q, rfl, ?_⟩
    rw [endsAtExit, state_eq_ok_iff.mpr hs]
    simp [system, hs, Except.map]
  | cons c w ih =>
    obtain ⟨s, hs⟩ := mem_iff_state?.mp hq
    have hsole := soleTarget_eq_step (l := .char c) (hfun q hP) hs
    cases hstep : a.system.step q (.char c) with
    | none =>
      refine ⟨.blocked q c, ?_, ?_⟩
      · simp only [walkFrom, state_eq_ok_iff.mpr hs, hsole, hstep]
      · rw [List.map_cons, System.outcome_cons_of_stuck hstep]
        rfl
    | some r =>
      have harc := (system_step_iff (hfun q hP)).mp hstep
      obtain ⟨walk, hwalk, hend⟩ := ih (hclosed q hP _ r harc) (ha.target_mem harc)
      refine ⟨walk, ?_, ?_⟩
      · simp only [walkFrom, state_eq_ok_iff.mpr hs, hsole, hstep]
        exact hwalk
      · rw [List.map_cons, System.outcome_cons_of_step hstep]
        exact hend

theorem accepts_eq_of_closed (ha : a.WellFormed) {P : StateId → Prop}
    (hfun : ∀ q, P q → a.FunctionalAt q) (hclosed : ∀ q, P q → ∀ l r, a.HasArc q l r → P r)
    (hentry : a.entry = some q) (hP : P q) (w : List Char) :
    a.accepts w = .ok ((a.system.outcome q (w.map .char)).getD false) := by
  obtain ⟨x, hwalk, hend⟩ := walkFrom_spec ha hfun hclosed hP (ha.entry_mem hentry) w
  simp only [accepts, walk, requireEntry_eq hentry, hwalk]
  exact hend

theorem accepts_eq (ha : a.WellFormed) (hfun : ∀ q, a.FunctionalAt q) (hentry : a.entry = some q)
    (w : List Char) : a.accepts w = .ok ((a.system.outcome q (w.map .char)).getD false) :=
  accepts_eq_of_closed ha (fun q (_ : True) => hfun q) (fun _ _ _ _ _ => trivial) hentry trivial w

end Automaton

namespace System

variable {β : Type} {S : System β} {a b : Automaton} {items : List β} {x y : β} {i : Nat}
  {l : Letter} {q : StateId}

/-- Without repetitions, an item is at its index. -/
theorem eq_idxOf_of_getElem? [DecidableEq β] (h : items.Nodup) (hx : items[i]? = some x) :
    i = items.idxOf x := by
  obtain ⟨hi, rfl⟩ := List.getElem?_eq_some_iff.mp hx
  exact (h.idxOf_getElem i hi).symm

/-- The states of an automaton are the items of a list, in its order, from the first one on.  The
list holds no item twice and is closed under steps. -/
structure Presents (S : System β) (a : Automaton) (items : List β) : Prop where
  wellFormed : a.WellFormed
  entry_eq : a.entry = some ⟨0, a.origin⟩
  size_eq : a.size = items.length
  nodup : items.Nodup
  closed : ∀ {x l y}, x ∈ items → S.step x l = some y → y ∈ items
  isExit_iff : ∀ {i x}, items[i]? = some x → (a.IsExit ⟨i, a.origin⟩ ↔ S.isExit x = true)
  hasArc_iff : ∀ {i x l q}, items[i]? = some x → (a.HasArc ⟨i, a.origin⟩ l q ↔
    ∃ j y, S.step x l = some y ∧ items[j]? = some y ∧ q = ⟨j, a.origin⟩)

namespace Presents

theorem origin_eq_of_mem (h : S.Presents a items) (hq : q ∈ a) :
    ∃ i x, q = ⟨i, a.origin⟩ ∧ items[i]? = some x := by
  have hlt : q.index < items.length := h.size_eq ▸ hq.2
  exact ⟨q.index, items[q.index], by rw [← hq.1], List.getElem?_eq_getElem hlt⟩

theorem mem_of_getElem? (h : S.Presents a items) (hx : items[i]? = some x) :
    ⟨i, a.origin⟩ ∈ a :=
  ⟨rfl, h.size_eq ▸ (List.getElem?_eq_some_iff.mp hx).1⟩

/-- An item is at one place of the list. -/
theorem index_unique (h : S.Presents a items) {j : Nat} (hi : items[i]? = some x)
    (hj : items[j]? = some x) : i = j :=
  (List.getElem?_inj (List.getElem?_eq_some_iff.mp hi).1 h.nodup).mp (hi.trans hj.symm)

theorem functionalAt (h : S.Presents a items) (q : StateId) : a.FunctionalAt q := by
  intro l r r' hr hr'
  obtain ⟨i, x, rfl, hx⟩ := h.origin_eq_of_mem hr.source_mem
  obtain ⟨j, y, hy, hj, rfl⟩ := (h.hasArc_iff hx).mp hr
  obtain ⟨j', y', hy', hj', rfl⟩ := (h.hasArc_iff hx).mp hr'
  rw [hy] at hy'
  cases hy'
  rw [h.index_unique hj hj']

/-- **A state has the outcome of the item it stands for.** -/
theorem outcome_eq (h : S.Presents a items) (hx : items[i]? = some x) :
    a.system.outcome ⟨i, a.origin⟩ = S.outcome x := by
  refine outcome_eq_of_bisimulation
    (R := fun q x => ∃ i, q = ⟨i, a.origin⟩ ∧ items[i]? = some x) ?_ ?_ ⟨i, rfl, hx⟩
  · rintro q x ⟨i, rfl, hx⟩
    rw [Bool.eq_iff_iff, Automaton.system_isExit_iff, h.isExit_iff hx]
  · rintro q x ⟨i, rfl, hx⟩ l
    cases hy : S.step x l with
    | none =>
      have hstep : a.system.step ⟨i, a.origin⟩ l = none := by
        refine Option.eq_none_iff_forall_ne_some.mpr fun r hr => ?_
        obtain ⟨j, y, hy', -⟩ := (h.hasArc_iff hx).mp
          ((Automaton.system_step_iff (h.functionalAt _)).mp hr)
        rw [hy] at hy'
        cases hy'
      rw [hstep]
      exact .none
    | some y =>
      obtain ⟨j, hj⟩ := List.mem_iff_getElem?.mp (h.closed (List.mem_of_getElem? hx) hy)
      have hstep : a.system.step ⟨i, a.origin⟩ l = some ⟨j, a.origin⟩ :=
        (Automaton.system_step_iff (h.functionalAt _)).mpr
          ((h.hasArc_iff hx).mpr ⟨j, y, hy, hj, rfl⟩)
      rw [hstep]
      exact .some ⟨j, rfl, hj⟩

/-- **The automaton accepts by the outcome of the first item.** -/
theorem accepts_eq (h : S.Presents a items) (hx : items[0]? = some x) (w : List Char) :
    a.accepts w = .ok ((S.outcome x (w.map .char)).getD false) := by
  rw [Automaton.accepts_eq h.wellFormed h.functionalAt h.entry_eq, h.outcome_eq hx]

/-- **The list of items, the alphabet and the origin determine the automaton.** -/
theorem eq (h : S.Presents a items) (h' : S.Presents b items) (horigin : a.origin = b.origin)
    (halphabet : a.alphabet = b.alphabet) : a = b := by
  have hsize : a.size = b.size := h.size_eq.trans h'.size_eq.symm
  have hmem : ∀ {q}, q ∈ a ↔ q ∈ b := by
    intro q
    rw [Automaton.mem_def, Automaton.mem_def, horigin, hsize]
  refine h.wellFormed.ext h'.wellFormed horigin halphabet hsize
    (by rw [h.entry_eq, h'.entry_eq, horigin]) (fun q => ?_) fun p l q => ?_
  · by_cases hq : q ∈ a
    · obtain ⟨i, x, rfl, hx⟩ := h.origin_eq_of_mem hq
      rw [h.isExit_iff hx, horigin, h'.isExit_iff hx]
    · exact ⟨fun h => absurd h.mem hq, fun h => absurd (hmem.mpr h.mem) hq⟩
  · by_cases hp : p ∈ a
    · obtain ⟨i, x, rfl, hx⟩ := h.origin_eq_of_mem hp
      rw [h.hasArc_iff hx, horigin, h'.hasArc_iff hx]
    · exact ⟨fun h => absurd h.source_mem hp, fun h => absurd (hmem.mpr h.source_mem) hp⟩

end Presents

end System

end PatternAutomata
