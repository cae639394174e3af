/-!
# Exploring what can be reached

Epsilon closures, reachable states and the sets met by the subset construction are all found the
same way: start from some seeds, expand one discovered item at a time, and remember every item that
turns up for the first time.  `explore` is that search, over any items with decidable equality and
any successor function, which may fail.

The result lists the items in the order of their discovery, each once.  For the subset construction
this order *is* the numbering of the states.

## The budget

Each expansion costs one unit of a budget that the caller derives from the size of its input.  No
item is expanded twice, so a budget of at least the number of items that can be discovered is never
exhausted, and then the answer does not depend on it.
-/

namespace PatternAutomata

/-- Which of the items waiting to be expanded comes next. -/
inductive Discipline where
  /-- The one that has waited longest. -/
  | breadthFirst
  /-- The one discovered last. -/
  | depthFirst
  deriving DecidableEq, Repr

namespace Discipline

variable {α : Type}

/-- Adds freshly discovered items, in the order of their discovery, to the waiting ones. -/
def enqueue (d : Discipline) (waiting fresh : List α) : List α :=
  match d with
  | .breadthFirst => waiting ++ fresh
  | .depthFirst => fresh.reverse ++ waiting

@[simp] theorem mem_enqueue {d : Discipline} {waiting fresh : List α} {a : α} :
    a ∈ d.enqueue waiting fresh ↔ a ∈ waiting ∨ a ∈ fresh := by
  cases d <;> simp [enqueue, or_comm]

end Discipline

variable {ε α : Type} [DecidableEq α]

/-- The items of a list that are not among the known ones, each at its first place. -/
def unseen (known : List α) : List α → List α
  | [] => []
  | a :: l => if a ∈ known then unseen known l else a :: unseen (a :: known) l

@[simp] theorem mem_unseen {a : α} {known l : List α} :
    a ∈ unseen known l ↔ a ∈ l ∧ a ∉ known := by
  induction l generalizing known with
  | nil => simp [unseen]
  | cons b l ih =>
    by_cases hb : b ∈ known
    · rw [unseen, if_pos hb, ih, List.mem_cons]
      constructor
      · rintro ⟨hl, hknown⟩
        exact ⟨Or.inr hl, hknown⟩
      · rintro ⟨rfl | hl, hknown⟩
        · exact absurd hb hknown
        · exact ⟨hl, hknown⟩
    · rw [unseen, if_neg hb, List.mem_cons, List.mem_cons, ih, List.mem_cons, not_or]
      constructor
      · rintro (rfl | ⟨hl, -, hknown⟩)
        · exact ⟨Or.inl rfl, hb⟩
        · exact ⟨Or.inr hl, hknown⟩
      · rintro ⟨rfl | hl, hknown⟩
        · exact Or.inl rfl
        · by_cases hab : a = b
          · exact Or.inl hab
          · exact Or.inr ⟨hl, hab, hknown⟩

theorem nodup_unseen {known l : List α} : (unseen known l).Nodup := by
  induction l generalizing known with
  | nil => exact List.nodup_nil
  | cons b l ih =>
    by_cases hb : b ∈ known
    · rw [unseen, if_pos hb]
      exact ih
    · rw [unseen, if_neg hb]
      exact List.nodup_cons.mpr ⟨fun h => (mem_unseen.mp h).2 List.mem_cons_self, ih⟩

/-- Expands waiting items until none is left or the budget is spent.  `known` lists everything
discovered so far, `waiting` the part of it that is still to be expanded. -/
def expand (successors : α → Except ε (List α)) (d : Discipline) :
    Nat → List α → List α → Except ε (List α)
  | 0, known, _ => .ok known
  | _ + 1, known, [] => .ok known
  | budget + 1, known, a :: waiting =>
    match successors a with
    | .error e => .error e
    | .ok next =>
      let fresh := unseen known next
      expand successors d budget (known ++ fresh) (d.enqueue waiting fresh)

/-- Everything that can be discovered from the seeds, in the order of its discovery.  Fails with
the failure of the first expansion that fails. -/
def explore (successors : α → Except ε (List α)) (d : Discipline) (budget : Nat)
    (seeds : List α) : Except ε (List α) :=
  expand successors d budget (unseen [] seeds) (d.enqueue [] (unseen [] seeds))

end PatternAutomata
