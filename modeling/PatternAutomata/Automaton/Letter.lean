import PatternAutomata.OrderedSet

/-!
# Letters, state identifiers and arcs

An arc of an automaton carries a character or epsilon, and leads to a state.  All three kinds of
value are ordered, because alphabets, sets of states and sets of arcs are listed in their order:
characters by code point and epsilon after all of them; states by index and then by origin; arcs by
letter and then by target.

## Origins

A state is identified by its index in its automaton *and* by the origin of that automaton.  Indices
are handed out from zero by every automaton, so the origin is what tells a state of one automaton
from the state with the same index of another.  A copy of an automaton keeps its origin.
-/

namespace PatternAutomata

/-- What an arc carries. -/
inductive Letter where
  | char (c : Char)
  /-- No character at all. -/
  | epsilon
  deriving DecidableEq, Repr

namespace Letter

/-- The character of a letter, or `ε`. -/
def symbol : Letter → Char
  | .char c => c
  | .epsilon => 'ε'

/-- Characters by code point, epsilon after all of them. -/
protected def lt : Letter → Letter → Prop
  | .char a, .char b => a < b
  | .char _, .epsilon => True
  | .epsilon, _ => False

instance : LT Letter := ⟨Letter.lt⟩

instance : DecidableLT Letter := fun a b =>
  match a, b with
  | .char a, .char b => inferInstanceAs (Decidable (a < b))
  | .char _, .epsilon => isTrue trivial
  | .epsilon, _ => isFalse id

@[simp] theorem char_lt_char {a b : Char} : Letter.char a < Letter.char b ↔ a < b := Iff.rfl

@[simp] theorem char_lt_epsilon (a : Char) : Letter.char a < Letter.epsilon := trivial

@[simp] theorem not_epsilon_lt (a : Letter) : ¬ Letter.epsilon < a := id

instance : StrictTotalOrder Letter where
  irrefl
    | .char a => StrictTotalOrder.irrefl a
    | .epsilon => id
  trans
    | .char a, .char b, .char c => StrictTotalOrder.trans a b c
    | .char _, .char _, .epsilon => fun _ _ => trivial
    | .char _, .epsilon, _ => fun _ h => absurd h (not_epsilon_lt _)
    | .epsilon, _, _ => fun h => absurd h (not_epsilon_lt _)
  connected
    | .char a, .char b => by simpa using StrictTotalOrder.connected a b
    | .char _, .epsilon => Or.inl trivial
    | .epsilon, .char _ => Or.inr (Or.inr trivial)
    | .epsilon, .epsilon => Or.inr (Or.inl rfl)

end Letter

/-- A state of some automaton: its index there, and the origin of the automaton. -/
structure StateId where
  index : Nat
  origin : Nat
  deriving DecidableEq, Repr

namespace StateId

instance : LT StateId := ⟨fun a b => a.index < b.index ∨ (a.index = b.index ∧ a.origin < b.origin)⟩

theorem lt_iff {a b : StateId} :
    a < b ↔ a.index < b.index ∨ (a.index = b.index ∧ a.origin < b.origin) := Iff.rfl

instance : DecidableLT StateId := fun _ _ => decidable_of_iff _ lt_iff.symm

instance : StrictTotalOrder StateId where
  irrefl a := by simp [lt_iff]
  trans a b c := by
    simp only [lt_iff]
    omega
  connected := by
    rintro ⟨i, o⟩ ⟨i', o'⟩
    simp only [lt_iff, StateId.mk.injEq]
    omega

end StateId

/-- One way out of a state. -/
structure Arc where
  letter : Letter
  target : StateId
  deriving DecidableEq, Repr

namespace Arc

instance : LT Arc :=
  ⟨fun a b => a.letter < b.letter ∨ (a.letter = b.letter ∧ a.target < b.target)⟩

theorem lt_iff {a b : Arc} :
    a < b ↔ a.letter < b.letter ∨ (a.letter = b.letter ∧ a.target < b.target) := Iff.rfl

instance : DecidableLT Arc := fun _ _ => decidable_of_iff _ lt_iff.symm

instance : StrictTotalOrder Arc where
  irrefl a := by
    rintro (h | ⟨-, h⟩)
    · exact StrictTotalOrder.irrefl _ h
    · exact StrictTotalOrder.irrefl _ h
  trans a b c := by
    rintro (h | ⟨h, h'⟩) (k | ⟨k, k'⟩)
    · exact Or.inl (StrictTotalOrder.trans _ _ _ h k)
    · exact Or.inl (k ▸ h)
    · exact Or.inl (h ▸ k)
    · exact Or.inr ⟨h.trans k, StrictTotalOrder.trans _ _ _ h' k'⟩
  connected := by
    rintro ⟨l, q⟩ ⟨m, r⟩
    rcases StrictTotalOrder.connected l m with h | rfl | h
    · exact Or.inl (Or.inl h)
    · rcases StrictTotalOrder.connected q r with k | rfl | k
      · exact Or.inl (Or.inr ⟨rfl, k⟩)
      · exact Or.inr (Or.inl rfl)
      · exact Or.inr (Or.inr (Or.inr ⟨rfl, k⟩))
    · exact Or.inr (Or.inr (Or.inl h))

end Arc

end PatternAutomata
