import PatternAutomata.Proofs.Automaton.Verdicts
import PatternAutomata.Proofs.Thompson

/-!
# Wiring does not disturb its surroundings

A tree is wired between two states of an automaton that may have any other states and arcs, also
arcs that leave the two.  Unions share their two ends, and a concatenation and a star hand the
states they have added on to their parts.  None of this does harm, because wiring has a frame.

* It adds one state for each concatenation and two for each star, behind those that are there
  (`Wired.size_eq`).
* A new arc leaves the start or a new state, and leads to the stop or to a new state
  (`Wired.hasArc_cases`).
* All other states are the same as before (`Wired.state?_of_ne`), and the start has lost nothing
  (`Extends.exists_state?`).

The frame of a part lies in the frame of the whole (`IsOrNew.of_part`): where a part starts is the
start of the whole or a state that is new to it, and likewise where it stops.
-/

namespace PatternAutomata

namespace SyntaxTree

/-- The operator that a node is made of. -/
def operator? : SyntaxTree → Option Operator
  | .empty | .leaf _ => none
  | .node o _ => some o

/-- How often an operator occurs in a tree. -/
def occurrences (o : Operator) (t : SyntaxTree) : Nat :=
  t.nodes.countP fun u => u.operator? == some o

variable {t left right body : SyntaxTree} {o o' : Operator}

@[simp] theorem occurrences_leaf (o : Operator) (c : Char) : (leaf c).occurrences o = 0 := rfl

@[simp] theorem occurrences_pair : (node o' [left, right]).occurrences o =
    (if o' = o then 1 else 0) + left.occurrences o + right.occurrences o := by
  simp only [occurrences, nodes, nodesOfAll, List.countP_cons, List.countP_append, List.append_nil,
    operator?, Option.some_beq_some, beq_iff_eq]
  omega

@[simp] theorem occurrences_single :
    (node o' [body]).occurrences o = (if o' = o then 1 else 0) + body.occurrences o := by
  simp only [occurrences, nodes, nodesOfAll, List.countP_cons, List.append_nil, operator?,
    Option.some_beq_some, beq_iff_eq]
  omega

end SyntaxTree

namespace Automaton

variable {a b c : Automaton} {start stop p q : StateId} {t : SyntaxTree} {l : Letter} {s : State}

/-! ## New states -/

theorem starFirst_not_mem (a : Automaton) : a.starFirst ∉ a := nextId_not_mem a

theorem starLast_not_mem (a : Automaton) : a.starLast ∉ a := fun h =>
  nextId_not_mem a.addState (mem_addState_of_mem h)

theorem StarLinked.size_eq (h : StarLinked a start stop b) : b.size = a.size + 2 := by
  obtain ⟨a₁, a₂, a₃, h₁, h₂, h₃, h₄⟩ := h
  rw [(sameStates_addArc h₄).size_eq, (sameStates_addArc h₃).size_eq,
    (sameStates_addArc h₂).size_eq, (sameStates_addArc h₁).size_eq, size_addState, size_addState]

/-- **A concatenation adds a state, and a star adds two.** -/
theorem Wired.size_eq (h : Wired t a start stop b) :
    b.size = a.size + t.occurrences .concatenation + 2 * t.occurrences .star := by
  induction h with
  | leaf hb => simpa using (sameStates_addArc hb).size_eq
  | union _ _ ihl ihr =>
    rw [ihr, ihl]
    simp
    omega
  | concatenation _ _ ihl ihr =>
    rw [ihr, ihl, size_addState]
    simp
    omega
  | star hb _ ih =>
    rw [ih, hb.size_eq]
    simp
    omega

/-- The new states stand behind the old ones. -/
theorem Extends.mem_iff (h : Extends a b) :
    q ∈ b ↔ q ∈ a ∨ q.origin = a.origin ∧ a.size ≤ q.index ∧ q.index < b.size := by
  constructor
  · intro hq
    have horigin := hq.1.trans h.origin_eq
    by_cases hindex : q.index < a.size
    · exact Or.inl ⟨horigin, hindex⟩
    · exact Or.inr ⟨horigin, Nat.le_of_not_lt hindex, hq.2⟩
  · rintro (hq | ⟨horigin, -, hindex⟩)
    · exact h.mem hq
    · exact ⟨horigin.trans h.origin_eq.symm, hindex⟩

/-- **What was there keeps its flags and its arcs.** -/
theorem Extends.exists_state? (h : Extends a b) (ha : a.WellFormed) (hs : a.state? q = some s) :
    ∃ s', b.state? q = some s' ∧ s'.id = s.id ∧ s'.isEntry = s.isEntry ∧ s'.isExit = s.isExit ∧
      ∀ arc ∈ s.arcs, arc ∈ s'.arcs := by
  obtain ⟨s', hs'⟩ := mem_iff_state?.mp (h.mem (mem_of_state? hs))
  refine ⟨s', hs', ?_, ?_, ?_, fun arc harc => ?_⟩
  · rw [(h.wellFormed ha).id_eq hs', ha.id_eq hs]
  · rw [Bool.eq_iff_iff, (h.wellFormed ha).isEntry_iff hs', ha.isEntry_iff hs, h.entry_eq]
  · rw [Bool.eq_iff_iff, ← Automaton.isExit_iff hs',
      ← Automaton.isExit_iff hs, h.isExit_iff]
  · exact (hasArc_iff hs').mp (h.hasArc ((hasArc_iff hs).mpr harc))

/-- New states carry no flags. -/
theorem Extends.isEntry_isExit_of_not_mem (h : Extends a b) (ha : a.WellFormed)
    (hs : b.state? q = some s) (hq : q ∉ a) : s.isEntry = false ∧ s.isExit = false := by
  refine ⟨Bool.eq_false_iff.mpr fun hentry => ?_, Bool.eq_false_iff.mpr fun hexit => ?_⟩
  · have hq' := ((h.wellFormed ha).isEntry_iff hs).mp hentry
    exact hq (ha.entry_mem (h.entry_eq ▸ hq'))
  · exact hq (h.isExit_iff.mp ((Automaton.isExit_iff hs).mpr hexit)).mem

/-! ## Old states -/

theorem state?_addArc_of_ne (h : a.addArc start l q = .ok b) (hne : p ≠ start) :
    b.state? p = a.state? p := by
  obtain ⟨-, -, hstart, rfl⟩ := addArc_eq_ok_iff.mp h
  exact state?_modifyState_of_ne hstart hne

theorem StarLinked.state?_of_ne (h : StarLinked a start stop b) (hp : p ∈ a) (hne : p ≠ start) :
    b.state? p = a.state? p := by
  obtain ⟨a₁, a₂, a₃, h₁, h₂, h₃, h₄⟩ := h
  have hp' := mem_addState_of_mem hp
  have hlast : p ≠ a.starLast := fun h => starLast_not_mem a (h ▸ hp)
  rw [state?_addArc_of_ne h₄ hlast, state?_addArc_of_ne h₃ hlast, state?_addArc_of_ne h₂ hne,
    state?_addArc_of_ne h₁ hne, state?_addState_of_mem hp', state?_addState_of_mem hp]

/-- **Wiring changes no state but the one it starts from.** -/
theorem Wired.state?_of_ne (h : Wired t a start stop b) (hp : p ∈ a) (hne : p ≠ start) :
    b.state? p = a.state? p := by
  induction h with
  | leaf hb => exact state?_addArc_of_ne hb hne
  | union hl _ ihl ihr => rw [ihr (hl.extension.mem hp) hne, ihl hp hne]
  | @concatenation a b c start stop left right hl _ ihl ihr =>
    -- the right operand starts from a state that was not there
    have hp' := mem_addState_of_mem hp
    have hmiddle : p ≠ a.nextId := fun h => nextId_not_mem a (h ▸ hp)
    rw [ihr (hl.extension.mem hp') hmiddle, ihl hp' hne, state?_addState_of_mem hp]
  | @star a b c start stop body hb _ ih =>
    have hfirst : p ≠ a.starFirst := fun h => starFirst_not_mem a (h ▸ hp)
    rw [ih (hb.mem_iff.mpr (Or.inl hp)) hfirst, hb.state?_of_ne hp hne]

/-! ## New arcs -/

/-- A state is a given one, or it does not belong to the automaton. -/
def IsOrNew (a : Automaton) (edge p : StateId) : Prop := p = edge ∨ p ∉ a

/-- The frame of a part lies in the frame of the whole. -/
theorem IsOrNew.of_part {edge edge' : StateId} (h : b.IsOrNew edge' p)
    (hedge : a.IsOrNew edge edge') (hmem : ∀ {q}, q ∈ a → q ∈ b) : a.IsOrNew edge p := by
  rcases h with rfl | hp
  · exact hedge
  · exact Or.inr fun ha => hp (hmem ha)

/-- A new arc of a star leaves the start or the last new state, and leads to the stop or the first
new one; a new state may have an arc to itself. -/
theorem StarLinked.hasArc_cases (h : StarLinked a start stop b) (hpq : b.HasArc p l q) :
    a.HasArc p l q ∨ a.IsOrNew start p ∧ a.IsOrNew stop q := by
  rcases h.hasArc_iff.mp hpq with hpq | ⟨-, hp, hq⟩
  · rcases hasArc_addState.mp hpq with hpq | ⟨-, rfl, -, rfl⟩
    · rcases hasArc_addState.mp hpq with hpq | ⟨-, rfl, -, rfl⟩
      · exact Or.inl hpq
      · exact Or.inr ⟨Or.inr (starFirst_not_mem a), Or.inr (starFirst_not_mem a)⟩
    · exact Or.inr ⟨Or.inr (starLast_not_mem a), Or.inr (starLast_not_mem a)⟩
  · refine Or.inr ⟨?_, ?_⟩
    · rcases hp with rfl | rfl
      · exact Or.inl rfl
      · exact Or.inr (starLast_not_mem a)
    · rcases hq with rfl | rfl
      · exact Or.inr (starFirst_not_mem a)
      · exact Or.inl rfl

/-- **A new arc leaves the start or a new state, and leads to the stop or to a new state.** -/
theorem Wired.hasArc_cases (h : Wired t a start stop b) (hpq : b.HasArc p l q) :
    a.HasArc p l q ∨ a.IsOrNew start p ∧ a.IsOrNew stop q := by
  induction h with
  | leaf hb => exact ((hasArc_addArc hb).mp hpq).imp id fun h => ⟨Or.inl h.1, Or.inl h.2.2⟩
  | @union a b c start stop left right hl _ ihl ihr =>
    rcases ihr hpq with hpq | ⟨hp, hq⟩
    · exact ihl hpq
    · exact Or.inr ⟨hp.of_part (Or.inl rfl) hl.extension.mem,
        hq.of_part (Or.inl rfl) hl.extension.mem⟩
  | @concatenation a b c start stop left right hl _ ihl ihr =>
    have hmiddle : a.nextId ∉ a := nextId_not_mem a
    have hleft : ∀ {q}, q ∈ a → q ∈ b := fun hq => hl.extension.mem (mem_addState_of_mem hq)
    rcases ihr hpq with hpq | ⟨hp, hq⟩
    · rcases ihl hpq with hpq | ⟨hp, hq⟩
      · refine (hasArc_addState.mp hpq).imp id ?_
        rintro ⟨-, rfl, -, rfl⟩
        exact ⟨Or.inr hmiddle, Or.inr hmiddle⟩
      · exact Or.inr ⟨hp.of_part (Or.inl rfl) mem_addState_of_mem,
          hq.of_part (Or.inr hmiddle) mem_addState_of_mem⟩
    · exact Or.inr ⟨hp.of_part (Or.inr hmiddle) hleft, hq.of_part (Or.inl rfl) hleft⟩
  | @star a b c start stop body hb _ ih =>
    have hmem : ∀ {q}, q ∈ a → q ∈ b := fun hq => hb.mem_iff.mpr (Or.inl hq)
    rcases ih hpq with hpq | ⟨hp, hq⟩
    · exact hb.hasArc_cases hpq
    · exact Or.inr ⟨hp.of_part (Or.inr (starFirst_not_mem a)) hmem,
        hq.of_part (Or.inr (starLast_not_mem a)) hmem⟩

/-! ## The frame of wiring -/

/-- What wiring a tree leaves alone, and what it adds. -/
structure WiringFrame (t : SyntaxTree) (a : Automaton) (start stop : StateId) (b : Automaton) :
    Prop where
  size_eq : b.size = a.size + t.occurrences .concatenation + 2 * t.occurrences .star
  origin_eq : b.origin = a.origin
  alphabet_eq : b.alphabet = a.alphabet
  entry_eq : b.entry = a.entry
  /-- New states stand behind the old ones. -/
  mem_iff : ∀ {q}, q ∈ b ↔ q ∈ a ∨ q.origin = a.origin ∧ a.size ≤ q.index ∧ q.index < b.size
  /-- New states carry no flags. -/
  new_unflagged : ∀ {q s}, b.state? q = some s → q ∉ a → s.isEntry = false ∧ s.isExit = false
  /-- Old states other than the start are as they were. -/
  state?_of_ne : ∀ {p}, p ∈ a → p ≠ start → b.state? p = a.state? p
  /-- The start keeps its flags and its arcs. -/
  start_kept : ∀ {s}, a.state? start = some s → ∃ s', b.state? start = some s' ∧ s'.id = s.id ∧
    s'.isEntry = s.isEntry ∧ s'.isExit = s.isExit ∧ ∀ arc ∈ s.arcs, arc ∈ s'.arcs
  /-- New arcs leave the start or a new state, and lead to the stop or to a new state. -/
  new_arc : ∀ {p l q}, b.HasArc p l q → ¬ a.HasArc p l q →
    (p = start ∨ p ∉ a) ∧ (q = stop ∨ q ∉ a)
  no_arc_into_start : ∀ {p l}, b.HasArc p l start → a.HasArc p l start
  no_arc_out_of_stop : ∀ {l q}, b.HasArc stop l q → a.HasArc stop l q

theorem Wired.wiringFrame (h : Wired t a start stop b) (ha : a.WellFormed) (hstart : start ∈ a)
    (hstop : stop ∈ a) (hne : start ≠ stop) : WiringFrame t a start stop b where
  size_eq := h.size_eq
  origin_eq := h.extension.origin_eq
  alphabet_eq := h.extension.alphabet_eq
  entry_eq := h.extension.entry_eq
  mem_iff := h.extension.mem_iff
  new_unflagged := h.extension.isEntry_isExit_of_not_mem ha
  state?_of_ne := h.state?_of_ne
  start_kept := h.extension.exists_state? ha
  new_arc hpq hnot := (h.hasArc_cases hpq).resolve_left hnot
  no_arc_into_start hp :=
    (h.hasArc_cases hp).resolve_right fun hnew => hnew.2.elim hne fun hnot => hnot hstart
  no_arc_out_of_stop hq :=
    (h.hasArc_cases hq).resolve_right fun hnew => hnew.1.elim hne.symm fun hnot => hnot hstop

theorem Bare.size_eq {origin : Nat} (h : Bare a t ⟨0, origin⟩ ⟨1, origin⟩) : a.size = 2 := by
  have hlast : (⟨1, origin⟩ : StateId) ∈ a := h.mem_iff.mpr (Or.inr rfl)
  have hthird : (⟨2, origin⟩ : StateId) ∉ a := fun hmem => by simpa using h.mem_iff.mp hmem
  have hlt : 1 < a.size := hlast.2
  have hle : a.size ≤ 2 := Nat.le_of_not_lt fun h => hthird ⟨hlast.1, h⟩
  omega

/-- **Wiring does not disturb its surroundings.**  Between two states of any automaton that has
epsilon and the characters at its leaves, a well-shaped tree is wired, and only the frame between
the two states is filled.  So the automaton of the tree has its entry and its exit, one state for
each concatenation and two for each star. -/
theorem wire_frame (ht : t.WellShaped) :
    (∀ a start stop, a.Built → Letter.epsilon ∈ a.alphabet →
      (∀ x ∈ t.leaves, Letter.char x ∈ a.alphabet) → start ∈ a → stop ∈ a → start ≠ stop →
      ∃ b, a.wire start stop t = .ok b ∧ WiringFrame t a start stop b) ∧
    ∀ origin, ∃ c, ofTree origin t = .ok c ∧
      c.size = 2 + t.occurrences .concatenation + 2 * t.occurrences .star ∧
      c.entry = some ⟨0, origin⟩ ∧ ∀ q, c.IsExit q ↔ q = ⟨1, origin⟩ := by
  constructor
  · intro a start stop ha hε hleaves hstart hstop hne
    obtain ⟨b, hb, hwired⟩ := exists_wire ht hε hleaves hstart hstop
    exact ⟨b, hb, hwired.wiringFrame ha.wellFormed hstart hstop hne⟩
  · intro origin
    obtain ⟨a, bare, heq⟩ := exists_ofTree_eq_wire origin ht.ne_empty
    obtain ⟨b, hb, hwired⟩ := exists_wire ht bare.epsilon_mem bare.char_mem
      (bare.mem_iff.mpr (Or.inl rfl)) (bare.mem_iff.mpr (Or.inr rfl))
    refine ⟨b, heq.trans hb, ?_, hwired.extension.entry_eq.trans bare.entry_eq,
      fun q => hwired.extension.isExit_iff.trans bare.isExit_iff⟩
    rw [hwired.size_eq, bare.size_eq]

/-- A star in a star, wired from the exit of `forkedEntry` back to its entry.  The entry, where the
tree stops, keeps its arcs, one of which leads to where the tree starts. -/
theorem wire_frame_nested_star :
    (∃ b, forkedEntry.wire ⟨1, 0⟩ ⟨0, 0⟩
        (.node .star [.node .concatenation [.leaf 'a', .node .star [.leaf 'b']]]) = .ok b ∧
      b.size = 7 ∧ b.state? ⟨0, 0⟩ = forkedEntry.state? ⟨0, 0⟩ ∧ b.IsExit ⟨1, 0⟩) ∧
    ∃ c, ofTree 3
        (.node .star [.node .concatenation [.leaf 'a', .node .star [.leaf 'b']]]) = .ok c ∧
      c.size = 7 ∧ c.IsExit ⟨1, 3⟩ := by
  obtain ⟨hframe, htree⟩ := wire_frame
    (t := .node .star [.node .concatenation [.leaf 'a', .node .star [.leaf 'b']]])
    (.star (.concatenation (.leaf 'a') (.star (.leaf 'b'))))
  have hleaves : ∀ x ∈ ['a', 'b'], Letter.char x ∈ forkedEntry.alphabet :=
    List.forall_mem_cons.mpr ⟨by decide, List.forall_mem_singleton.mpr (by decide)⟩
  obtain ⟨b, hb, frame⟩ := hframe forkedEntry ⟨1, 0⟩ ⟨0, 0⟩ built_forkedEntry (by decide) hleaves
    (by decide) (by decide) (by decide)
  obtain ⟨s, hs, -, -, hexit, -⟩ := frame.start_kept (s := ⟨⟨1, 0⟩, false, true,
    .ofList [⟨.epsilon, ⟨1, 0⟩⟩]⟩) rfl
  obtain ⟨c, hc, hsize, -, hiff⟩ := htree 3
  exact ⟨⟨b, hb, frame.size_eq, frame.state?_of_ne (by decide) (by decide), s, hs, hexit⟩,
    c, hc, hsize, (hiff _).mpr rfl⟩

end Automaton

end PatternAutomata
