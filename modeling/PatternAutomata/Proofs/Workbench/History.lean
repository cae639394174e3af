import PatternAutomata.Proofs.Automaton.Answers
import PatternAutomata.Proofs.Workbench.Step

/-!
# Automata agree with their history

Origins are numbers, and nothing in an automaton tells where it comes from.  The course of building
does: which creation an automaton stems from, by copying or by being created itself; which creation
an identifier belongs to that was handed out for a new state; and whether an entry was ever
designated.  All three are defined by the edits alone, without looking at origins or entries.

`Tracked` says that the automata agree with their history: the origin of an automaton is the number
of the creation it stems from, all identifiers in range have been handed out, and there is an entry
where one was designated.

* `Tracked.concat`: every step keeps this true, one case for each effect that it can have.
* `tracked`: it is true of whatever is built from nothing.
-/

namespace PatternAutomata

namespace Workbench

open Automaton

variable {edits : List Edit} {e : Edit} {m k r r' : Nat} {a b : Automaton} {p q : StateId}
  {l : Letter} {s : State} {f : Fault}

/-! ## Histories -/

/-- What some steps of building make of an empty workbench. -/
def after (edits : List Edit) : Workbench := empty.performAll edits

/-- The number of automata that were created, not counting copies. -/
def creations (edits : List Edit) : Nat :=
  edits.countP fun e => match e with | .create _ => true | _ => false

/-- An automaton stems from the creation with a number if it is what was created then, or a copy of
an automaton that stems from it. -/
inductive StemsFrom : List Edit → Nat → Nat → Prop where
  | create {edits : List Edit} (alphabet : OrderedSet Letter) :
      StemsFrom (edits ++ [.create alphabet]) (after edits).automata.size (creations edits)
  | copy {edits : List Edit} {m r : Nat} : StemsFrom edits m r →
      StemsFrom (edits ++ [.copy m]) (after edits).automata.size r
  | keep {edits : List Edit} {e : Edit} {m r : Nat} : StemsFrom edits m r →
      StemsFrom (edits ++ [e]) m r

/-- An identifier was handed out for a state that was added to an automaton, which stems from the
creation with a number. -/
inductive Issued : List Edit → StateId → Nat → Prop where
  | addState {edits : List Edit} {m r : Nat} {a : Automaton} : (after edits).automata[m]? = some a →
      StemsFrom edits m r → Issued (edits ++ [.addState m]) a.nextId r
  | keep {edits : List Edit} {e : Edit} {q : StateId} {r : Nat} : Issued edits q r →
      Issued (edits ++ [e]) q r

/-- The entry of an automaton was designated successfully, be it before it was copied. -/
inductive Designated : List Edit → Nat → Prop where
  | setEntry {edits : List Edit} {m : Nat} {q : StateId} {a : Automaton} :
      (after edits).automata[m]? = some a → ((after edits).perform (.setEntry m q)).2 = none →
      Designated (edits ++ [.setEntry m q]) m
  | copy {edits : List Edit} {m : Nat} : Designated edits m →
      Designated (edits ++ [.copy m]) (after edits).automata.size
  | keep {edits : List Edit} {e : Edit} {m : Nat} : Designated edits m → Designated (edits ++ [e]) m

theorem after_concat (edits : List Edit) (e : Edit) :
    after (edits ++ [e]) = ((after edits).perform e).1 := List.foldl_concat ..

theorem creations_concat_of_ne (h : ∀ alphabet, e ≠ .create alphabet) :
    creations (edits ++ [e]) = creations edits := by
  cases e with
  | create alphabet => exact absurd rfl (h alphabet)
  | _ => simp [creations]

theorem stemsFrom_concat_iff : StemsFrom (edits ++ [e]) m r ↔
    StemsFrom edits m r ∨
    (∃ alphabet, e = .create alphabet ∧ m = (after edits).automata.size ∧ r = creations edits) ∨
    ∃ k, e = .copy k ∧ m = (after edits).automata.size ∧ StemsFrom edits k r := by
  constructor
  · generalize hhistory : edits ++ [e] = history
    intro h
    cases h with
    | create alphabet =>
      obtain ⟨rfl, he⟩ := List.append_inj' hhistory rfl
      exact Or.inr (Or.inl ⟨alphabet, List.singleton_inj.mp he, rfl, rfl⟩)
    | copy h =>
      obtain ⟨rfl, he⟩ := List.append_inj' hhistory rfl
      exact Or.inr (Or.inr ⟨_, List.singleton_inj.mp he, rfl, h⟩)
    | keep h =>
      obtain ⟨rfl, -⟩ := List.append_inj' hhistory rfl
      exact Or.inl h
  · rintro (h | ⟨alphabet, rfl, rfl, rfl⟩ | ⟨k, rfl, rfl, h⟩)
    · exact .keep h
    · exact .create alphabet
    · exact .copy h

theorem issued_concat_iff : Issued (edits ++ [e]) q r ↔
    Issued edits q r ∨ ∃ m a, e = .addState m ∧ (after edits).automata[m]? = some a ∧
      q = a.nextId ∧ StemsFrom edits m r := by
  constructor
  · generalize hhistory : edits ++ [e] = history
    intro h
    cases h with
    | addState ha h =>
      obtain ⟨rfl, he⟩ := List.append_inj' hhistory rfl
      exact Or.inr ⟨_, _, List.singleton_inj.mp he, ha, rfl, h⟩
    | keep h =>
      obtain ⟨rfl, -⟩ := List.append_inj' hhistory rfl
      exact Or.inl h
  · rintro (h | ⟨m, a, rfl, ha, rfl, h⟩)
    · exact .keep h
    · exact .addState ha h

theorem designated_concat_iff : Designated (edits ++ [e]) m ↔
    Designated edits m ∨
    (∃ q a, e = .setEntry m q ∧ (after edits).automata[m]? = some a ∧
      ((after edits).perform e).2 = none) ∨
    ∃ k, e = .copy k ∧ m = (after edits).automata.size ∧ Designated edits k := by
  constructor
  · generalize hhistory : edits ++ [e] = history
    intro h
    cases h with
    | setEntry ha h =>
      obtain ⟨rfl, he⟩ := List.append_inj' hhistory rfl
      cases List.singleton_inj.mp he
      exact Or.inr (Or.inl ⟨_, _, rfl, ha, h⟩)
    | copy h =>
      obtain ⟨rfl, he⟩ := List.append_inj' hhistory rfl
      exact Or.inr (Or.inr ⟨_, List.singleton_inj.mp he, rfl, h⟩)
    | keep h =>
      obtain ⟨rfl, -⟩ := List.append_inj' hhistory rfl
      exact Or.inl h
  · rintro (h | ⟨q, a, rfl, ha, h⟩ | ⟨k, rfl, rfl, h⟩)
    · exact .keep h
    · exact .setEntry ha h
    · exact .copy h

/-! ## Automata agree with their history -/

/-- The automata on the workbench are well formed and agree with their history. -/
structure Tracked (edits : List Edit) : Prop where
  sound : (after edits).Sound
  nextOrigin_eq : (after edits).nextOrigin = creations edits
  stemsFrom_iff : ∀ {m r : Nat}, StemsFrom edits m r ↔
    ∃ a : Automaton, (after edits).automata[m]? = some a ∧ a.origin = r
  origin_of_issued : ∀ {q : StateId} {r : Nat}, Issued edits q r → q.origin = r
  issued_of_mem : ∀ {m : Nat} {a : Automaton} {q : StateId},
    (after edits).automata[m]? = some a → q ∈ a → Issued edits q a.origin
  designated_iff : ∀ {m : Nat}, Designated edits m ↔
    ∃ a : Automaton, (after edits).automata[m]? = some a ∧ a.entry ≠ none

theorem tracked_nil : Tracked [] where
  sound ha := by cases ha
  nextOrigin_eq := rfl
  stemsFrom_iff {m r} := by
    constructor
    · generalize hhistory : [] = history
      intro h
      cases h <;> simp at hhistory
    · rintro ⟨a, ha, -⟩
      cases ha
  origin_of_issued {q r} := by
    generalize hhistory : [] = history
    intro h
    cases h <;> simp at hhistory
  issued_of_mem ha := by cases ha
  designated_iff {m} := by
    constructor
    · generalize hhistory : [] = history
      intro h
      cases h <;> simp at hhistory
    · rintro ⟨a, ha, -⟩
      cases ha

namespace Tracked

theorem stemsFrom (h : Tracked edits) (ha : (after edits).automata[m]? = some a) :
    StemsFrom edits m a.origin := h.stemsFrom_iff.mpr ⟨a, ha, rfl⟩

theorem origin_eq (h : Tracked edits) (hr : StemsFrom edits m r)
    (ha : (after edits).automata[m]? = some a) : a.origin = r := by
  obtain ⟨b, hb, hr⟩ := h.stemsFrom_iff.mp hr
  rw [ha] at hb
  cases hb
  exact hr

/-- An identifier carries the origin of the automaton it was handed out for. -/
theorem origin_of_issued_concat (h : Tracked edits) (hq : Issued (edits ++ [e]) q r) :
    q.origin = r := by
  obtain hq | ⟨m, a, -, ha, rfl, hr⟩ := issued_concat_iff.mp hq
  · exact h.origin_of_issued hq
  · exact h.origin_eq hr ha

/-- A step that changes nothing, and that is none of those that make history. -/
theorem concat_of_same (h : Tracked edits) (hafter : after (edits ++ [e]) = after edits)
    (hcreate : ∀ alphabet, e ≠ .create alphabet)
    (hcopy : ∀ k a, e = .copy k → (after edits).automata[k]? ≠ some a)
    (hadd : ∀ k a, e = .addState k → (after edits).automata[k]? ≠ some a)
    (hentry : ∀ k q a, e = .setEntry k q → (after edits).automata[k]? = some a →
      ((after edits).perform e).2 ≠ none) : Tracked (edits ++ [e]) := by
  have hstems {m r : Nat} : StemsFrom (edits ++ [e]) m r ↔ StemsFrom edits m r := by
    rw [stemsFrom_concat_iff]
    refine or_iff_left ?_
    rintro (⟨alphabet, he, -⟩ | ⟨k, he, -, hk⟩)
    · exact hcreate alphabet he
    · obtain ⟨a, ha, -⟩ := h.stemsFrom_iff.mp hk
      exact hcopy k a he ha
  have hissued {q : StateId} {r : Nat} : Issued (edits ++ [e]) q r ↔ Issued edits q r := by
    rw [issued_concat_iff]
    refine or_iff_left ?_
    rintro ⟨k, a, he, ha, -⟩
    exact hadd k a he ha
  have hdesignated {m : Nat} : Designated (edits ++ [e]) m ↔ Designated edits m := by
    rw [designated_concat_iff]
    refine or_iff_left ?_
    rintro (⟨q, a, he, ha, hnone⟩ | ⟨k, he, -, hk⟩)
    · exact hentry m q a he ha hnone
    · obtain ⟨a, ha, -⟩ := h.designated_iff.mp hk
      exact hcopy k a he ha
  refine ⟨?_, ?_, ?_, h.origin_of_issued_concat, ?_, ?_⟩
  · rw [hafter]
    exact h.sound
  · rw [hafter, creations_concat_of_ne hcreate]
    exact h.nextOrigin_eq
  · intro m r
    rw [hstems, hafter]
    exact h.stemsFrom_iff
  · intro m a q ha hq
    rw [hafter] at ha
    exact hissued.mpr (h.issued_of_mem ha hq)
  · intro m
    rw [hdesignated, hafter]
    exact h.designated_iff

theorem concat_create (h : Tracked edits) (alphabet : OrderedSet Letter) :
    Tracked (edits ++ [.create alphabet]) := by
  have hafter : after (edits ++ [.create alphabet]) =
      { (after edits).add (.empty (after edits).nextOrigin alphabet) with
        nextOrigin := (after edits).nextOrigin + 1 } := after_concat ..
  have hlookup {m : Nat} {a : Automaton}
      (ha : (after (edits ++ [.create alphabet])).automata[m]? = some a) :
      a = .empty (after edits).nextOrigin alphabet ∨ (after edits).automata[m]? = some a := by
    rw [hafter] at ha
    exact eq_or_getElem?_of_add ha
  refine ⟨?_, ?_, ?_, h.origin_of_issued_concat, ?_, ?_⟩
  · intro m a ha
    obtain rfl | ha := hlookup ha
    · exact wellFormed_empty _ _
    · exact h.sound ha
  · rw [hafter, creations, List.countP_append]
    exact congrArg (· + 1) h.nextOrigin_eq
  · intro m r
    rw [stemsFrom_concat_iff, h.stemsFrom_iff, hafter]
    refine Iff.trans ?_ exists_add_iff.symm
    refine or_congr_right ?_
    simp [Automaton.empty, ← h.nextOrigin_eq, eq_comm]
  · intro m a q ha hq
    obtain rfl | ha := hlookup ha
    · exact absurd hq (not_mem_empty _ _)
    · exact .keep (h.issued_of_mem ha hq)
  · intro m
    rw [designated_concat_iff, h.designated_iff, hafter]
    refine Iff.trans ?_ exists_add_iff.symm
    refine or_congr_right ?_
    simp [Automaton.empty]

theorem concat_copy (h : Tracked edits) (ha : (after edits).automata[m]? = some a) :
    Tracked (edits ++ [.copy m]) := by
  have hafter : after (edits ++ [.copy m]) = (after edits).add a := by
    rw [after_concat, perform]
    simp only [ha]
    rfl
  have hlookup {k : Nat} {b : Automaton} (hb : (after (edits ++ [.copy m])).automata[k]? = some b) :
      ∃ j : Nat, (after edits).automata[j]? = some b := by
    rw [hafter] at hb
    obtain rfl | hb := eq_or_getElem?_of_add hb
    · exact ⟨m, ha⟩
    · exact ⟨k, hb⟩
  refine ⟨?_, ?_, ?_, h.origin_of_issued_concat, ?_, ?_⟩
  · intro k b hb
    obtain ⟨j, hb⟩ := hlookup hb
    exact h.sound hb
  · rw [hafter, creations, List.countP_append]
    exact h.nextOrigin_eq
  · intro k r
    rw [stemsFrom_concat_iff, hafter]
    refine Iff.trans ?_ exists_add_iff.symm
    refine or_congr h.stemsFrom_iff ?_
    simp [h.stemsFrom_iff, ha]
  · intro k b q hb hq
    obtain ⟨j, hb⟩ := hlookup hb
    exact .keep (h.issued_of_mem hb hq)
  · intro k
    rw [designated_concat_iff, hafter]
    refine Iff.trans ?_ exists_add_iff.symm
    refine or_congr h.designated_iff ?_
    simp [h.designated_iff, ha]

/-- A step that changes one automaton makes history only by adding a state or designating an
entry. -/
theorem concat_changed (h : Tracked edits) {op : Automaton → Except Fault Automaton}
    (happlies : e.Applies m op) (ha : (after edits).automata[m]? = some a) (hb : op a = .ok b)
    (hperform : (after edits).perform e = ((after edits).replace m b, none)) :
    Tracked (edits ++ [e]) := by
  have hkeeps := happlies.keeps (h.sound ha) hb
  have hafter : after (edits ++ [e]) = (after edits).replace m b := by
    rw [after_concat, hperform]
  have hlookup {k : Nat} {c : Automaton} (hc : (after (edits ++ [e])).automata[k]? = some c) :
      (k = m ∧ c = b) ∨ (after edits).automata[k]? = some c := by
    rw [hafter] at hc
    exact eq_or_getElem?_of_replace ha hc
  have hcreate : ∀ alphabet, e ≠ .create alphabet := by
    cases happlies <;> simp
  have hcopy : ∀ k, e ≠ .copy k := by
    cases happlies <;> simp
  refine ⟨?_, ?_, ?_, h.origin_of_issued_concat, ?_, ?_⟩
  · intro k c hc
    obtain ⟨-, rfl⟩ | hc := hlookup hc
    · exact hkeeps.wellFormed
    · exact h.sound hc
  · rw [hafter, creations_concat_of_ne hcreate]
    exact h.nextOrigin_eq
  · intro k r
    rw [stemsFrom_concat_iff, hafter, exists_replace_iff ha]
    simp only [hcreate, hcopy, false_and, exists_false, or_false, h.stemsFrom_iff]
    by_cases hkm : k = m
    · simp [hkm, ha, hkeeps.origin_eq]
    · simp [hkm]
  · intro k c q hc hq
    obtain ⟨rfl, rfl⟩ | hc := hlookup hc
    · rw [hkeeps.origin_eq]
      obtain hq | ⟨rfl, rfl⟩ := hkeeps.mem hq
      · exact .keep (h.issued_of_mem ha hq)
      · exact .addState ha (h.stemsFrom ha)
    · exact .keep (h.issued_of_mem hc hq)
  · intro k
    rw [designated_concat_iff, hafter, exists_replace_iff ha]
    simp only [hcopy, false_and, exists_false, or_false, h.designated_iff, hperform]
    by_cases hkm : k = m
    · simp [hkm, ha, hkeeps.entry_iff]
    · have hplace : ∀ q, e ≠ .setEntry k q := by
        cases happlies <;> simp [Ne.symm hkm]
      simp [hkm, hplace]

/-- **A step of building makes no automaton forget its history.** -/
theorem concat (h : Tracked edits) (e : Edit) : Tracked (edits ++ [e]) := by
  have heffect := perform_effect h.sound e
  generalize hperform : (after edits).perform e = result at heffect
  have hafter : after (edits ++ [e]) = result.1 := by rw [after_concat, hperform]
  cases heffect with
  | created alphabet => exact h.concat_create alphabet
  | copied ha => exact h.concat_copy ha
  | changed happlies ha hb => exact h.concat_changed happlies ha hb hperform
  | failed happlies ha hop =>
    refine h.concat_of_same hafter ?_ ?_ ?_ ?_
    · cases happlies <;> simp
    · cases happlies <;> simp
    · rintro k b rfl
      cases happlies
      cases hop
    · intro k q b _ _
      rw [hperform]
      exact Option.some_ne_none _
  | absent hplace hnone =>
    refine h.concat_of_same hafter ?_ ?_ ?_ ?_
    · rintro alphabet rfl
      cases hplace
    · rintro k b rfl
      cases hplace
      rw [hnone]
      exact Option.some_ne_none _ ∘ Eq.symm
    · rintro k b rfl
      cases hplace
      rw [hnone]
      exact Option.some_ne_none _ ∘ Eq.symm
    · rintro k q b rfl hb
      cases hplace
      rw [hnone] at hb
      cases hb

end Tracked

/-- **Automata agree with their history, whatever the course of building.** -/
theorem tracked (edits : List Edit) : Tracked edits := by
  induction edits using List.reverseRecOn with
  | nil => exact tracked_nil
  | append_singleton edits e ih => exact ih.concat e

end Workbench

end PatternAutomata
