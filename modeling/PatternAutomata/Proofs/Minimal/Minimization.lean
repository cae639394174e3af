import PatternAutomata.Minimal.Minimization
import PatternAutomata.Proofs.Automaton.Recognition
import PatternAutomata.Proofs.Minimal.Equivalence
import PatternAutomata.Proofs.Minimal.Quotient

/-!
# The minimal automaton of a language

The classes of equivalent states are the fibres of the map from states to outcomes.  So the quotient
by them presents behaviours: its states are the behaviours found from that of the entry, each once,
in the order in which a depth-first search finds them (`exists_minimal`).  Nothing else about the
automaton that was minimized is left.

For an automaton that decides a language, the behaviour of the entry is the one that recognizes the
language.  Hence the quotient is `Canonical`, and a language has one canonical automaton of a given
origin, down to the numbering of the states (`Canonical.eq`).
-/

namespace PatternAutomata

noncomputable instance : DecidableEq Behaviour := Classical.decEq Behaviour

namespace Automaton

variable {a b : Automaton} {p q : StateId} {classes : List (OrderedSet StateId)}
  {L : Language Char} {origin : Nat}

/-- What the search for behaviours does with one of them. -/
def behaviourSuccessors (alphabet : OrderedSet Letter) (f : Behaviour) :
    Except Fault (List Behaviour) :=
  .ok (Behaviour.system.successors alphabet f)

theorem OutcomeClasses.covered_iff (h : a.OutcomeClasses classes) :
    Covered classes q ↔ a.Reachable q := by
  constructor
  · rintro ⟨c, hc, hq⟩
    exact ((h.mem_iff c hc q hq q).mp hq).1
  · exact h.exists_class q

/-- The classes by outcomes are the fibres of the map to outcomes. -/
theorem OutcomeClasses.fibres (ha : a.WellFormed) (hfun : ∀ q, a.Reachable q → a.FunctionalAt q)
    (h : a.OutcomeClasses classes) :
    Fibres a classes Behaviour.system a.system.outcome where
  mem hq := (h.covered_iff.mp hq).mem ha
  functionalAt hq := hfun _ (h.covered_iff.mp hq)
  covered_target hq hqr := h.covered_iff.mpr ((h.covered_iff.mp hq).tail hqr)
  mem_iff {c p} hc hp q := by
    rw [h.covered_iff]
    exact h.mem_iff c hc p hp q
  step_eq _ l := System.step_outcome _ _ l
  isExit_eq _ := System.isExit_outcome _ _

/-- **Minimizing succeeds and leaves the behaviours that are found from the entry.** -/
theorem exists_minimal (ha : a.WellFormed) (hentry : a.entry = some p)
    (hfun : ∀ q, a.Reachable q → a.FunctionalAt q) (origin : Nat) :
    ∃ P b items, a.partition = .ok P ∧ a.quotient origin P.classes = .ok b ∧ b.origin = origin ∧
      b.alphabet = a.alphabet ∧
      Explored (behaviourSuccessors a.alphabet) .depthFirst [a.system.outcome p] items ∧
      Behaviour.system.Presents b items := by
  obtain ⟨P, hP, hclasses⟩ := exists_partition ha hentry hfun
  obtain ⟨b, items, hb, horigin, halphabet, hexplored, hpresents⟩ :=
    exists_quotient ha (hclasses.fibres ha hfun) hentry
      (hclasses.covered_iff.mpr ⟨p, hentry, .refl⟩) origin
  exact ⟨P, b, items, hP, hb, horigin, halphabet, hexplored, hpresents⟩

/-- The canonical automaton of a language: it decides the language, and presents what is found from
the behaviour that recognizes the language. -/
structure Canonical (b : Automaton) (L : Language Char) : Prop where
  decides : b.Decides L
  exists_items : ∃ f items, f.Recognizes L ∧
    Explored (behaviourSuccessors b.alphabet) .depthFirst [f] items ∧
    Behaviour.system.Presents b items

/-- **Minimizing an automaton that decides a language yields the canonical one.** -/
theorem Decides.exists_canonical (h : a.Decides L) (origin : Nat) :
    ∃ P b, a.partition = .ok P ∧ a.quotient origin P.classes = .ok b ∧ b.origin = origin ∧
      b.Canonical L := by
  obtain ⟨p, hentry, hrecognizes⟩ := h.exists_entry
  obtain ⟨P, b, items, hP, hb, horigin, halphabet, hexplored, hpresents⟩ :=
    exists_minimal h.wellFormed hentry (fun q _ => h.functionalAt q) origin
  refine ⟨P, b, hP, hb, horigin, hpresents.decides hexplored.getElem?_zero ?_ ?_, _, items,
    hrecognizes, ?_, hpresents⟩
  · rw [System.outcome_outcome]
    exact hrecognizes
  · rw [halphabet]
    exact h.mem_alphabet
  · rw [halphabet]
    exact hexplored

/-- **A language has one canonical automaton.** -/
theorem Canonical.eq (h : a.Canonical L) (h' : b.Canonical L) (horigin : a.origin = b.origin) :
    a = b := by
  obtain ⟨f, items, hf, hexplored, hpresents⟩ := h.exists_items
  obtain ⟨g, items', hg, hexplored', hpresents'⟩ := h'.exists_items
  have halphabet : a.alphabet = b.alphabet := h.decides.alphabet_eq h'.decides
  rw [hf.unique hg, halphabet] at hexplored
  rw [hexplored.unique hexplored'] at hpresents
  exact hpresents.eq hpresents' horigin halphabet

end Automaton

end PatternAutomata
