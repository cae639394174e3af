import PatternAutomata.Proofs.Automaton.System
import PatternAutomata.Proofs.Pattern.Language

/-!
# Automata without anything superfluous

A deterministic automaton that accepts a language may still follow words that it never accepts.  A
behaviour `Recognizes` a language if it does not: it follows the words of the language and their
prefixes, and nothing else.  Only one behaviour does that (`Behaviour.Recognizes.unique`), and this
is why a language determines its minimal automaton.

* `Automaton.Decides`: what the deterministic automata of a pattern have in common.
* `Automaton.Decides.accepts_iff`: walking along any word succeeds, and tells whether it belongs to
  the language.
* `System.Presents.decides`: an automaton that presents a system decides what its first item
  recognizes.
-/

namespace PatternAutomata

namespace Behaviour

variable {f g : Behaviour} {L : Language Char} {w : List Letter} {u : List Char}

/-- A behaviour follows the words of a language and their prefixes, and no other words. -/
structure Recognizes (f : Behaviour) (L : Language Char) : Prop where
  exit_iff : ∀ w, f w = some true ↔ ∃ u ∈ L, w = u.map .char
  followed_iff : ∀ w, f w ≠ none ↔ ∃ v, f (w ++ v) = some true

/-- Behaviours that follow only what can be completed, and accept the same words, are equal. -/
theorem eq_of_live (hf : ∀ w, f w ≠ none ↔ ∃ v, f (w ++ v) = some true)
    (hg : ∀ w, g w ≠ none ↔ ∃ v, g (w ++ v) = some true)
    (hexit : ∀ w, f w = some true ↔ g w = some true) : f = g := by
  funext w
  have hfollowed : f w ≠ none ↔ g w ≠ none := by
    rw [hf, hg]
    exact exists_congr fun v => hexit (w ++ v)
  have hw := hexit w
  revert hw hfollowed
  cases f w with
  | none => cases g w <;> simp
  | some x => cases x <;> cases g w <;> simp [eq_comm]

theorem map_char_injective : Function.Injective (List.map Letter.char) :=
  List.map_injective_iff.mpr fun _ _ => Letter.char.inj

namespace Recognizes

theorem mem_iff (h : f.Recognizes L) : f (u.map .char) = some true ↔ u ∈ L := by
  rw [h.exit_iff]
  constructor
  · rintro ⟨v, hv, huv⟩
    rwa [map_char_injective huv]
  · exact fun hu => ⟨u, hu, rfl⟩

/-- **A language has one behaviour.** -/
theorem unique (h : f.Recognizes L) (h' : g.Recognizes L) : f = g :=
  eq_of_live h.followed_iff h'.followed_iff fun w => (h.exit_iff w).trans (h'.exit_iff w).symm

end Recognizes

end Behaviour

namespace System

variable {β : Type} {S : System β} {b : β} {L : Language Char} {u v : List Letter}

theorem followed_of_append (h : S.outcome b (u ++ v) ≠ none) : S.outcome b u ≠ none := by
  intro hu
  refine h ?_
  rw [outcome_eq_none_iff] at hu ⊢
  rw [run_append, hu]
  rfl

/-- Outcomes recognize a language if its words lead to exits and every word that is followed can be
completed. -/
theorem recognizes_of_live (hexit : ∀ w, S.outcome b w = some true ↔ ∃ u ∈ L, w = u.map .char)
    (hlive : ∀ w, S.outcome b w ≠ none → ∃ v, S.outcome b (w ++ v) = some true) :
    (S.outcome b).Recognizes L := by
  refine ⟨hexit, fun w => ⟨hlive w, ?_⟩⟩
  rintro ⟨v, hv⟩
  exact followed_of_append (v := v) (by rw [hv]; exact Option.some_ne_none true)

end System

namespace Automaton

variable {a d : Automaton} {p : StateId} {l : Letter} {L : Language Char}

/-- A deterministic automaton from whose entry the words of a language and their prefixes can be
followed, and nothing else, over the characters of these words. -/
structure Decides (d : Automaton) (L : Language Char) : Prop where
  wellFormed : d.WellFormed
  functionalAt : ∀ q, d.FunctionalAt q
  exists_entry : ∃ p, d.entry = some p ∧ (d.system.outcome p).Recognizes L
  mem_alphabet : ∀ l, l ∈ d.alphabet ↔ ∃ c, l = .char c ∧ ∃ w ∈ L, c ∈ w

/-- **Walking along a word decides whether it belongs to the language.** -/
theorem Decides.accepts_iff (h : d.Decides L) (w : List Char) :
    ∃ x, d.accepts w = .ok x ∧ (x = true ↔ w ∈ L) := by
  obtain ⟨p, hp, hrecognizes⟩ := h.exists_entry
  refine ⟨_, accepts_eq h.wellFormed h.functionalAt hp w, ?_⟩
  rw [← hrecognizes.mem_iff]
  cases d.system.outcome p (w.map .char) <;> simp

theorem Decides.epsilon_not_mem (h : d.Decides L) : Letter.epsilon ∉ d.alphabet := fun hε => by
  obtain ⟨c, hc, -⟩ := (h.mem_alphabet _).mp hε
  cases hc

/-- Automata that decide the same language have the same alphabet. -/
theorem Decides.alphabet_eq (h : a.Decides L) (h' : d.Decides L) : a.alphabet = d.alphabet :=
  OrderedSet.ext_mem fun l => (h.mem_alphabet l).trans (h'.mem_alphabet l).symm

end Automaton

theorem System.Presents.decides {β : Type} {S : System β} {a : Automaton} {items : List β} {x : β}
    {L : Language Char} (h : S.Presents a items) (hx : items[0]? = some x)
    (hrecognizes : (S.outcome x).Recognizes L)
    (hmem : ∀ l, l ∈ a.alphabet ↔ ∃ c, l = .char c ∧ ∃ w ∈ L, c ∈ w) : a.Decides L := by
  refine ⟨h.wellFormed, h.functionalAt, ⟨_, h.entry_eq, ?_⟩, hmem⟩
  rw [h.outcome_eq hx]
  exact hrecognizes

end PatternAutomata
