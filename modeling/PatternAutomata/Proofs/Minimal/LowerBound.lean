import PatternAutomata.Proofs.Automaton.Walks
import PatternAutomata.Proofs.Minimal.Minimization

/-!
# No automaton is smaller

Let an automaton accept, by walking, exactly the words of a language.  A walk along a prefix of a
word of the language is not blocked, and where it ends decides which completions are accepted.  So
every behaviour of the canonical automaton, which is what is left of the language after some such
prefix, has a reachable state for itself (`Canonical.size_le`).

The automaton may have dead states, epsilon arcs, several targets on a letter and a larger alphabet.
-/

namespace PatternAutomata

namespace Behaviour

variable {f : Behaviour} {L : Language Char}

/-- What is left of a language after a word. -/
def residual (L : Language Char) (u : List Char) : Language Char := {v | u ++ v ∈ L}

theorem mem_residual {u v : List Char} : v ∈ residual L u ↔ u ++ v ∈ L := Iff.rfl

/-- After a word, a behaviour recognizes what is left of the language. -/
theorem Recognizes.residual (h : f.Recognizes L) (u : List Char) :
    Recognizes (fun w => f (u.map .char ++ w)) (residual L u) := by
  refine ⟨fun w => ?_, fun w => ?_⟩
  · rw [h.exit_iff]
    constructor
    · rintro ⟨s, hs, heq⟩
      obtain ⟨u', v, rfl, hu', rfl⟩ := List.map_eq_append_iff.mp heq.symm
      rw [map_char_injective hu'] at hs
      exact ⟨v, hs, rfl⟩
    · rintro ⟨v, hv, rfl⟩
      exact ⟨u ++ v, hv, (List.map_append ..).symm⟩
  · rw [h.followed_iff]
    simp only [List.append_assoc]

/-- Searching from a behaviour finds what it does after words that it follows. -/
theorem exists_word_of_discoverable {alphabet : OrderedSet Letter} {g : Behaviour}
    (halphabet : Letter.epsilon ∉ alphabet) (hf : f [] ≠ none)
    (hg : Discoverable (Automaton.behaviourSuccessors alphabet) [f] g) :
    ∃ u : List Char, g = (fun w => f (u.map .char ++ w)) ∧ f (u.map .char) ≠ none := by
  induction hg with
  | seed hg =>
    rw [List.mem_singleton] at hg
    exact ⟨[], hg, hf⟩
  | next _ hnext hg ih =>
    obtain ⟨u, rfl, -⟩ := ih
    cases hnext
    obtain ⟨l, hl, hstep⟩ := List.mem_filterMap.mp hg
    cases l with
    | epsilon => exact absurd hl halphabet
    | char c =>
      by_cases hstuck : f (u.map .char ++ [.char c]) = none
      · simp [system, hstuck] at hstep
      · simp only [system, if_neg hstuck] at hstep
        cases hstep
        refine ⟨u ++ [c], ?_, ?_⟩
        · funext w
          simp
        · rw [List.map_append]
          exact hstuck

end Behaviour

namespace Automaton

variable {b d : Automaton} {p q r : StateId} {u v w : List Char} {L : Language Char}

/-! ## Walks -/

/-- Words after which a walk is at the same state are completed alike. -/
theorem accepts_append_eq {u' : List Char} (hentry : d.entry = some p)
    (hu : d.walkFrom p u = .ok (.finished q)) (hu' : d.walkFrom p u' = .ok (.finished q))
    (v : List Char) : d.accepts (u ++ v) = d.accepts (u' ++ v) := by
  simp only [accepts_eq_walkFrom hentry, walkFrom_append, hu, hu']

/-- The walk along the beginning of an accepted word ends at a reachable state. -/
theorem exists_finished (hd : d.WellFormed) (hentry : d.entry = some p)
    (h : d.accepts (u ++ v) = .ok true) :
    ∃ q, d.walkFrom p u = .ok (.finished q) ∧ d.Reachable q := by
  rw [accepts_eq_walkFrom hentry, walkFrom_append] at h
  have hmeets := walkFrom_meets hd (hd.entry_mem hentry) u
  generalize d.walkFrom p u = x at h hmeets
  cases hmeets with
  | @finished q hway => exact ⟨q, rfl, hway.leads.reachable hentry⟩
  | blocked _ _ _ => cases h
  | forked _ => cases h

/-! ## The bound -/

/-- **No automaton that accepts the language has fewer reachable states than the canonical one.** -/
theorem Canonical.size_le (h : b.Canonical L) (hd : d.WellFormed)
    (haccepts : ∀ w, ∃ x, d.accepts w = .ok x ∧ (x = true ↔ w ∈ L)) :
    ∃ s, d.reachable = .ok s ∧ b.size ≤ s.size := by
  obtain ⟨f, items, hf, hexplored, hpresents⟩ := h.exists_items
  have htrue : ∀ w, d.accepts w = .ok true ↔ w ∈ L := fun w => by
    obtain ⟨x, hx, hiff⟩ := haccepts w
    rw [hx, Except.ok.injEq, hiff]
  obtain ⟨p, hentry⟩ : ∃ p, d.entry = some p := by
    obtain ⟨x, hx, -⟩ := haccepts []
    cases hentry : d.entry with
    | none => simp [accepts, walk, requireEntry, hentry] at hx
    | some p => exact ⟨p, rfl⟩
  obtain ⟨s, hs, hreachable⟩ := exists_reachable hd hentry
  have hf_nil : f [] ≠ none := by
    obtain ⟨p', -, hp'⟩ := h.decides.exists_entry
    rw [hf.unique hp']
    exact Option.some_ne_none _
  -- every behaviour has a reachable state that decides the completions of its prefix
  have hstate : ∀ g ∈ items, ∃ q, q ∈ s.toList ∧ ∃ u, g = (fun w => f (u.map .char ++ w)) ∧
      d.walkFrom p u = .ok (.finished q) := by
    intro g hg
    obtain ⟨u, hgu, hu⟩ := Behaviour.exists_word_of_discoverable h.decides.epsilon_not_mem hf_nil
      (hexplored.mem_iff.mp hg)
    obtain ⟨w, hw⟩ := (hf.followed_iff _).mp hu
    obtain ⟨v, hv, -⟩ := ((hf.residual u).exit_iff w).mp hw
    obtain ⟨q, hq, hq_reachable⟩ := exists_finished hd hentry ((htrue _).mpr hv)
    exact ⟨q, (hreachable q).mpr hq_reachable, u, hgu, hq⟩
  have : Nonempty StateId := ⟨p⟩
  choose! φ hφ using hstate
  have hinjective : Set.InjOn φ (items.toFinset : Set Behaviour) := by
    intro g hg g' hg' heq
    obtain ⟨-, u, hgu, hu⟩ := hφ g (by simpa using hg)
    obtain ⟨-, u', hgu', hu'⟩ := hφ g' (by simpa using hg')
    have hresidual : Behaviour.residual L u = Behaviour.residual L u' := Language.ext fun v => by
      rw [← heq] at hu'
      rw [Behaviour.mem_residual, Behaviour.mem_residual, ← htrue, ← htrue,
        accepts_append_eq hentry hu hu']
    rw [hgu, hgu']
    exact (hf.residual u).unique (hresidual ▸ hf.residual u')
  refine ⟨s, hs, ?_⟩
  calc b.size = items.length := hpresents.size_eq
    _ = items.toFinset.card := (List.toFinset_card_of_nodup hexplored.nodup).symm
    _ ≤ s.toList.toFinset.card := Finset.card_le_card_of_injOn φ
        (fun g hg => by simpa using (hφ g (by simpa using hg)).1) hinjective
    _ ≤ s.size := List.toFinset_card_le _

end Automaton

end PatternAutomata
