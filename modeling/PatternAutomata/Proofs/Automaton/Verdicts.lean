import PatternAutomata.Proofs.Automaton.Runs
import PatternAutomata.Proofs.Automaton.Walks
import PatternAutomata.Proofs.Determinization

/-!
# The verdicts on a word

A word can be decided by a simulation, which follows all arcs and epsilon arcs between them, or by a
walk, which follows the only arc there is and passes no epsilon arc.

The verdict of a simulation is about paths: it is positive if a path from the entry to an exit reads
the word once its epsilons are dropped (`simulates_eq_path_verdict`).  The walk is less than that in
two ways.  It does not pass epsilon arcs, so its verdict is that of the simulation only if they lead
from states to themselves; otherwise it may miss words, but it accepts none that the simulation does
not.  And it does not choose between arcs: where the only way forks before it ends, it has no verdict
at all (`accepts_agrees`).  Neither of the two needs a deterministic automaton.
-/

namespace PatternAutomata

namespace Automaton

variable {a : Automaton} {p q r : StateId} {w : List Char}

/-! ## Simulations -/

/-- Whether a path from the entry to an exit spells a word, told by the letters on the path. -/
theorem accepts_iff_follows (hentry : a.entry = some p) :
    a.Accepts w ↔ ∃ path q, a.Follows p path q ∧ spelled path = w ∧ a.IsExit q := by
  rw [accepts_iff_leads hentry]
  constructor
  · rintro ⟨q, hleads, hexit⟩
    obtain ⟨path, hpath, hw⟩ := leads_iff_follows.mp hleads
    exact ⟨path, q, hpath, hw, hexit⟩
  · rintro ⟨path, q, hpath, hw, hexit⟩
    exact ⟨q, leads_iff_follows.mpr ⟨path, hpath, hw⟩, hexit⟩

/-- **The verdict of a simulation is about paths.**  It is positive if the letters on a path from
the entry to an exit are the word with epsilons between its characters, and negative otherwise. -/
theorem simulates_eq_path_verdict (ha : a.Built) (hentry : a.entry = some p) (w : List Char) :
    (a.simulates w = .ok true ↔
      ∃ path q, a.Follows p path q ∧ spelled path = w ∧ a.IsExit q) ∧
    (a.simulates w = .ok false ↔
      ¬ ∃ path q, a.Follows p path q ∧ spelled path = w ∧ a.IsExit q) := by
  obtain ⟨x, hx, hiff⟩ := simulates_spec ha.wellFormed hentry w
  rw [accepts_iff_follows hentry] at hiff
  rw [hx, ← hiff]
  cases x <;> simp

/-- A path that goes around a cycle of epsilon arcs before and after its only character; without the
character, one of these epsilon arcs is enough.  No path reads a letter that leads nowhere. -/
theorem simulates_eq_path_verdict_epsilonCycle :
    epsilonCycle.simulates ['a'] = .ok true ∧ epsilonCycle.simulates [] = .ok true ∧
      epsilonCycle.simulates ['b'] = .ok false := by
  have hverdict := simulates_eq_path_verdict built_epsilonCycle rfl
  have hthere : epsilonCycle.HasArc ⟨0, 0⟩ .epsilon ⟨1, 0⟩ := ⟨_, rfl, by decide⟩
  have hback : epsilonCycle.HasArc ⟨1, 0⟩ (.char 'a') ⟨0, 0⟩ := ⟨_, rfl, by decide⟩
  have hexit : epsilonCycle.IsExit ⟨1, 0⟩ := ⟨_, rfl, rfl⟩
  refine ⟨(hverdict ['a']).1.mpr ⟨[.epsilon, .char 'a', .epsilon], ⟨1, 0⟩, ?_, rfl, hexit⟩,
    (hverdict []).1.mpr ⟨[.epsilon], ⟨1, 0⟩, .cons hthere (.nil _), rfl, hexit⟩,
    (hverdict ['b']).2.mpr ?_⟩
  · exact .cons hthere (.cons hback (.cons hthere (.nil _)))
  · rintro ⟨path, q, hpath, hspelled, -⟩
    have hletter : ∀ l ∈ path, l ∈ epsilonCycle.alphabet :=
      hpath.letter_mem built_epsilonCycle.wellFormed
    have hb : Letter.char 'b' ∈ path := by
      have hmem : 'b' ∈ spelled path := by
        rw [hspelled]
        exact List.mem_singleton_self 'b'
      obtain ⟨l, hl, hchar⟩ := List.mem_filterMap.mp hmem
      cases l with
      | char c =>
        cases hchar
        exact hl
      | epsilon => cases hchar
    exact absurd (hletter _ hb) (by decide)

/-! ## Walks -/

/-- A walk has a verdict, or the only way forks. -/
theorem accepts_eq_severalTargets_iff (ha : a.WellFormed) (hentry : a.entry = some p) {l : Letter}
    {n : Nat} : a.accepts w = .error (.severalTargets q l n) ↔
      ∃ c, l = .char c ∧ a.Forks p w q c n := by
  have hp := ha.entry_mem hentry
  rw [← walkFrom_eq_severalTargets_iff ha hp, accepts_eq_walkFrom hentry]
  have hmeets := walkFrom_meets ha hp w
  generalize a.walkFrom p w = x at hmeets
  cases hmeets with
  | @finished r hway =>
    obtain ⟨s, hs⟩ := exists_state (hway.target_mem ha hp)
    simp [endsAtExit, hs, Except.map]
  | blocked _ _ _ => simp [endsAtExit]
  | forked _ => simp

/-- A walk that ends at a state has the verdict that an exit gives. -/
theorem accepts_of_onlyWay (ha : a.WellFormed) (hentry : a.entry = some p) (h : a.OnlyWay p w q) :
    ∃ x, a.accepts w = .ok x ∧ (x = true ↔ a.IsExit q) := by
  obtain ⟨s, hs⟩ := exists_state (h.target_mem ha (ha.entry_mem hentry))
  have hwalk := walkFrom_of_onlyWay ha h []
  rw [List.append_nil] at hwalk
  refine ⟨s.isExit, ?_, (isExit_iff (state_eq_ok_iff.mp hs)).symm⟩
  rw [accepts_eq_walkFrom hentry, hwalk]
  simp only [walkFrom, endsAtExit, hs]
  rfl

/-- Where epsilon arcs lead from states to themselves only, a walk with a verdict has the verdict of
the simulation. -/
theorem accepts_eq_simulates (ha : a.WellFormed) (hentry : a.entry = some p)
    (hloop : ∀ q r, a.HasArc q .epsilon r → r = q) (hfork : ¬ ∃ q c n, a.Forks p w q c n) :
    ∃ x, a.accepts w = .ok x ∧ a.simulates w = .ok x := by
  obtain ⟨y, hy, hverdict⟩ := simulates_spec ha hentry w
  have hmeets := walkFrom_meets ha (ha.entry_mem hentry) w
  generalize hwalk : a.walkFrom p w = x at hmeets
  cases hmeets with
  | @finished r hway =>
    obtain ⟨x, hx, hiff⟩ := accepts_of_onlyWay ha hentry hway
    -- all paths on the word end where the walk does
    have hends : (∃ q, a.Leads p w q ∧ a.IsExit q) ↔ a.IsExit r := by
      constructor
      · rintro ⟨q, hleads, hexit⟩
        rw [← List.append_nil w] at hleads
        rwa [eq_of_leads_nil_of_loops hloop (hway.leads_of_leads hloop hleads)] at hexit
      · exact fun hexit => ⟨r, hway.leads, hexit⟩
    have hxy : x = y := by
      rw [Bool.eq_iff_iff, hiff, hverdict, accepts_iff_leads hentry, hends]
    exact ⟨x, hx, hxy ▸ hy⟩
  | @blocked u v r c hw hway hnone =>
    have hfalse : y = false := by
      rw [Bool.eq_false_iff, Ne, hverdict, accepts_iff_leads hentry]
      rintro ⟨q, hleads, -⟩
      rw [hw] at hleads
      obtain ⟨r', t, hr', harc, -⟩ := (hway.leads_of_leads hloop hleads).exists_of_cons
      obtain rfl := eq_of_leads_nil_of_loops hloop hr'
      exact hnone t harc
    refine ⟨false, ?_, hfalse ▸ hy⟩
    rw [accepts_eq_walkFrom hentry, hwalk]
    rfl
  | @forked q c n h => exact absurd ⟨q, c, n, h⟩ hfork

/-- What a walk accepts, the simulation accepts. -/
theorem simulates_of_accepts (ha : a.WellFormed) (hentry : a.entry = some p)
    (h : a.accepts w = .ok true) : a.simulates w = .ok true := by
  have hmeets := walkFrom_meets ha (ha.entry_mem hentry) w
  rw [accepts_eq_walkFrom hentry] at h
  generalize hwalk : a.walkFrom p w = x at hmeets
  rw [hwalk] at h
  cases hmeets with
  | @finished r hway =>
    obtain ⟨x, hx, hiff⟩ := accepts_of_onlyWay ha hentry hway
    rw [accepts_eq_walkFrom hentry, hwalk] at hx
    have hexit : a.IsExit r := hiff.mp (Except.ok.inj (hx.symm.trans h))
    obtain ⟨y, hy, hverdict⟩ := simulates_spec ha hentry w
    rw [hy, hverdict.mpr ⟨p, r, hentry, hway.leads, hexit⟩]
  | blocked _ _ _ => cases h
  | forked _ => cases h

/-- **Walks agree with simulations wherever they have a verdict.**  A walk fails exactly where the
only way forks, for the state, the character and the number of states there.  Otherwise it has the
verdict of the simulation, if epsilon arcs lead from states to themselves only.  Whatever the epsilon
arcs, it accepts no word that the simulation does not. -/
theorem accepts_agrees (ha : a.Built) (hentry : a.entry = some p) :
    (∀ w q l n, a.accepts w = .error (.severalTargets q l n) ↔
      ∃ c, l = .char c ∧ a.Forks p w q c n) ∧
    ((∀ q r, a.HasArc q .epsilon r → r = q) → ∀ w, (¬ ∃ q c n, a.Forks p w q c n) →
      ∃ x, a.accepts w = .ok x ∧ a.simulates w = .ok x) ∧
    ∀ w, a.accepts w = .ok true → a.simulates w = .ok true := by
  have hwf := ha.wellFormed
  exact ⟨fun w q l n => accepts_eq_severalTargets_iff hwf hentry,
    fun hloop w hfork => accepts_eq_simulates hwf hentry hloop hfork,
    fun w h => simulates_of_accepts hwf hentry h⟩

/-- An automaton whose entry has one arc on a letter and two on another one. -/
def forkedEntry : Automaton where
  origin := 0
  alphabet := .ofList [.char 'a', .char 'b', .epsilon]
  states := #[
    ⟨⟨0, 0⟩, true, false, .ofList [⟨.char 'a', ⟨1, 0⟩⟩, ⟨.char 'b', ⟨0, 0⟩⟩, ⟨.char 'b', ⟨1, 0⟩⟩,
      ⟨.epsilon, ⟨0, 0⟩⟩]⟩,
    ⟨⟨1, 0⟩, false, true, .ofList [⟨.epsilon, ⟨1, 0⟩⟩]⟩]
  entry := some ⟨0, 0⟩

theorem built_forkedEntry : forkedEntry.Built := by
  have h : (Automaton.empty 0 (.ofList [.char 'a', .char 'b', .epsilon])).addState.addState.Built :=
    .addState (.addState (.empty _ _))
  have h₁ := Automaton.Built.addArc (p := ⟨0, 0⟩) (l := .char 'a') (q := ⟨1, 0⟩) h rfl
  have h₂ := Automaton.Built.addArc (p := ⟨0, 0⟩) (l := .char 'b') (q := ⟨0, 0⟩) h₁ rfl
  have h₃ := Automaton.Built.addArc (p := ⟨0, 0⟩) (l := .char 'b') (q := ⟨1, 0⟩) h₂ rfl
  have h₄ := Automaton.Built.setExit (q := ⟨1, 0⟩) h₃ rfl
  exact .setEntry (q := ⟨0, 0⟩) h₄ rfl

theorem loops_forkedEntry (q r : StateId) (h : forkedEntry.HasArc q .epsilon r) : r = q := by
  obtain ⟨s, hs, harc⟩ := h
  have hloops : ∀ s ∈ forkedEntry.states.toList, ∀ x ∈ s.arcs.toList,
      x.letter = .epsilon → x.target = s.id := by decide
  have hs' : s ∈ forkedEntry.states.toList := Array.mem_def.mp (mem_states_iff.mpr ⟨q, hs⟩)
  rw [← built_forkedEntry.wellFormed.id_eq hs]
  exact hloops s hs' ⟨.epsilon, r⟩ harc rfl

/-- On `ba` the way forks at the entry.  On `ab` it gets no further than to the exit, and on `a` it
ends there. -/
theorem accepts_agrees_forkedEntry :
    forkedEntry.Forks ⟨0, 0⟩ ['b', 'a'] ⟨0, 0⟩ 'b' 2 ∧
    (∃ x, forkedEntry.accepts ['a', 'b'] = .ok x ∧ forkedEntry.simulates ['a', 'b'] = .ok x) ∧
    forkedEntry.simulates ['a'] = .ok true := by
  obtain ⟨herror, hverdicts, haccepts⟩ := accepts_agrees built_forkedEntry rfl
  refine ⟨?_, hverdicts loops_forkedEntry ['a', 'b'] ?_, haccepts ['a'] (by decide)⟩
  · obtain ⟨c, hc, hfork⟩ := (herror ['b', 'a'] ⟨0, 0⟩ (.char 'b') 2).mp (by decide)
    cases hc
    exact hfork
  · rintro ⟨q, c, n, hfork⟩
    have hforked := (herror ['a', 'b'] q (.char c) n).mpr ⟨c, rfl, hfork⟩
    have hok : forkedEntry.accepts ['a', 'b'] = .ok false := by decide
    rw [hok] at hforked
    cases hforked

end Automaton

end PatternAutomata
