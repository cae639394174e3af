import Mathlib.Data.Set.Card
import PatternAutomata.Proofs.Automaton.Paths
import PatternAutomata.Proofs.Automaton.System

/-!
# What a walk meets

A walk follows a word as long as one arc and no other leaves on the next character.  So it goes the
only way there is (`OnlyWay`), up to the end of the word, or up to a state that no arc leaves on the
next character, or up to one that several arcs leave (`Forks`).  `walkFrom_meets` says which of these
is met, and that the answer of the walk tells it.

What the automaton does away from that way does not matter.  In particular it need not be
deterministic.

* `walkFrom_of_onlyWay`: the walk goes the only way.
* `walkFrom_eq_severalTargets_iff`: it fails exactly where the way forks.
* `OnlyWay.leads_of_leads`: as long as epsilon arcs lead from states to themselves, paths go the
  only way, too.
-/

namespace PatternAutomata

namespace Automaton

variable {a : Automaton} {p q r t : StateId} {l : Letter} {c : Char} {n : Nat} {s : State}
  {u v w : List Char}

/-- Arcs lead from one state to another along a word, and on the way no other arc leaves on the next
character. -/
inductive OnlyWay (a : Automaton) : StateId → List Char → StateId → Prop where
  | nil (q : StateId) : OnlyWay a q [] q
  | cons {p q r : StateId} {c : Char} {w : List Char} :
      a.HasArc p (.char c) q → (∀ q', a.HasArc p (.char c) q' → q' = q) → OnlyWay a q w r →
      OnlyWay a p (c :: w) r

/-- The only way along a word comes to a state from which the next character leads to a number of
states, more than one. -/
def Forks (a : Automaton) (p : StateId) (w : List Char) (q : StateId) (c : Char) (n : Nat) : Prop :=
  (∃ u v, w = u ++ c :: v ∧ a.OnlyWay p u q) ∧ 2 ≤ n ∧ {r | a.HasArc q (.char c) r}.ncard = n

/-! ## One step -/

/-- The number of targets is the number of states that arcs on the letter lead to. -/
theorem ncard_targets (hs : a.state? q = some s) (l : Letter) :
    {r | a.HasArc q l r}.ncard = (s.targets l).size := by
  have hset : {r | a.HasArc q l r} = ((s.targets l).toList.toFinset : Set StateId) := by
    ext r
    rw [Finset.mem_coe, List.mem_toFinset, Set.mem_ofPred_eq, hasArc_iff hs]
    exact State.mem_targets.symm
  rw [hset, Set.ncard_coe_finset, List.toFinset_card_of_nodup (s.targets l).nodup]
  rfl

theorem ncard_targets_of_none (h : ∀ r, ¬ a.HasArc q l r) : {r | a.HasArc q l r}.ncard = 0 := by
  rw [show {r | a.HasArc q l r} = ∅ from Set.eq_empty_of_forall_notMem h, Set.ncard_empty]

theorem ncard_targets_of_only (h : a.HasArc q l r) (honly : ∀ r', a.HasArc q l r' → r' = r) :
    {r' | a.HasArc q l r'}.ncard = 1 := by
  rw [show {r' | a.HasArc q l r'} = {r} from Set.eq_singleton_iff_unique_mem.mpr ⟨h, honly⟩,
    Set.ncard_singleton]

/-- On a letter no arc leaves a state, or one, or several. -/
theorem soleTarget_spec (ha : a.WellFormed) (hs : a.state? q = some s) (l : Letter) :
    (s.soleTarget l = .ok none ∧ ∀ r, ¬ a.HasArc q l r) ∨
    (∃ r, s.soleTarget l = .ok (some r) ∧ a.HasArc q l r ∧ ∀ r', a.HasArc q l r' → r' = r) ∨
    ∃ n, s.soleTarget l = .error (.severalTargets q l n) ∧ 2 ≤ n ∧
      {r | a.HasArc q l r}.ncard = n := by
  have hmem : ∀ r, a.HasArc q l r ↔ r ∈ (s.targets l).toList := fun r => by
    rw [hasArc_iff hs]
    exact State.mem_targets.symm
  have hcard := ncard_targets hs l
  rw [OrderedSet.size] at hcard
  unfold State.soleTarget
  rcases hlist : (s.targets l).toList with _ | ⟨r, _ | ⟨r', rest⟩⟩
  · refine Or.inl ⟨rfl, fun r hr => ?_⟩
    rw [hmem, hlist] at hr
    cases hr
  · refine Or.inr (Or.inl ⟨r, rfl, ?_, fun r' hr' => ?_⟩)
    · rw [hmem, hlist]
      exact List.mem_singleton_self r
    · rw [hmem, hlist] at hr'
      exact List.mem_singleton.mp hr'
  · rw [hlist] at hcard
    refine Or.inr (Or.inr ⟨(r :: r' :: rest).length, ?_, ?_, hcard⟩)
    · rw [ha.id_eq hs]
    · simp only [List.length_cons]
      omega

theorem walkFrom_cons (hs : a.state? q = some s) (c : Char) (w : List Char) :
    a.walkFrom q (c :: w) = match s.soleTarget (.char c) with
      | .error e => .error e
      | .ok none => .ok (.blocked q c)
      | .ok (some r) => a.walkFrom r w := by
  rcases h : s.soleTarget (.char c) with e | _ | r <;>
    simp only [walkFrom, state_eq_ok_iff.mpr hs, h]

/-! ## The whole walk -/

namespace OnlyWay

theorem leads (h : a.OnlyWay p u q) : a.Leads p u q := by
  induction h with
  | nil q => exact .refl q
  | cons harc _ _ ih => exact .char harc ih

theorem target_mem (ha : a.WellFormed) (h : a.OnlyWay p u q) (hp : p ∈ a) : q ∈ a :=
  h.leads.target_mem ha hp

end OnlyWay

/-- **A walk goes the only way.** -/
theorem walkFrom_of_onlyWay (ha : a.WellFormed) (h : a.OnlyWay p u q) (v : List Char) :
    a.walkFrom p (u ++ v) = a.walkFrom q v := by
  induction h with
  | nil q => rfl
  | @cons p r q c u harc honly _ ih =>
    obtain ⟨s, hs⟩ := mem_iff_state?.mp harc.source_mem
    rw [List.cons_append, walkFrom_cons hs]
    obtain ⟨-, hnone⟩ | ⟨r', hsole, harc', -⟩ | ⟨n, -, hn, hcard⟩ := soleTarget_spec ha hs (.char c)
    · exact absurd harc (hnone r)
    · rw [hsole, honly r' harc']
      exact ih
    · rw [ncard_targets_of_only harc honly] at hcard
      omega

/-- A walk fails where the way forks. -/
theorem walkFrom_of_forks (ha : a.WellFormed) (hp : p ∈ a) (h : a.Forks p w q c n) :
    a.walkFrom p w = .error (.severalTargets q (.char c) n) := by
  obtain ⟨⟨u, v, rfl, hway⟩, hn, hcard⟩ := h
  obtain ⟨s, hs⟩ := mem_iff_state?.mp (hway.target_mem ha hp)
  rw [walkFrom_of_onlyWay ha hway, walkFrom_cons hs]
  obtain ⟨-, hnone⟩ | ⟨r, -, harc, honly⟩ | ⟨m, hsole, -, hcard'⟩ := soleTarget_spec ha hs (.char c)
  · rw [ncard_targets_of_none hnone] at hcard
    omega
  · rw [ncard_targets_of_only harc honly] at hcard
    omega
  · rw [hsole, ← hcard, ← hcard']

/-- What a walk along a word meets, and the answer that tells it. -/
inductive Meets (a : Automaton) (p : StateId) (w : List Char) : Except Fault Walk → Prop where
  | finished {q : StateId} : a.OnlyWay p w q → Meets a p w (.ok (.finished q))
  | blocked {u v : List Char} {q : StateId} {c : Char} : w = u ++ c :: v → a.OnlyWay p u q →
      (∀ r, ¬ a.HasArc q (.char c) r) → Meets a p w (.ok (.blocked q c))
  | forked {q : StateId} {c : Char} {n : Nat} : a.Forks p w q c n →
      Meets a p w (.error (.severalTargets q (.char c) n))

/-- What a walk meets from the next state on, it meets from this one on. -/
theorem Meets.cons {x : Except Fault Walk} (harc : a.HasArc p (.char c) q)
    (honly : ∀ q', a.HasArc p (.char c) q' → q' = q) (h : Meets a q w x) : Meets a p (c :: w) x := by
  cases h with
  | finished hway => exact .finished (.cons harc honly hway)
  | @blocked u v r d hw hway hnone =>
    exact .blocked (u := c :: u) (congrArg (c :: ·) hw) (.cons harc honly hway) hnone
  | forked hfork =>
    obtain ⟨⟨u, v, hw, hway⟩, hn, hcard⟩ := hfork
    exact .forked ⟨⟨c :: u, v, congrArg (c :: ·) hw, .cons harc honly hway⟩, hn, hcard⟩

/-- **A walk tells what it meets.** -/
theorem walkFrom_meets (ha : a.WellFormed) (hp : p ∈ a) (w : List Char) :
    Meets a p w (a.walkFrom p w) := by
  induction w generalizing p with
  | nil => exact .finished (.nil p)
  | cons c w ih =>
    obtain ⟨s, hs⟩ := mem_iff_state?.mp hp
    rw [walkFrom_cons hs]
    obtain ⟨hsole, hnone⟩ | ⟨r, hsole, harc, honly⟩ | ⟨n, hsole, hn, hcard⟩ :=
      soleTarget_spec ha hs (.char c)
    · rw [hsole]
      exact .blocked (u := []) rfl (.nil p) hnone
    · rw [hsole]
      exact (ih (ha.target_mem harc)).cons harc honly
    · rw [hsole]
      exact .forked ⟨⟨[], w, rfl, .nil p⟩, hn, hcard⟩

/-- **A walk fails exactly where the way forks.** -/
theorem walkFrom_eq_severalTargets_iff (ha : a.WellFormed) (hp : p ∈ a) :
    a.walkFrom p w = .error (.severalTargets q l n) ↔ ∃ c, l = .char c ∧ a.Forks p w q c n := by
  constructor
  · intro h
    have hmeets := walkFrom_meets ha hp w
    rw [h] at hmeets
    cases hmeets with
    | forked hfork => exact ⟨_, rfl, hfork⟩
  · rintro ⟨c, rfl, hfork⟩
    exact walkFrom_of_forks ha hp hfork

/-- Walking along a word and then another one is walking along both. -/
theorem walkFrom_append (q : StateId) (u v : List Char) :
    a.walkFrom q (u ++ v) = match a.walkFrom q u with
      | .ok (.finished r) => a.walkFrom r v
      | other => other := by
  induction u generalizing q with
  | nil => rfl
  | cons c u ih =>
    rw [List.cons_append, walkFrom, walkFrom]
    cases a.state q with
    | error e => rfl
    | ok s =>
      dsimp only
      rcases s.soleTarget (.char c) with e | _ | r
      · rfl
      · rfl
      · exact ih r

/-- Whether a word is accepted is told by the walk along it. -/
theorem accepts_eq_walkFrom (hentry : a.entry = some p) (w : List Char) :
    a.accepts w = match a.walkFrom p w with
      | .error e => .error e
      | .ok x => a.endsAtExit x := by
  rcases h : a.walkFrom p w with e | x <;>
    simp only [accepts, walk, requireEntry_eq hentry, h]

/-! ## Paths beside the walk -/

/-- Where epsilon arcs lead from states to themselves only, a path without characters leads nowhere. -/
theorem eq_of_leads_nil_of_loops (hloop : ∀ q r, a.HasArc q .epsilon r → r = q)
    (h : a.Leads p [] q) : q = p := by
  generalize hword : [] = word at h
  induction h with
  | refl q => rfl
  | epsilon harc _ ih => exact (ih hword).trans (hloop _ _ harc)
  | char _ _ _ => cases hword

/-- **Paths go the only way**, where epsilon arcs lead from states to themselves only. -/
theorem OnlyWay.leads_of_leads (hloop : ∀ q r, a.HasArc q .epsilon r → r = q)
    (h : a.OnlyWay p u q) (hpath : a.Leads p (u ++ v) t) : a.Leads q v t := by
  induction h with
  | nil q => exact hpath
  | cons harc honly _ ih =>
    obtain ⟨p', r, hp', harc', hrest⟩ := hpath.exists_of_cons
    obtain rfl := eq_of_leads_nil_of_loops hloop hp'
    exact ih (honly r harc' ▸ hrest)

end Automaton

end PatternAutomata
