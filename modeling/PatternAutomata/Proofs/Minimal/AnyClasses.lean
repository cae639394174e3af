import PatternAutomata.Proofs.Automaton.Extensionality
import PatternAutomata.Proofs.Minimal.Determinism

/-!
# Quotients by any classes

The classes that `quotient` is given need not be those of a partition.  They may overlap, leave
states out and hold foreign ones.  The construction comes to an end all the same, and what it yields
is a deterministic automaton without useless states.

Where classes overlap, an old state may be renamed while it is still pending, and more states can be
added than there are classes.  But a class is only added for an old state that was not renamed
before, and then this state is renamed.  So there are never more states than old ones renamed
(`Sound.size_le`).  Renaming a pending state again does not matter for determinism either.  Its arcs
are drawn from the state it was added with, and as long as it is pending no arc leaves that state
(`Sound.pending_bare`).

Each round takes one representative from those that are pending and puts as many there as it adds
states (`round_cases`).  So the number of those pending, together with the number of states
that can still be added, falls with every round (`completes_complete`).
-/

namespace PatternAutomata

namespace Automaton

variable {a b : Automaton} {q : StateId}

/-- What can be reached is still reached when arcs are added. -/
theorem Reachable.mono (hentry : b.entry = a.entry)
    (harc : ∀ {p l q}, a.HasArc p l q → b.HasArc p l q) (h : a.Reachable q) : b.Reachable q := by
  obtain ⟨p, hp, hpq⟩ := h
  exact ⟨p, hentry.trans hp, hpq.lift id fun _ _ ⟨l, h⟩ => ⟨l, harc h⟩⟩

/-- Whether a letter leads to several states depends on the arcs only. -/
theorem FunctionalAt.congr (h : a.FunctionalAt q)
    (harc : ∀ {p l r}, b.HasArc p l r ↔ a.HasArc p l r) : b.FunctionalAt q :=
  fun l r r' hr hr' => h l r r' (harc.mp hr) (harc.mp hr')

end Automaton

namespace QuotientDraft

open Automaton

variable {old : Automaton} {classes : List (OrderedSet StateId)} {origin : Nat}
  {entry : Option StateId} {r r' : QuotientDraft} {p q new target : StateId} {l : Letter}
  {qs : List StateId} {s : State} {x y : Except Fault QuotientDraft} {budget : Nat}

/-! ## The loop without a budget -/

/-- One round: the arcs of a representative are followed. -/
def round (old : Automaton) (classes : List (OrderedSet StateId)) (q new : StateId)
    (r : QuotientDraft) : Except Fault QuotientDraft :=
  match old.state q with
  | .error e => .error e
  | .ok s => followArcs old classes s new r old.alphabet.toList

/-- The rounds come to an end with a result, when nothing is pending or when one of them fails. -/
inductive Completes (old : Automaton) (classes : List (OrderedSet StateId)) :
    QuotientDraft → Except Fault QuotientDraft → Prop where
  | done {r : QuotientDraft} (h : r.pending = []) : Completes old classes r (.ok r)
  | failed {r : QuotientDraft} {q new : StateId} {pending : List (StateId × StateId)} {e : Fault}
      (h : r.pending = (q, new) :: pending)
      (hround : round old classes q new { r with pending := pending } = .error e) :
      Completes old classes r (.error e)
  | next {r r' : QuotientDraft} {q new : StateId} {pending : List (StateId × StateId)}
      {x : Except Fault QuotientDraft} (h : r.pending = (q, new) :: pending)
      (hround : round old classes q new { r with pending := pending } = .ok r')
      (hrest : Completes old classes r' x) : Completes old classes r x

/-- There is one result at most. -/
theorem Completes.unique (h : Completes old classes r x) (h' : Completes old classes r y) :
    x = y := by
  induction h with
  | done hnil =>
    cases h' with
    | done _ => rfl
    | failed hcons _ | next hcons _ _ =>
      rw [hnil] at hcons
      cases hcons
  | failed hcons hround =>
    cases h' with
    | done hnil =>
      rw [hnil] at hcons
      cases hcons
    | failed hcons' hround' =>
      rw [hcons] at hcons'
      cases hcons'
      exact congrArg Except.error (Except.error.inj (hround.symm.trans hround'))
    | next hcons' hround' _ =>
      rw [hcons] at hcons'
      cases hcons'
      cases hround.symm.trans hround'
  | next hcons hround _ ih =>
    cases h' with
    | done hnil =>
      rw [hnil] at hcons
      cases hcons
    | failed hcons' hround' =>
      rw [hcons] at hcons'
      cases hcons'
      cases hround.symm.trans hround'
    | next hcons' hround' hrest =>
      rw [hcons] at hcons'
      cases hcons'
      cases hround.symm.trans hround'
      exact ih hrest

/-- What the construction can fail for. -/
inductive Failure (old : Automaton) (classes : List (OrderedSet StateId)) : Fault → Prop where
  | foreign {q : StateId} (hq : Covered classes q) (hold : q ∉ old) :
      Failure old classes (.foreignState q)
  | outside {q : StateId} (hold : q ∈ old) (hq : ¬ Covered classes q) :
      Failure old classes (.stateOutsideClasses q)
  | several {q : StateId} {l : Letter} {n : Nat} (h : old.ForksAt q l n) :
      Failure old classes (.severalTargets q l n)

/-! ## Drafts -/

/-- The members of the classes. -/
def members (classes : List (OrderedSet StateId)) : Finset StateId :=
  (classes.flatMap OrderedSet.toList).toFinset

theorem mem_members : q ∈ members classes ↔ Covered classes q := by
  rw [members, List.mem_toFinset]
  exact List.mem_flatMap

/-- The members of the classes that are renamed. -/
def renamedMembers (classes : List (OrderedSet StateId)) (r : QuotientDraft) : Finset StateId :=
  (members classes).filter fun q => (r.renamed.lookup q).isSome

/-- What a draft is like at any time, whatever the classes are. -/
structure Sound (old : Automaton) (classes : List (OrderedSet StateId)) (origin : Nat)
    (entry : Option StateId) (r : QuotientDraft) : Prop where
  wellFormed : r.automaton.WellFormed
  origin_eq : r.automaton.origin = origin
  alphabet_eq : r.automaton.alphabet = old.alphabet
  entry_eq : r.automaton.entry = entry
  functionalAt : ∀ p, r.automaton.FunctionalAt p
  renamed_mem : ∀ {q new}, r.renamed.lookup q = some new → new ∈ r.automaton
  /-- Each state was added for an old one that was not renamed before. -/
  size_le : r.automaton.size ≤ (renamedMembers classes r).card
  pending_covered : ∀ x ∈ r.pending, Covered classes x.1
  pending_mem : ∀ x ∈ r.pending, x.2 ∈ r.automaton
  /-- No arc leaves a state before its representative is dealt with. -/
  pending_bare : ∀ x ∈ r.pending, ∀ l t, ¬ r.automaton.HasArc x.2 l t
  nodup_pending : (r.pending.map Prod.snd).Nodup

/-- Every state can be reached. -/
def Rooted (r : QuotientDraft) : Prop := ∀ p ∈ r.automaton, r.automaton.Reachable p

theorem Sound.size_le_members (h : Sound old classes origin entry r) :
    r.automaton.size ≤ (members classes).card :=
  h.size_le.trans (Finset.card_le_card (Finset.filter_subset _ _))

/-- Drawing the first arc on a letter that leaves a state which is not pending. -/
theorem Sound.exists_addArc (h : Sound old classes origin entry r) (hl : l ∈ old.alphabet)
    (hp : p ∈ r.automaton) (htarget : target ∈ r.automaton)
    (hbare : ∀ t, ¬ r.automaton.HasArc p l t) (hpending : ∀ x ∈ r.pending, x.2 ≠ p) :
    ∃ b, r.automaton.addArc p l target = .ok b ∧
      Sound old classes origin entry { r with automaton := b } := by
  obtain ⟨b, hb⟩ := Automaton.exists_addArc (h.alphabet_eq ▸ hl) hp htarget
  have hsame := sameStates_addArc hb
  refine ⟨b, hb, ?_⟩
  exact {
    wellFormed := h.wellFormed.addArc hb
    origin_eq := hsame.origin_eq.trans h.origin_eq
    alphabet_eq := hsame.alphabet_eq.trans h.alphabet_eq
    entry_eq := (entry_addArc hb).trans h.entry_eq
    functionalAt := fun p' m t t' ht ht' => by
      rcases (hasArc_addArc hb).mp ht with ht | ⟨rfl, rfl, rfl⟩
      · rcases (hasArc_addArc hb).mp ht' with ht' | ⟨rfl, rfl, rfl⟩
        · exact h.functionalAt p' m t t' ht ht'
        · exact absurd ht (hbare t)
      · rcases (hasArc_addArc hb).mp ht' with ht' | ⟨-, -, rfl⟩
        · exact absurd ht' (hbare t')
        · rfl
    renamed_mem := fun hq => hsame.mem_iff.mpr (h.renamed_mem hq)
    size_le := hsame.size_eq.trans_le h.size_le
    pending_covered := h.pending_covered
    pending_mem := fun x hx => hsame.mem_iff.mpr (h.pending_mem x hx)
    pending_bare := fun x hx m t ht => by
      rcases (hasArc_addArc hb).mp ht with ht | ⟨hx', -⟩
      · exact h.pending_bare x hx m t ht
      · exact hpending x hx hx'
    nodup_pending := h.nodup_pending }

/-! ## Adding classes -/

theorem rename_cases (old : Automaton) (qs : List StateId) (hnew : new ∈ r.automaton) :
    (∃ r', rename old new r qs = .ok r' ∧ Renames old new qs r r') ∨
      ∃ q ∈ qs, q ∉ old ∧ rename old new r qs = .error (.foreignState q) := by
  by_cases hqs : ∀ q ∈ qs, q ∈ old
  · exact Or.inl (exists_rename hqs hnew)
  refine Or.inr ?_
  induction qs generalizing r with
  | nil => exact absurd (fun q hq => absurd hq List.not_mem_nil) hqs
  | cons q qs ih =>
    by_cases hq : q ∈ old
    · obtain ⟨s, hs⟩ := exists_state hq
      have hrest : ¬ ∀ q ∈ qs, q ∈ old := fun hall => hqs fun q' hq' => by
        rcases List.mem_cons.mp hq' with rfl | hq'
        · exact hq
        · exact hall q' hq'
      have hnext : ∃ r₁ : QuotientDraft, new ∈ r₁.automaton ∧
          rename old new r (q :: qs) = rename old new r₁ qs := by
        by_cases hexit : s.isExit = true
        · obtain ⟨b, hb⟩ := exists_setExit hnew
          exact ⟨⟨b, (q, new) :: r.renamed, r.pending⟩, (sameStates_setExit hb).mem_iff.mpr hnew,
            by simp only [rename, hs, hexit, if_true, hb]⟩
        · exact ⟨⟨r.automaton, (q, new) :: r.renamed, r.pending⟩, hnew, by
            simp only [rename, hs, hexit]; rfl⟩
      obtain ⟨r₁, hnew₁, hrename⟩ := hnext
      obtain ⟨q', hq', hold, hfail⟩ := ih hnew₁ hrest
      exact ⟨q', List.mem_cons_of_mem _ hq', hold, hrename.trans hfail⟩
    · exact ⟨q, List.mem_cons_self, hq, by simp only [rename, state_eq_error hq]⟩

/-- Renaming a member of the classes that was not renamed before. -/
theorem card_renamedMembers_lt (hren : Renames old new qs r r') (hcovered : Covered classes q)
    (hq : q ∈ qs) (hnone : r.renamed.lookup q = none) :
    (renamedMembers classes r).card < (renamedMembers classes r').card := by
  have hnot : q ∉ renamedMembers classes r := fun hmem => by
    rw [renamedMembers, Finset.mem_filter, hnone] at hmem
    cases hmem.2
  rw [Nat.lt_iff_add_one_le, ← Finset.card_insert_of_notMem hnot]
  refine Finset.card_le_card fun t ht => ?_
  rw [renamedMembers, Finset.mem_filter, mem_members, hren.lookup_eq]
  rcases Finset.mem_insert.mp ht with rfl | ht
  · exact ⟨hcovered, by rw [if_pos hq]; rfl⟩
  · obtain ⟨htmem, htrenamed⟩ := Finset.mem_filter.mp ht
    refine ⟨mem_members.mp htmem, ?_⟩
    split
    · rfl
    · exact htrenamed

/-- What a draft gains by adding the class of an old state, or by finding that it has been added: at
most one state, without arcs, and just as many representatives that are pending. -/
structure Grows (r r' : QuotientDraft) (target : StateId) : Prop where
  mem_iff : ∀ {p}, p ∈ r'.automaton ↔ p ∈ r.automaton ∨ p = target
  hasArc_iff : ∀ {p l t}, r'.automaton.HasArc p l t ↔ r.automaton.HasArc p l t
  pending : ∀ x ∈ r'.pending, x ∈ r.pending ∨ x.2 ∉ r.automaton
  balance : r'.pending.length + r.automaton.size = r.pending.length + r'.automaton.size

theorem addClass_of_not_covered (h : ¬ Covered classes q) :
    addClass old classes r q = .error (.stateOutsideClasses q) := by
  have hclass : classOf classes q = none :=
    List.find?_eq_none.mpr fun c hc hq => h ⟨c, hc, of_decide_eq_true hq⟩
  simp only [addClass, hclass]

/-- **A class is added for a state that was not renamed before**, and then it is. -/
theorem addClass_cases (hε : Letter.epsilon ∉ old.alphabet)
    (h : Sound old classes origin entry r) (hcovered : Covered classes q)
    (hq : r.renamed.lookup q = none) :
    (∃ r', addClass old classes r q = .ok (r', r.automaton.nextId) ∧
      Sound old classes origin entry r' ∧ Grows r r' r.automaton.nextId) ∨
    ∃ t, Covered classes t ∧ t ∉ old ∧ addClass old classes r q = .error (.foreignState t) := by
  obtain ⟨c, hclass, hc, hqc⟩ := classOf_eq_some hcovered
  rcases rename_cases (r := { r with automaton := r.automaton.addState }) old c.toList
      (nextId_mem_addState r.automaton) with
    ⟨r', hr', hren⟩ | ⟨t, ht, htold, hfail⟩
  · have harc : ∀ {p l t}, r'.automaton.HasArc p l t ↔ r.automaton.HasArc p l t := by
      intro p l t
      rw [hren.hasArc_iff, hasArc_addState, h.alphabet_eq]
      exact or_iff_left fun hloop => hε hloop.1
    have hmem : ∀ {p}, p ∈ r'.automaton ↔ p ∈ r.automaton ∨ p = r.automaton.nextId :=
      hren.sameStates.mem_iff.trans mem_addState
    have hsize : r'.automaton.size = r.automaton.size + 1 :=
      hren.sameStates.size_eq.trans (size_addState _)
    have hpending : r'.pending = r.pending := hren.pending_eq
    have hfresh := nextId_not_mem r.automaton
    refine Or.inl ⟨{ r' with pending := (q, r.automaton.nextId) :: r'.pending },
      by simp only [addClass, hclass, hr'], ?_, ⟨hmem, harc, ?_, ?_⟩⟩
    · exact {
        wellFormed := hren.wellFormed h.wellFormed.addState
        origin_eq := hren.sameStates.origin_eq.trans h.origin_eq
        alphabet_eq := hren.sameStates.alphabet_eq.trans h.alphabet_eq
        entry_eq := hren.entry_eq.trans h.entry_eq
        functionalAt := fun p => (h.functionalAt p).congr harc
        renamed_mem := fun {t new} ht => by
          rw [hren.lookup_eq] at ht
          split at ht
          · cases ht
            exact hmem.mpr (Or.inr rfl)
          · exact hmem.mpr (Or.inl (h.renamed_mem ht))
        size_le := by
          have hlt := card_renamedMembers_lt hren hcovered hqc hq
          have hle := h.size_le
          show r'.automaton.size ≤ (renamedMembers classes r').card
          exact hsize.trans_le (Nat.succ_le_of_lt (hle.trans_lt hlt))
        pending_covered := fun x hx => by
          rcases List.mem_cons.mp hx with rfl | hx
          · exact hcovered
          · exact h.pending_covered x (hpending ▸ hx)
        pending_mem := fun x hx => by
          rcases List.mem_cons.mp hx with rfl | hx
          · exact hmem.mpr (Or.inr rfl)
          · exact hmem.mpr (Or.inl (h.pending_mem x (hpending ▸ hx)))
        pending_bare := fun x hx m t ht => by
          rw [harc] at ht
          rcases List.mem_cons.mp hx with rfl | hx
          · exact hfresh ht.source_mem
          · exact h.pending_bare x (hpending ▸ hx) m t ht
        nodup_pending := by
          rw [List.map_cons, hpending]
          refine List.nodup_cons.mpr ⟨fun hnext => ?_, h.nodup_pending⟩
          obtain ⟨x, hx, hx'⟩ := List.mem_map.mp hnext
          have hmem' := h.pending_mem x hx
          rw [hx'] at hmem'
          exact hfresh hmem' }
    · intro x hx
      rcases List.mem_cons.mp hx with rfl | hx
      · exact Or.inr hfresh
      · exact Or.inl (hpending ▸ hx)
    · rw [List.length_cons, hpending, hsize]
      omega
  · exact Or.inr ⟨t, ⟨c, hc, ht⟩, htold, by simp only [addClass, hclass, hfail]⟩

theorem resolve_cases (hε : Letter.epsilon ∉ old.alphabet)
    (h : Sound old classes origin entry r) (hold : q ∈ old) :
    (∃ r' target, resolve old classes r q = .ok (r', target) ∧
      Sound old classes origin entry r' ∧ Grows r r' target) ∨
    ∃ e, resolve old classes r q = .error e ∧ Failure old classes e := by
  cases hlookup : r.renamed.lookup q with
  | some new =>
    refine Or.inl ⟨r, new, by simp only [resolve, hlookup], h,
      ⟨?_, Iff.rfl, fun x hx => Or.inl hx, rfl⟩⟩
    intro p
    constructor
    · exact Or.inl
    · rintro (hp | rfl)
      · exact hp
      · exact h.renamed_mem hlookup
  | none =>
    simp only [resolve, hlookup]
    by_cases hcovered : Covered classes q
    · rcases addClass_cases hε h hcovered hlookup with ⟨r', hr', h', hgrows⟩ | ⟨t, ht, htold, hfail⟩
      · exact Or.inl ⟨r', _, hr', h', hgrows⟩
      · exact Or.inr ⟨_, hfail, .foreign ht htold⟩
    · exact Or.inr ⟨_, addClass_of_not_covered hcovered, .outside hold hcovered⟩

/-! ## Rounds -/

/-- Drawing one arc of a representative.  If this adds a state, the arc leads there. -/
theorem drawArc_cases (hε : Letter.epsilon ∉ old.alphabet) (h : Sound old classes origin entry r)
    (hrooted : r.Rooted) (hl : l ∈ old.alphabet) (hq : q ∈ old) (hnew : new ∈ r.automaton)
    (hpending : ∀ x ∈ r.pending, x.2 ≠ new) (hbare : ∀ t, ¬ r.automaton.HasArc new l t) :
    (∃ r₁ target b, resolve old classes r q = .ok (r₁, target) ∧
      r₁.automaton.addArc new l target = .ok b ∧
      Sound old classes origin entry { r₁ with automaton := b } ∧
      Rooted { r₁ with automaton := b } ∧ new ∈ b ∧ (∀ x ∈ r₁.pending, x.2 ≠ new) ∧
      (∀ m t, b.HasArc new m t → r.automaton.HasArc new m t ∨ m = l) ∧
      r₁.pending.length + r.automaton.size = r.pending.length + b.size) ∨
    ∃ e, resolve old classes r q = .error e ∧ Failure old classes e := by
  rcases resolve_cases hε h hq with ⟨r₁, target, hr₁, h₁, hgrows⟩ | hfails
  · have hnew₁ : new ∈ r₁.automaton := hgrows.mem_iff.mpr (Or.inl hnew)
    have hpending₁ : ∀ x ∈ r₁.pending, x.2 ≠ new := fun x hx heq =>
      (hgrows.pending x hx).elim (fun hx => hpending x hx heq) fun hx => hx (heq ▸ hnew)
    obtain ⟨b, hb, h₂⟩ := h₁.exists_addArc hl hnew₁ (hgrows.mem_iff.mpr (Or.inr rfl))
      (fun t ht => hbare t (hgrows.hasArc_iff.mp ht)) hpending₁
    have hsame := sameStates_addArc hb
    have hkeep : ∀ {p m t}, r.automaton.HasArc p m t → b.HasArc p m t := fun hp =>
      (hasArc_addArc hb).mpr (Or.inl (hgrows.hasArc_iff.mpr hp))
    have hold : ∀ p ∈ r.automaton, b.Reachable p := fun p hp =>
      (hrooted p hp).mono (h₂.entry_eq.trans h.entry_eq.symm) hkeep
    refine Or.inl ⟨r₁, target, b, hr₁, hb, h₂, ?_, hsame.mem_iff.mpr hnew₁, hpending₁, ?_, ?_⟩
    · intro p hp
      rcases hgrows.mem_iff.mp (hsame.mem_iff.mp hp) with hp | rfl
      · exact hold p hp
      · exact (hold new hnew).tail ((hasArc_addArc hb).mpr (Or.inr ⟨rfl, rfl, rfl⟩))
    · intro m t ht
      rcases (hasArc_addArc hb).mp ht with ht | ⟨-, rfl, -⟩
      · exact Or.inl (hgrows.hasArc_iff.mp ht)
      · exact Or.inr rfl
    · rw [hsame.size_eq]
      exact hgrows.balance
  · exact Or.inr hfails

/-- **A round draws the arcs of a representative**, so that what it adds can be reached. -/
theorem followArcs_cases (ha : old.WellFormed) (hε : Letter.epsilon ∉ old.alphabet)
    (hs : old.state? q = some s) {letters : List Letter} (hnodup : letters.Nodup)
    (hletters : ∀ l ∈ letters, l ∈ old.alphabet) (h : Sound old classes origin entry r)
    (hrooted : r.Rooted) (hnew : new ∈ r.automaton) (hpending : ∀ x ∈ r.pending, x.2 ≠ new)
    (hbare : ∀ l ∈ letters, ∀ t, ¬ r.automaton.HasArc new l t) :
    (∃ r', followArcs old classes s new r letters = .ok r' ∧
      Sound old classes origin entry r' ∧ r'.Rooted ∧
      r'.pending.length + r.automaton.size = r.pending.length + r'.automaton.size) ∨
    ∃ e, followArcs old classes s new r letters = .error e ∧ Failure old classes e := by
  induction letters generalizing r with
  | nil => exact Or.inl ⟨r, rfl, h, hrooted, rfl⟩
  | cons l letters ih =>
    obtain ⟨hl, hnodup⟩ := List.nodup_cons.mp hnodup
    obtain ⟨hold, hletters⟩ := List.forall_mem_cons.mp hletters
    obtain ⟨hbare, hbares⟩ := List.forall_mem_cons.mp hbare
    rcases soleTarget_spec ha hs l with ⟨hsole, -⟩ | ⟨t, hsole, ht, -⟩ | ⟨n, hsole, hfork⟩
    · simp only [followArcs, hsole]
      exact ih hnodup hletters h hrooted hnew hpending hbares
    · simp only [followArcs, hsole]
      rcases drawArc_cases hε h hrooted hold (ha.target_mem ht) hnew hpending hbare with
        ⟨r₁, target, b, hr₁, hb, h₁, hrooted₁, hnew₁, hpending₁, harcs, hbalance⟩ |
        ⟨e, hfail, hfailure⟩
      · simp only [hr₁, hb]
        have hbares₁ : ∀ m ∈ letters, ∀ t, ¬ b.HasArc new m t := by
          intro m hm t ht
          rcases harcs m t ht with ht | rfl
          · exact hbares m hm t ht
          · exact hl hm
        rcases ih hnodup hletters h₁ hrooted₁ hnew₁ hpending₁ hbares₁ with
          ⟨r', hr', h', hrooted', hbalance'⟩ | hfails
        · exact Or.inl ⟨r', hr', h', hrooted', by simp only at hbalance'; omega⟩
        · exact Or.inr hfails
      · exact Or.inr ⟨e, by simp only [hfail], hfailure⟩
    · exact Or.inr ⟨_, by simp only [followArcs, hsole], .several hfork⟩

/-- Taking the first representative from those that are pending. -/
theorem Sound.pop (h : Sound old classes origin entry r) {pending : List (StateId × StateId)}
    (hpending : r.pending = (q, new) :: pending) :
    Sound old classes origin entry { r with pending := pending } ∧ Covered classes q ∧
      new ∈ r.automaton ∧ (∀ l t, ¬ r.automaton.HasArc new l t) ∧ ∀ x ∈ pending, x.2 ≠ new := by
  have hfirst : (q, new) ∈ r.pending := hpending ▸ List.mem_cons_self
  have hmem : ∀ x ∈ pending, x ∈ r.pending := fun x hx => hpending ▸ List.mem_cons_of_mem _ hx
  have hnodup := h.nodup_pending
  rw [hpending, List.map_cons, List.nodup_cons] at hnodup
  refine ⟨{ h with
      pending_covered := fun x hx => h.pending_covered x (hmem x hx)
      pending_mem := fun x hx => h.pending_mem x (hmem x hx)
      pending_bare := fun x hx => h.pending_bare x (hmem x hx)
      nodup_pending := hnodup.2 },
    h.pending_covered _ hfirst, h.pending_mem _ hfirst, h.pending_bare _ hfirst, ?_⟩
  exact fun x hx heq => hnodup.1 (List.mem_map.mpr ⟨x, hx, heq⟩)

/-- **A round takes one representative and puts as many there as it adds states.** -/
theorem round_cases (ha : old.WellFormed) (hε : Letter.epsilon ∉ old.alphabet)
    (h : Sound old classes origin entry r) (hrooted : r.Rooted)
    {pending : List (StateId × StateId)} (hpending : r.pending = (q, new) :: pending) :
    (∃ r', round old classes q new { r with pending := pending } = .ok r' ∧
      Sound old classes origin entry r' ∧ r'.Rooted ∧
      r'.pending.length + r.automaton.size = pending.length + r'.automaton.size) ∨
    ∃ e, round old classes q new { r with pending := pending } = .error e ∧
      Failure old classes e := by
  obtain ⟨hpopped, hcovered, hnew, hbare, hothers⟩ := h.pop hpending
  by_cases hq : q ∈ old
  · obtain ⟨s, hs⟩ := exists_state hq
    simp only [round, hs]
    exact followArcs_cases ha hε (state_eq_ok_iff.mp hs) old.alphabet.nodup (fun l hl => hl)
      hpopped hrooted hnew hothers fun l _ => hbare l
  · exact Or.inr ⟨_, by simp only [round, state_eq_error hq], .foreign hcovered hq⟩

theorem complete_succ {pending : List (StateId × StateId)}
    (hpending : r.pending = (q, new) :: pending) :
    complete old classes (budget + 1) r =
      match round old classes q new { r with pending := pending } with
      | .error e => .error e
      | .ok r' => complete old classes budget r' := by
  rw [complete, hpending]
  cases hs : old.state q with
  | error e => simp only [round, hs]
  | ok s =>
    cases hround : followArcs old classes s new { r with pending := pending }
        old.alphabet.toList with
    | error e => simp only [round, hs, hround]
    | ok r' => simp only [round, hs, hround]

/-- What is true of the result of the construction. -/
def Ends (old : Automaton) (classes : List (OrderedSet StateId)) (origin : Nat)
    (entry : Option StateId) : Except Fault QuotientDraft → Prop
  | .ok r => Sound old classes origin entry r ∧ r.Rooted
  | .error e => Failure old classes e

/-- **The budget is never spent.**  With every round the number of representatives that are pending
falls, together with the number of states that can still be added. -/
theorem completes_complete (ha : old.WellFormed) (hε : Letter.epsilon ∉ old.alphabet)
    (h : Sound old classes origin entry r) (hrooted : r.Rooted)
    (hbudget : r.pending.length + (members classes).card ≤ budget + r.automaton.size) :
    Completes old classes r (complete old classes budget r) ∧
      Ends old classes origin entry (complete old classes budget r) := by
  induction budget generalizing r with
  | zero =>
    have hsize := h.size_le_members
    have hnil : r.pending = [] := List.length_eq_zero_iff.mp (by omega)
    exact ⟨.done hnil, h, hrooted⟩
  | succ budget ih =>
    rcases hpending : r.pending with _ | ⟨⟨q, new⟩, pending⟩
    · simp only [complete, hpending]
      exact ⟨.done hpending, h, hrooted⟩
    · rw [complete_succ hpending]
      rcases round_cases ha hε h hrooted hpending with
        ⟨r', hr', h', hrooted', hbalance⟩ | ⟨e, hfail, hfailure⟩
      · rw [hr']
        have hbudget' : r'.pending.length + (members classes).card ≤
            budget + r'.automaton.size := by
          rw [hpending, List.length_cons] at hbudget
          omega
        obtain ⟨hcompletes, hends⟩ := ih h' hrooted' hbudget'
        exact ⟨.next hpending hr' hcompletes, hends⟩
      · rw [hfail]
        exact ⟨.failed hpending hfail, hfailure⟩

theorem sound_empty (old : Automaton) (classes : List (OrderedSet StateId)) (origin : Nat) :
    Sound old classes origin none ⟨empty origin old.alphabet, [], []⟩ where
  wellFormed := wellFormed_empty _ _
  origin_eq := rfl
  alphabet_eq := rfl
  entry_eq := rfl
  functionalAt _ _ _ _ h := absurd h.source_mem (not_mem_empty _ _)
  renamed_mem h := by cases h
  size_le := Nat.zero_le _
  pending_covered _ h := absurd h List.not_mem_nil
  pending_mem _ h := absurd h List.not_mem_nil
  pending_bare _ h := absurd h List.not_mem_nil
  nodup_pending := List.nodup_nil

/-- Designating the entry. -/
theorem Sound.exists_setEntry (h : Sound old classes origin entry r) (hq : q ∈ r.automaton) :
    ∃ b, r.automaton.setEntry q = .ok b ∧
      Sound old classes origin (some q) { r with automaton := b } := by
  obtain ⟨b, hb⟩ := Automaton.exists_setEntry hq
  have hsame := sameStates_setEntry hb
  have harc : ∀ {p l t}, b.HasArc p l t ↔ r.automaton.HasArc p l t :=
    hasArc_setEntry h.wellFormed hb
  exact ⟨b, hb, {
    wellFormed := h.wellFormed.setEntry hb
    origin_eq := hsame.origin_eq.trans h.origin_eq
    alphabet_eq := hsame.alphabet_eq.trans h.alphabet_eq
    entry_eq := entry_setEntry hb
    functionalAt := fun p => (h.functionalAt p).congr harc
    renamed_mem := fun hq => hsame.mem_iff.mpr (h.renamed_mem hq)
    size_le := hsame.size_eq.trans_le h.size_le
    pending_covered := h.pending_covered
    pending_mem := fun x hx => hsame.mem_iff.mpr (h.pending_mem x hx)
    pending_bare := fun x hx l t ht => h.pending_bare x hx l t (harc.mp ht)
    nodup_pending := h.nodup_pending }⟩

end QuotientDraft

/-! ## The quotient -/

namespace Automaton

open QuotientDraft

variable {a : Automaton} {classes : List (OrderedSet StateId)} {origin : Nat}

/-- The draft with the class of the entry, before the first round. -/
def openingDraft (origin : Nat) (a : Automaton) (classes : List (OrderedSet StateId)) :
    Except Fault QuotientDraft :=
  match a.flaggedEntry (classes.flatMap OrderedSet.toList) with
  | .error e => .error e
  | .ok q =>
    match addClass a classes ⟨empty origin a.alphabet, [], []⟩ q with
    | .error e => .error e
    | .ok (r, entry) =>
      match r.automaton.setEntry entry with
      | .error e => .error e
      | .ok b => .ok { r with automaton := b }

theorem quotient_eq (origin : Nat) (a : Automaton) (classes : List (OrderedSet StateId)) :
    a.quotient origin classes =
      match openingDraft origin a classes with
      | .error e => .error e
      | .ok r => (complete a classes (classes.flatMap OrderedSet.toList).length r).map
          QuotientDraft.automaton := by
  unfold quotient openingDraft
  cases hq : a.flaggedEntry (classes.flatMap OrderedSet.toList) with
  | error e => simp only [hq]
  | ok q =>
    cases hr : addClass a classes ⟨empty origin a.alphabet, [], []⟩ q with
    | error e => simp only [hq, hr]
    | ok draft =>
      cases hb : draft.1.automaton.setEntry draft.2 with
      | error e => simp only [hq, hr, hb]
      | ok b => simp only [hq, hr, hb]

/-- The construction of a quotient comes to an end with a result. -/
inductive Constructs (origin : Nat) (a : Automaton) (classes : List (OrderedSet StateId)) :
    Except Fault Automaton → Prop where
  | unopened {e : Fault} (h : openingDraft origin a classes = .error e) :
      Constructs origin a classes (.error e)
  | completed {r : QuotientDraft} {x : Except Fault QuotientDraft}
      (h : openingDraft origin a classes = .ok r) (hrounds : Completes a classes r x) :
      Constructs origin a classes (x.map QuotientDraft.automaton)

theorem Constructs.unique {x y : Except Fault Automaton} (h : Constructs origin a classes x)
    (h' : Constructs origin a classes y) : x = y := by
  cases h with
  | unopened hopen =>
    cases h' with
    | unopened hopen' => exact congrArg Except.error (Except.error.inj (hopen.symm.trans hopen'))
    | completed hopen' _ => cases hopen.symm.trans hopen'
  | completed hopen hrounds =>
    cases h' with
    | unopened hopen' => cases hopen.symm.trans hopen'
    | completed hopen' hrounds' =>
      cases hopen.symm.trans hopen'
      rw [hrounds.unique hrounds']

theorem flaggedEntry_cases (ha : a.WellFormed) (qs : List StateId) :
    (∃ q ∈ qs, a.flaggedEntry qs = .ok q ∧ a.entry = some q) ∨
    (a.flaggedEntry qs = .error .entryOutsideClasses ∧ ∀ q ∈ qs, a.entry ≠ some q) ∨
    ∃ q ∈ qs, q ∉ a ∧ a.flaggedEntry qs = .error (.foreignState q) := by
  induction qs with
  | nil => exact Or.inr (Or.inl ⟨rfl, fun q hq => absurd hq List.not_mem_nil⟩)
  | cons q qs ih =>
    by_cases hq : q ∈ a
    · obtain ⟨s, hs⟩ := exists_state hq
      have hflag := ha.isEntry_iff (state_eq_ok_iff.mp hs)
      by_cases hentry : a.entry = some q
      · refine Or.inl ⟨q, List.mem_cons_self, ?_, hentry⟩
        simp only [flaggedEntry, hs, hflag.mpr hentry, if_true]
      · simp only [flaggedEntry, hs, hflag, if_neg hentry]
        rcases ih with ⟨p, hp, hfound, hpentry⟩ | ⟨hfail, hnone⟩ | ⟨p, hp, hpold, hfail⟩
        · exact Or.inl ⟨p, List.mem_cons_of_mem _ hp, hfound, hpentry⟩
        · refine Or.inr (Or.inl ⟨hfail, fun p hp => ?_⟩)
          rcases List.mem_cons.mp hp with rfl | hp
          · exact hentry
          · exact hnone p hp
        · exact Or.inr (Or.inr ⟨p, List.mem_cons_of_mem _ hp, hpold, hfail⟩)
    · exact Or.inr (Or.inr ⟨q, List.mem_cons_self, hq, by
        simp only [flaggedEntry, state_eq_error hq]⟩)

theorem openingDraft_cases (ha : a.WellFormed) (hε : Letter.epsilon ∉ a.alphabet) (origin : Nat)
    (classes : List (OrderedSet StateId)) :
    (∃ r p, openingDraft origin a classes = .ok r ∧ a.entry = some p ∧ Covered classes p ∧
      Sound a classes origin (some ⟨0, origin⟩) r ∧ r.Rooted ∧
      r.pending.length = r.automaton.size) ∨
    (openingDraft origin a classes = .error .entryOutsideClasses ∧
      ∀ q, Covered classes q → a.entry ≠ some q) ∨
    ∃ q, Covered classes q ∧ q ∉ a ∧
      openingDraft origin a classes = .error (.foreignState q) := by
  have hcovered : ∀ q, q ∈ classes.flatMap OrderedSet.toList ↔ Covered classes q := fun q =>
    List.mem_flatMap
  unfold openingDraft
  rcases flaggedEntry_cases ha (classes.flatMap OrderedSet.toList) with
    ⟨p, hp, hfound, hentry⟩ | ⟨hfail, hnone⟩ | ⟨q, hq, hqold, hfail⟩
  · simp only [hfound]
    rw [hcovered] at hp
    rcases addClass_cases hε (sound_empty a classes origin) hp rfl with
      ⟨r, hr, h, hgrows⟩ | ⟨t, ht, htold, hfail⟩
    · obtain ⟨b, hb, h'⟩ := h.exists_setEntry (hgrows.mem_iff.mpr (Or.inr rfl))
      simp only [hr, hb]
      refine Or.inl ⟨_, p, rfl, hentry, hp, h', fun q hq => ?_, ?_⟩
      · have hq' := hgrows.mem_iff.mp ((sameStates_setEntry hb).mem_iff.mp hq)
        obtain rfl := hq'.resolve_left (not_mem_empty _ _)
        exact ⟨_, entry_setEntry hb, .refl⟩
      · have hbalance := hgrows.balance
        have hsize : b.size = r.automaton.size := (sameStates_setEntry hb).size_eq
        simp only [size_empty, List.length_nil] at hbalance
        show r.pending.length = b.size
        omega
    · simp only [hfail]
      exact Or.inr (Or.inr ⟨t, ht, htold, rfl⟩)
  · refine Or.inr (Or.inl ⟨?_, fun q hq => hnone q ((hcovered q).mpr hq)⟩)
    simp only [hfail]
  · simp only [hfail]
    exact Or.inr (Or.inr ⟨q, (hcovered q).mp hq, hqold, rfl⟩)

/-- What the construction comes to. -/
theorem quotient_cases (ha : a.WellFormed) (hε : Letter.epsilon ∉ a.alphabet) (origin : Nat)
    (classes : List (OrderedSet StateId)) :
    Constructs origin a classes (a.quotient origin classes) ∧
    ((∃ r p, a.quotient origin classes = .ok r.automaton ∧ a.entry = some p ∧ Covered classes p ∧
        Sound a classes origin (some ⟨0, origin⟩) r ∧ r.Rooted) ∨
      (a.quotient origin classes = .error .entryOutsideClasses ∧
        ∀ q, Covered classes q → a.entry ≠ some q) ∨
      ∃ e, a.quotient origin classes = .error e ∧ Failure a classes e ∧
        ((∃ p, a.entry = some p ∧ Covered classes p) ∨ ∃ q, Covered classes q ∧ q ∉ a)) := by
  have hquotient := quotient_eq origin a classes
  rcases openingDraft_cases ha hε origin classes with
    ⟨r, p, hr, hentry, hp, h, hrooted, hlength⟩ | ⟨hfail, hnone⟩ | ⟨q, hq, hqold, hfail⟩
  · have hcard : (members classes).card ≤ (classes.flatMap OrderedSet.toList).length :=
      List.toFinset_card_le _
    have hbudget : r.pending.length + (members classes).card ≤
        (classes.flatMap OrderedSet.toList).length + r.automaton.size := by omega
    obtain ⟨hcompletes, hends⟩ := completes_complete ha hε h hrooted hbudget
    simp only [hr] at hquotient
    rw [hquotient]
    refine ⟨.completed hr hcompletes, ?_⟩
    cases hresult : complete a classes (classes.flatMap OrderedSet.toList).length r with
    | ok r' =>
      rw [hresult] at hends
      exact Or.inl ⟨r', p, rfl, hentry, hp, hends⟩
    | error e =>
      rw [hresult] at hends
      exact Or.inr (Or.inr ⟨e, rfl, hends, Or.inl ⟨p, hentry, hp⟩⟩)
  · simp only [hfail] at hquotient
    rw [hquotient]
    exact ⟨.unopened hfail, Or.inr (Or.inl ⟨rfl, hnone⟩)⟩
  · simp only [hfail] at hquotient
    rw [hquotient]
    exact ⟨.unopened hfail, Or.inr (Or.inr ⟨_, rfl, .foreign hq hqold, Or.inr ⟨q, hq, hqold⟩⟩)⟩

/-- **Whatever the classes are, the construction comes to an end**, provided that epsilon is not in
the alphabet.  If it yields an automaton, this is a well-formed one over the same alphabet, with no
more states than the classes have members.  Its only entry is its first state, all its states can be
reached, and each letter leads from a state to one other at most.  If the members of the classes are
states of the old automaton, the construction fails only for want of a class with the entry, which
it does exactly if there is none, for a state that is in no class, or for a state with several
targets on one letter. -/
theorem quotient_any_classes (ha : a.Built) (hε : Letter.epsilon ∉ a.alphabet) (origin : Nat)
    (classes : List (OrderedSet StateId)) :
    (∀ x, Constructs origin a classes x ↔ a.quotient origin classes = x) ∧
    (∀ m, a.quotient origin classes = .ok m → m.Built ∧
      m.alphabet = a.alphabet ∧ m.size ≤ (members classes).card ∧
      m.entry = some ⟨0, m.origin⟩ ∧
      (∀ q s, m.state? q = some s → (s.isEntry = true ↔ q = ⟨0, m.origin⟩)) ∧
      (∀ q ∈ m, m.Reachable q) ∧ ∀ q, m.FunctionalAt q) ∧
    ((∀ q, Covered classes q → q ∈ a) →
      (a.quotient origin classes = .error .entryOutsideClasses ↔
        ∀ p, a.entry = some p → ¬ Covered classes p) ∧
      ∀ e, a.quotient origin classes = .error e → e = .entryOutsideClasses ∨
        (∃ q ∈ a, e = .stateOutsideClasses q ∧ ¬ Covered classes q) ∨
        ∃ q l n, e = .severalTargets q l n ∧ a.ForksAt q l n) := by
  obtain ⟨hconstructs, hcases⟩ := quotient_cases ha.wellFormed hε origin classes
  refine ⟨fun x => ⟨hconstructs.unique, fun h => h ▸ hconstructs⟩, fun m hm => ?_, fun hown => ?_⟩
  · rcases hcases with ⟨r, p, hr, -, -, h, hrooted⟩ | ⟨hfail, -⟩ | ⟨e, hfail, -⟩
    · rw [hm] at hr
      cases hr
      have hentry : r.automaton.entry = some ⟨0, r.automaton.origin⟩ := by
        rw [h.entry_eq, h.origin_eq]
      refine ⟨built_iff_wellFormed.mpr h.wellFormed, h.alphabet_eq, h.size_le_members, hentry,
        fun q s hs => ?_, hrooted, h.functionalAt⟩
      rw [h.wellFormed.isEntry_iff hs, hentry, Option.some.injEq, eq_comm]
    · rw [hm] at hfail
      cases hfail
    · rw [hm] at hfail
      cases hfail
  · rcases hcases with ⟨r, p, hr, hentry, hp, -⟩ | ⟨hfail, hnone⟩ | ⟨e, hfail, hfailure, hwhy⟩
    · rw [hr]
      exact ⟨⟨fun h => (by cases h), fun h => absurd hp (h p hentry)⟩, fun e he => (by cases he)⟩
    · rw [hfail]
      refine ⟨⟨fun _ p hentry hp => hnone p hp hentry, fun _ => rfl⟩, fun e he => ?_⟩
      cases he
      exact Or.inl rfl
    · rw [hfail]
      refine ⟨⟨fun he => ?_, fun h => ?_⟩, fun e' he => ?_⟩
      · cases he
        cases hfailure
      · rcases hwhy with ⟨p, hentry, hp⟩ | ⟨q, hq, hqold⟩
        · exact absurd hp (h p hentry)
        · exact absurd (hown q hq) hqold
      · cases he
        cases hfailure with
        | foreign hq hqold => exact absurd (hown _ hq) hqold
        | outside hqold hq => exact Or.inr (Or.inl ⟨_, hqold, rfl, hq⟩)
        | several hfork => exact Or.inr (Or.inr ⟨_, _, _, rfl, hfork⟩)

/-- Two classes that overlap yield two states, and a foreign one beside them does not matter.  Where
the exits are left out the construction fails. -/
theorem quotient_any_classes_overlapping :
    (∃ m, forkedExits.quotient 5 [.ofList [⟨0, 0⟩, ⟨1, 0⟩], .ofList [⟨1, 0⟩, ⟨2, 0⟩],
        .singleton ⟨0, 7⟩] = .ok m ∧ m.size = 2 ∧ (∀ q ∈ m, m.Reachable q) ∧
      ∀ q, m.FunctionalAt q) ∧
    forkedExits.quotient 5 [.ofList [⟨0, 0⟩, ⟨3, 0⟩]] = .error (.stateOutsideClasses ⟨1, 0⟩) ∧
    ¬ Covered [.ofList [⟨0, 0⟩, ⟨3, 0⟩]] ⟨1, 0⟩ := by
  have hε : Letter.epsilon ∉ forkedExits.alphabet := by decide
  refine ⟨?_, ?_⟩
  · obtain ⟨-, hquotient, -⟩ := quotient_any_classes built_forkedExits hε 5
      [.ofList [⟨0, 0⟩, ⟨1, 0⟩], .ofList [⟨1, 0⟩, ⟨2, 0⟩], .singleton ⟨0, 7⟩]
    have hm : forkedExits.quotient 5 [.ofList [⟨0, 0⟩, ⟨1, 0⟩], .ofList [⟨1, 0⟩, ⟨2, 0⟩],
        .singleton ⟨0, 7⟩] = .ok ⟨5, .ofList [.char 'a', .char 'b'],
          #[⟨⟨0, 5⟩, true, true, .ofList [⟨.char 'a', ⟨0, 5⟩⟩, ⟨.char 'b', ⟨1, 5⟩⟩]⟩,
            ⟨⟨1, 5⟩, false, true, .ofList [⟨.char 'a', ⟨1, 5⟩⟩]⟩], some ⟨0, 5⟩⟩ := by rfl
    obtain ⟨-, -, -, -, -, hreachable, hfun⟩ := hquotient _ hm
    exact ⟨_, hm, rfl, hreachable, hfun⟩
  · obtain ⟨-, -, hfailures⟩ := quotient_any_classes built_forkedExits hε 5
      [.ofList [⟨0, 0⟩, ⟨3, 0⟩]]
    have hfail : forkedExits.quotient 5 [.ofList [⟨0, 0⟩, ⟨3, 0⟩]] =
        .error (.stateOutsideClasses ⟨1, 0⟩) := by rfl
    have hown : ∀ q, Covered [.ofList [⟨0, 0⟩, ⟨3, 0⟩]] q → q ∈ forkedExits := by
      rintro q ⟨c, hc, hq⟩
      rw [List.mem_singleton.mp hc, OrderedSet.mem_ofList] at hq
      have hall : ∀ q ∈ [(⟨0, 0⟩ : StateId), ⟨3, 0⟩], q ∈ forkedExits := by decide
      exact hall q hq
    refine ⟨hfail, ?_⟩
    rcases (hfailures hown).2 _ hfail with h | ⟨q, -, h, hq⟩ | ⟨q, l, n, h, -⟩
    · cases h
    · cases h
      exact hq
    · cases h

end Automaton

end PatternAutomata
