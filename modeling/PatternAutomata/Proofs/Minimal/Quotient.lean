import PatternAutomata.Minimal.Quotient
import PatternAutomata.Proofs.Automaton.System
import PatternAutomata.Proofs.Exploration

/-!
# Quotients present the system of the classes

Let the classes of an automaton be the `Fibres` of a map from states to the items of a system, such
that the map respects arcs and exits.  Then `quotient` explores this system depth first, from the
item of the entry, and the quotient presents what it finds (`exists_quotient`).

So the quotient does not depend on the order in which the classes are listed, nor on the states that
come to represent them: only the system, the item of the entry and the alphabet matter.

The proof follows the construction.  `Draws` is what a draft is like at any time: its states stand
for the items met so far, and the arcs drawn between them are steps of the system.  `addClass`
lengthens the list of items (`exists_addClass`), `addArc` draws one more step (`Draws.exists_addArc`),
and `followArcs` does to the draft what one expansion does to the search (`followArcs_spec`).
-/

namespace PatternAutomata

variable {β : Type} [DecidableEq β]

/-- Some class holds a state. -/
def Covered (classes : List (OrderedSet StateId)) (q : StateId) : Prop := ∃ c ∈ classes, q ∈ c

/-- The classes of an automaton are the fibres of a map to the items of a system.  The map respects
arcs, none of which leads out of the classes, and exits. -/
structure Fibres (a : Automaton) (classes : List (OrderedSet StateId)) (S : System β)
    (φ : StateId → β) : Prop where
  mem : ∀ {q}, Covered classes q → q ∈ a
  functionalAt : ∀ {q}, Covered classes q → a.FunctionalAt q
  covered_target : ∀ {q l r}, Covered classes q → a.HasArc q l r → Covered classes r
  mem_iff : ∀ {c p}, c ∈ classes → p ∈ c → ∀ q, q ∈ c ↔ Covered classes q ∧ φ q = φ p
  step_eq : ∀ {q}, Covered classes q → ∀ l, S.step (φ q) l = (a.system.step q l).map φ
  isExit_eq : ∀ {q}, Covered classes q → S.isExit (φ q) = a.system.isExit q

omit [DecidableEq β] in
/-- A step from an item comes from an arc. -/
theorem Fibres.exists_target {a : Automaton} {classes : List (OrderedSet StateId)} {S : System β}
    {φ : StateId → β} (hf : Fibres a classes S φ) {q : StateId} {l : Letter} {y : β}
    (hq : Covered classes q) (hy : S.step (φ q) l = some y) : ∃ t, a.HasArc q l t ∧ φ t = y := by
  rw [hf.step_eq hq] at hy
  obtain ⟨t, ht, hφ⟩ := Option.map_eq_some_iff.mp hy
  exact ⟨t, (Automaton.system_step_iff (hf.functionalAt hq)).mp ht, hφ⟩

theorem classOf_eq_some {classes : List (OrderedSet StateId)} {q : StateId}
    (h : Covered classes q) : ∃ c, classOf classes q = some c ∧ c ∈ classes ∧ q ∈ c := by
  obtain ⟨c, hc, hq⟩ := h
  cases hfind : classOf classes q with
  | none =>
    have hnone := List.find?_eq_none.mp hfind c hc
    simp [hq] at hnone
  | some c' =>
    refine ⟨c', rfl, List.mem_of_find?_eq_some hfind, ?_⟩
    simpa using List.find?_some hfind

namespace QuotientDraft

open Automaton

/-! ## Renaming -/

section Renaming

variable {old : Automaton} {new p q : StateId} {r r' : QuotientDraft} {qs : List StateId}

/-- What renaming some old states does to a draft. -/
structure Renames (old : Automaton) (new : StateId) (qs : List StateId) (r r' : QuotientDraft) :
    Prop where
  pending_eq : r'.pending = r.pending
  sameStates : SameStates r.automaton r'.automaton
  entry_eq : r'.automaton.entry = r.automaton.entry
  wellFormed : r.automaton.WellFormed → r'.automaton.WellFormed
  hasArc_iff : ∀ {p l q}, r'.automaton.HasArc p l q ↔ r.automaton.HasArc p l q
  isExit_iff : ∀ {p}, r'.automaton.IsExit p ↔
    r.automaton.IsExit p ∨ (p = new ∧ ∃ q ∈ qs, old.IsExit q)
  lookup_eq : ∀ q, r'.renamed.lookup q = if q ∈ qs then some new else r.renamed.lookup q

theorem exists_rename (hqs : ∀ q ∈ qs, q ∈ old) (hnew : new ∈ r.automaton) :
    ∃ r', rename old new r qs = .ok r' ∧ Renames old new qs r r' := by
  induction qs generalizing r with
  | nil =>
    exact ⟨r, rfl, rfl, ⟨rfl, rfl, rfl⟩, rfl, id, Iff.rfl, by simp, fun q => by simp⟩
  | cons q qs ih =>
    obtain ⟨s, hs⟩ := exists_state (hqs q List.mem_cons_self)
    have hrest : ∀ q ∈ qs, q ∈ old := fun q hq => hqs q (List.mem_cons_of_mem _ hq)
    have hexit : old.IsExit q ↔ s.isExit = true := isExit_iff (state_eq_ok_iff.mp hs)
    have hlookup : ∀ q', (List.lookup q' ((q, new) :: r.renamed)) =
        if q' = q then some new else r.renamed.lookup q' := fun q' => by
      rw [List.lookup_cons]
      by_cases h : q' = q
      · rw [h, beq_self_eq_true, if_pos rfl]
      · rw [beq_eq_false_iff_ne.mpr h, if_neg h]
    by_cases hflag : s.isExit = true
    · obtain ⟨b, hb⟩ := exists_setExit hnew
      obtain ⟨r', hr', h⟩ := ih (r := ⟨b, (q, new) :: r.renamed, r.pending⟩) hrest
        ((sameStates_setExit hb).mem_iff.mpr hnew)
      have hsame := sameStates_setExit hb
      refine ⟨r', by simp only [rename, hs, hflag, if_true, hb]; exact hr', h.pending_eq,
        ⟨h.sameStates.origin_eq.trans hsame.origin_eq,
          h.sameStates.alphabet_eq.trans hsame.alphabet_eq,
          h.sameStates.size_eq.trans hsame.size_eq⟩,
        h.entry_eq.trans (entry_setExit hb), fun hw => h.wellFormed (hw.setExit hb),
        h.hasArc_iff.trans (hasArc_setExit hb), ?_, fun q' => ?_⟩
      · intro p
        rw [h.isExit_iff, isExit_setExit hb]
        simp only [List.mem_cons, exists_eq_or_imp, hexit.mpr hflag, true_or, and_true]
        tauto
      · rw [h.lookup_eq, hlookup]
        by_cases hq : q' ∈ qs <;> simp [hq]
    · obtain ⟨r', hr', h⟩ := ih (r := ⟨r.automaton, (q, new) :: r.renamed, r.pending⟩) hrest hnew
      refine ⟨r', by simp only [rename, hs, hflag]; exact hr', h.pending_eq, h.sameStates,
        h.entry_eq, h.wellFormed, h.hasArc_iff, ?_, fun q' => ?_⟩
      · intro p
        rw [h.isExit_iff]
        simp only [List.mem_cons, exists_eq_or_imp, hexit, hflag, false_or, Bool.false_eq_true]
      · rw [h.lookup_eq, hlookup]
        by_cases hq : q' ∈ qs <;> simp [hq]

end Renaming

/-! ## Drafts -/

variable {old : Automaton} {classes : List (OrderedSet StateId)} {S : System β} {φ : StateId → β}
  {origin : Nat} {entry : Option StateId} {r r' : QuotientDraft} {items : List β}
  {drawn : β → Letter → Prop} {x y : β} {l : Letter} {q new : StateId}

/-- The state of a draft that stands for an item. -/
def stateOf (origin : Nat) (items : List β) (x : β) : StateId := ⟨items.idxOf x, origin⟩

/-- What a draft of a quotient is like when some items have been met and some of their steps have
been drawn: its states stand for the items, its arcs are the steps drawn, old states are renamed to
the states of their items, and the items that are pending are represented by old states. -/
structure Draws (old : Automaton) (classes : List (OrderedSet StateId)) (S : System β)
    (φ : StateId → β) (origin : Nat) (entry : Option StateId) (r : QuotientDraft) (items : List β)
    (drawn : β → Letter → Prop) : Prop where
  wellFormed : r.automaton.WellFormed
  origin_eq : r.automaton.origin = origin
  alphabet_eq : r.automaton.alphabet = old.alphabet
  entry_eq : r.automaton.entry = entry
  size_eq : r.automaton.size = items.length
  nodup : items.Nodup
  isExit_iff : ∀ {x}, x ∈ items → (r.automaton.IsExit (stateOf origin items x) ↔ S.isExit x = true)
  hasArc_iff : ∀ {x l q}, x ∈ items → (r.automaton.HasArc (stateOf origin items x) l q ↔
    (drawn x l ∧ ∃ y, S.step x l = some y ∧ q = stateOf origin items y) ∨
      (Letter.epsilon ∈ old.alphabet ∧ l = .epsilon ∧ q = stateOf origin items x))
  drawn_mem : ∀ {x l y}, drawn x l → S.step x l = some y → x ∈ items ∧ y ∈ items
  lookup_eq : ∀ {q}, Covered classes q → r.renamed.lookup q =
    if φ q ∈ items then some (stateOf origin items (φ q)) else none
  pending_mem : ∀ {q new}, (q, new) ∈ r.pending →
    Covered classes q ∧ φ q ∈ items ∧ new = stateOf origin items (φ q)

theorem stateOf_append (h : x ∈ items) (l : List β) :
    stateOf origin (items ++ l) x = stateOf origin items x := by
  rw [stateOf, stateOf, List.idxOf_append_of_mem h]

theorem stateOf_last (h : x ∉ items) : stateOf origin (items ++ [x]) x = ⟨items.length, origin⟩ := by
  rw [stateOf, List.idxOf_append_of_notMem h, List.idxOf_cons_self, Nat.add_zero]

theorem stateOf_inj (hx : x ∈ items) (h : stateOf origin items x = stateOf origin items y) :
    x = y :=
  (List.idxOf_inj hx).mp (StateId.mk.inj h).1

namespace Draws

theorem stateOf_mem (h : Draws old classes S φ origin entry r items drawn) (hx : x ∈ items) :
    stateOf origin items x ∈ r.automaton :=
  ⟨h.origin_eq.symm, h.size_eq ▸ List.idxOf_lt_length_of_mem hx⟩

/-- Only the steps that exist matter for what is drawn. -/
theorem congr {drawn' : β → Letter → Prop} (h : Draws old classes S φ origin entry r items drawn)
    (hdrawn : ∀ x l y, S.step x l = some y → (drawn' x l ↔ drawn x l)) :
    Draws old classes S φ origin entry r items drawn' where
  __ := h
  hasArc_iff {x l q} hx := by
    rw [h.hasArc_iff hx]
    refine or_congr_left ?_
    constructor
    · rintro ⟨hd, y, hy, hq⟩
      exact ⟨(hdrawn x l y hy).mpr hd, y, hy, hq⟩
    · rintro ⟨hd, y, hy, hq⟩
      exact ⟨(hdrawn x l y hy).mp hd, y, hy, hq⟩
  drawn_mem {x l y} hd hy := h.drawn_mem ((hdrawn x l y hy).mp hd) hy

/-- Drawing a step between two items. -/
theorem exists_addArc (h : Draws old classes S φ origin entry r items drawn) (hx : x ∈ items)
    (hy : y ∈ items) (hstep : S.step x l = some y) (hl : l ∈ old.alphabet) :
    ∃ b, r.automaton.addArc (stateOf origin items x) l (stateOf origin items y) = .ok b ∧
      Draws old classes S φ origin entry { r with automaton := b } items
        fun x' l' => drawn x' l' ∨ (x' = x ∧ l' = l) := by
  obtain ⟨b, hb⟩ := Automaton.exists_addArc (h.alphabet_eq ▸ hl) (h.stateOf_mem hx) (h.stateOf_mem hy)
  have hsame := sameStates_addArc hb
  refine ⟨b, hb, ⟨h.wellFormed.addArc hb, hsame.origin_eq.trans h.origin_eq,
    hsame.alphabet_eq.trans h.alphabet_eq, (entry_addArc hb).trans h.entry_eq,
    hsame.size_eq.trans h.size_eq, h.nodup, fun {x'} hx' => ?_, fun {x' l' q} hx' => ?_,
    fun {x' l' y'} hd hy' => ?_, h.lookup_eq, h.pending_mem⟩⟩
  · rw [isExit_addArc hb, h.isExit_iff hx']
  · rw [hasArc_addArc hb, h.hasArc_iff hx']
    constructor
    · rintro ((⟨hd, hrest⟩ | hloop) | ⟨hsource, rfl, rfl⟩)
      · exact Or.inl ⟨Or.inl hd, hrest⟩
      · exact Or.inr hloop
      · have hxx := stateOf_inj hx' hsource
        subst hxx
        exact Or.inl ⟨Or.inr ⟨rfl, rfl⟩, y, hstep, rfl⟩
    · rintro (⟨hd | ⟨rfl, rfl⟩, y', hy', rfl⟩ | hloop)
      · exact Or.inl (Or.inl ⟨hd, y', hy', rfl⟩)
      · rw [hstep] at hy'
        cases hy'
        exact Or.inr ⟨rfl, rfl, rfl⟩
      · exact Or.inl (Or.inr hloop)
  · rcases hd with hd | ⟨rfl, rfl⟩
    · exact h.drawn_mem hd hy'
    · rw [hstep] at hy'
      cases hy'
      exact ⟨hx, hy⟩

/-- Designating the state of an item as the entry. -/
theorem exists_setEntry (h : Draws old classes S φ origin entry r items drawn) (hx : x ∈ items) :
    ∃ b, r.automaton.setEntry (stateOf origin items x) = .ok b ∧
      Draws old classes S φ origin (some (stateOf origin items x)) { r with automaton := b } items
        drawn := by
  obtain ⟨b, hb⟩ := Automaton.exists_setEntry (h.stateOf_mem hx)
  have hsame := sameStates_setEntry hb
  refine ⟨b, hb, ⟨h.wellFormed.setEntry hb, hsame.origin_eq.trans h.origin_eq,
    hsame.alphabet_eq.trans h.alphabet_eq, entry_setEntry hb, hsame.size_eq.trans h.size_eq, h.nodup,
    fun hy => ?_, fun hy => ?_, h.drawn_mem, h.lookup_eq, h.pending_mem⟩⟩
  · exact (isExit_setEntry h.wellFormed hb).trans (h.isExit_iff hy)
  · exact (hasArc_setEntry h.wellFormed hb).trans (h.hasArc_iff hy)

end Draws

/-- **Adding the class of an old state appends its item.** -/
theorem exists_addClass (hf : Fibres old classes S φ)
    (h : Draws old classes S φ origin entry r items drawn) (hq : Covered classes q)
    (hnew : φ q ∉ items) :
    ∃ r', addClass old classes r q = .ok (r', stateOf origin (items ++ [φ q]) (φ q)) ∧
      r'.pending = (q, stateOf origin (items ++ [φ q]) (φ q)) :: r.pending ∧
      Draws old classes S φ origin entry r' (items ++ [φ q]) drawn := by
  obtain ⟨c, hclass, hc, hqc⟩ := classOf_eq_some hq
  have hid : r.automaton.nextId = stateOf origin (items ++ [φ q]) (φ q) := by
    rw [stateOf_last hnew, nextId, h.size_eq, h.origin_eq]
  have hmembers : ∀ p ∈ c.toList, p ∈ old := fun p hp => hf.mem ⟨c, hc, hp⟩
  obtain ⟨r', hr', hren⟩ := exists_rename (r := { r with automaton := r.automaton.addState })
    hmembers (nextId_mem_addState r.automaton)
  have hold : ∀ {x}, x ∈ items → stateOf origin items x ≠ r.automaton.nextId := fun hx heq =>
    nextId_not_mem _ (heq ▸ h.stateOf_mem hx)
  have hlast : ∀ {x}, x ∈ items ++ [φ q] → x ∈ items ∨ x = φ q := fun hx => by
    simpa using hx
  refine ⟨{ r' with pending := (q, r.automaton.nextId) :: r'.pending }, ?_, ?_, ?_⟩
  · rw [← hid]
    simp only [addClass, hclass, hr']
  · rw [hid, hren.pending_eq]
  refine ⟨hren.wellFormed h.wellFormed.addState, hren.sameStates.origin_eq.trans h.origin_eq,
    hren.sameStates.alphabet_eq.trans h.alphabet_eq, hren.entry_eq.trans h.entry_eq, ?_, ?_,
    fun {x} hx => ?_, fun {x l t} hx => ?_, fun hd hy => ?_, fun {p} hp => ?_, fun {p n} hp => ?_⟩
  · rw [hren.sameStates.size_eq, size_addState, h.size_eq, List.length_append]
    rfl
  · exact List.nodup_append.mpr ⟨h.nodup, List.nodup_singleton _, fun x hx y hy hxy => by
      rw [List.mem_singleton] at hy
      exact hnew (hy ▸ hxy ▸ hx)⟩
  · -- the new state is an exit if the members of its class are
    rw [hren.isExit_iff, isExit_addState]
    rcases hlast hx with hx | rfl
    · rw [stateOf_append hx, or_iff_left fun h => hold hx h.1]
      exact h.isExit_iff hx
    · rw [← hid, or_iff_right fun h => nextId_not_mem _ h.mem]
      constructor
      · rintro ⟨-, p, hp, hexit⟩
        obtain ⟨hcovered, hφ⟩ := (hf.mem_iff hc hqc p).mp hp
        rw [← hφ, hf.isExit_eq hcovered]
        exact system_isExit_iff.mpr hexit
      · intro hexit
        rw [hf.isExit_eq hq] at hexit
        exact ⟨rfl, q, hqc, system_isExit_iff.mp hexit⟩
  · rw [hren.hasArc_iff, hasArc_addState, h.alphabet_eq]
    rcases hlast hx with hx | rfl
    · rw [stateOf_append hx, h.hasArc_iff hx, or_iff_left fun h => hold hx h.2.1]
      refine or_congr_left (and_congr_right fun hd => exists_congr fun y =>
        and_congr_right fun hy => ?_)
      rw [stateOf_append (h.drawn_mem hd hy).2]
    · rw [← hid, or_iff_right fun h => nextId_not_mem _ h.source_mem, or_iff_right]
      · simp
      · rintro ⟨hd, y, hy, -⟩
        exact hnew (h.drawn_mem hd hy).1
  · obtain ⟨hx, hy⟩ := h.drawn_mem hd hy
    exact ⟨List.mem_append_left _ hx, List.mem_append_left _ hy⟩
  · rw [hren.lookup_eq]
    by_cases hpc : p ∈ c.toList
    · have hφ := ((hf.mem_iff hc hqc p).mp hpc).2
      rw [if_pos hpc, if_pos (by rw [hφ]; simp), hφ, hid]
    · have hφ : φ p ≠ φ q := fun hφ => hpc ((hf.mem_iff hc hqc p).mpr ⟨hp, hφ⟩)
      rw [if_neg hpc]
      refine (h.lookup_eq hp).trans ?_
      by_cases hitem : φ p ∈ items
      · rw [if_pos hitem, if_pos (List.mem_append_left _ hitem), stateOf_append hitem]
      · rw [if_neg hitem, if_neg (by simp [hitem, hφ])]
  · rcases List.mem_cons.mp hp with hp | hp
    · cases hp
      exact ⟨hq, by simp, hid⟩
    · rw [hren.pending_eq] at hp
      obtain ⟨hcovered, hitem, rfl⟩ := h.pending_mem hp
      exact ⟨hcovered, List.mem_append_left _ hitem, (stateOf_append hitem _).symm⟩

/-! ## The construction -/

/-- The new state of an old one is that of its item, which is appended if it has none yet. -/
theorem exists_resolve (hf : Fibres old classes S φ)
    (h : Draws old classes S φ origin entry r items drawn) (hq : Covered classes q) :
    ∃ r', resolve old classes r q =
        .ok (r', stateOf origin (items ++ unseen items [φ q]) (φ q)) ∧
      (r'.pending.map fun p => φ p.1) =
        (unseen items [φ q]).reverse ++ (r.pending.map fun p => φ p.1) ∧
      Draws old classes S φ origin entry r' (items ++ unseen items [φ q]) drawn := by
  have hlookup := h.lookup_eq hq
  by_cases hmem : φ q ∈ items
  · rw [if_pos hmem] at hlookup
    rw [unseen_singleton_of_mem hmem, List.append_nil]
    exact ⟨r, by simp only [resolve, hlookup], rfl, h⟩
  · rw [if_neg hmem] at hlookup
    obtain ⟨r', hr', hpending, hdraws⟩ := exists_addClass hf h hq hmem
    rw [unseen_singleton_of_not_mem hmem]
    exact ⟨r', by simp only [resolve, hlookup, hr'], by rw [hpending]; rfl, hdraws⟩

/-- **Following the arcs of a representative expands its item.**  The items met for the first time
are appended, and wait before all others, the last one first. -/
theorem followArcs_spec (hf : Fibres old classes S φ) {s : State} (hs : old.state? q = some s)
    (hq : Covered classes q) {letters : List Letter} (hletters : ∀ l ∈ letters, l ∈ old.alphabet)
    (h : Draws old classes S φ origin entry r items drawn) (hitem : φ q ∈ items) :
    ∃ r', followArcs old classes s (stateOf origin items (φ q)) r letters = .ok r' ∧
      (r'.pending.map fun p => φ p.1) =
        (unseen items (letters.filterMap (S.step (φ q)))).reverse ++
          (r.pending.map fun p => φ p.1) ∧
      Draws old classes S φ origin entry r'
        (items ++ unseen items (letters.filterMap (S.step (φ q))))
        fun x l => drawn x l ∨ (x = φ q ∧ l ∈ letters) := by
  induction letters generalizing r items drawn with
  | nil =>
    refine ⟨r, rfl, rfl, ?_⟩
    rw [List.filterMap_nil, unseen, List.append_nil]
    exact h.congr fun x l y _ => by simp
  | cons l letters ih =>
    have hl := hletters l List.mem_cons_self
    have hrest : ∀ l ∈ letters, l ∈ old.alphabet := fun l hl => hletters l (List.mem_cons_of_mem _ hl)
    have hsole := soleTarget_eq_step (l := l) (hf.functionalAt hq) hs
    have hstep := hf.step_eq hq l
    cases ht : old.system.step q l with
    | none =>
      rw [ht, Option.map_none] at hstep
      obtain ⟨r', hr', hpending, hdraws⟩ := ih hrest h hitem
      rw [List.filterMap_cons_none hstep]
      refine ⟨r', by simp only [followArcs, hsole, ht]; exact hr', hpending,
        hdraws.congr fun x l' y hy => or_congr_right (and_congr_right fun hx => ?_)⟩
      rw [List.mem_cons, or_iff_right]
      rintro rfl
      rw [hx, hstep] at hy
      cases hy
    | some t =>
      rw [ht, Option.map_some] at hstep
      have htc := hf.covered_target hq ((system_step_iff (hf.functionalAt hq)).mp ht)
      obtain ⟨r₁, hr₁, hpending₁, h₁⟩ := exists_resolve hf h htc
      have hitem₁ := List.mem_append_left (unseen items [φ t]) hitem
      obtain ⟨b, hb, hdraws⟩ := h₁.exists_addArc hitem₁ (mem_append_unseen_singleton (φ t) items)
        hstep hl
      obtain ⟨r', hr', hpending, hdraws'⟩ := ih hrest hdraws hitem₁
      rw [stateOf_append hitem] at hb hr'
      rw [List.filterMap_cons_some hstep, unseen_cons]
      refine ⟨r', by simp only [followArcs, hsole, ht, hr₁, hb]; exact hr', ?_, ?_⟩
      · rw [hpending, hpending₁, List.reverse_append, List.append_assoc]
      · rw [← List.append_assoc]
        refine hdraws'.congr fun x l' y _ => ?_
        rw [List.mem_cons, or_assoc, and_or_left]

/-- **Completing a draft performs the search for the items**, and draws all their steps. -/
theorem complete_spec (hf : Fibres old classes S φ) (ha : old.WellFormed) {waiting found : List β}
    (hsearch : Search (fun x => (Except.ok (S.successors old.alphabet x) : Except Fault (List β)))
      .depthFirst items waiting found) {budget : Nat}
    (hbudget : found.length + waiting.length ≤ budget + items.length)
    (h : Draws old classes S φ origin entry r items drawn)
    (hwaiting : (r.pending.map fun p => φ p.1) = waiting)
    (hdrawn : ∀ x ∈ items, x ∈ waiting ∨ ∀ l y, S.step x l = some y → drawn x l) :
    ∃ r', complete old classes budget r = .ok r' ∧
      Draws old classes S φ origin entry r' found fun x _ => x ∈ found := by
  induction hsearch generalizing budget r drawn with
  | @done items =>
    have hempty : r.pending = [] := List.map_eq_nil_iff.mp hwaiting
    refine ⟨r, ?_, h.congr fun x l y hy => ⟨fun hx => ?_, fun hd => (h.drawn_mem hd hy).1⟩⟩
    · cases budget with
      | zero => rfl
      | succ budget => simp only [complete, hempty]
    · exact (hdrawn x hx).resolve_left List.not_mem_nil l y hy
  | @step x next items waiting found hnext hsearch ih =>
    cases hnext
    obtain ⟨⟨q, new⟩, pending, hpending, hx, hrest⟩ := List.map_eq_cons_iff.mp hwaiting
    dsimp only at hx
    subst hx
    obtain ⟨hq, hitem, rfl⟩ := h.pending_mem (hpending ▸ List.mem_cons_self)
    obtain ⟨s, hs⟩ := exists_state (hf.mem hq)
    have hpopped : Draws old classes S φ origin entry { r with pending := pending } items drawn :=
      { h with pending_mem := fun hp => h.pending_mem (hpending ▸ List.mem_cons_of_mem _ hp) }
    have hletters : ∀ l ∈ old.alphabet.toList, l ∈ old.alphabet := fun l hl => hl
    obtain ⟨r', hr', hpending', hdraws⟩ :=
      followArcs_spec hf (state_eq_ok_iff.mp hs) hq hletters hpopped hitem
    have hlength : items.length + (unseen items (S.successors old.alphabet (φ q))).length ≤
        found.length := by
      rw [← List.length_append]
      exact hsearch.isPrefix.length_le
    rw [List.length_cons] at hbudget
    cases budget with
    | zero => omega
    | succ budget =>
      have hwaiting' : (r'.pending.map fun p => φ p.1) = Discipline.depthFirst.enqueue waiting
          (unseen items (S.successors old.alphabet (φ q))) := by
        rw [hpending', hrest]
        rfl
      have hdrawn' : ∀ x ∈ items ++ unseen items (S.successors old.alphabet (φ q)),
          x ∈ Discipline.depthFirst.enqueue waiting
            (unseen items (S.successors old.alphabet (φ q))) ∨
          ∀ l y, S.step x l = some y → drawn x l ∨ (x = φ q ∧ l ∈ old.alphabet.toList) := by
        intro x hx
        rw [Discipline.mem_enqueue]
        rcases List.mem_append.mp hx with hx | hx
        · rcases hdrawn x hx with hw | hd
          · rcases List.mem_cons.mp hw with rfl | hw
            · refine Or.inr fun l y hy => Or.inr ⟨rfl, ?_⟩
              obtain ⟨t, ht, -⟩ := hf.exists_target hq hy
              exact ha.letter_mem ht
            · exact Or.inl (Or.inl hw)
          · exact Or.inr fun l y hy => Or.inl (hd l y hy)
        · exact Or.inl (Or.inr hx)
      have hbudget' : found.length + (Discipline.depthFirst.enqueue waiting
          (unseen items (S.successors old.alphabet (φ q)))).length ≤
          budget + (items ++ unseen items (S.successors old.alphabet (φ q))).length := by
        rw [Discipline.enqueue, List.length_append, List.length_append, List.length_reverse]
        omega
      obtain ⟨r'', hr'', hfinal⟩ := ih hbudget' hdraws hwaiting' hdrawn'
      exact ⟨r'', by simp only [complete, hpending, hs, hr']; exact hr'', hfinal⟩

/-- A draft with all steps drawn presents the items. -/
theorem Draws.presents (ha : old.WellFormed) (hf : Fibres old classes S φ)
    (h : Draws old classes S φ origin (some ⟨0, origin⟩) r items fun x _ => x ∈ items)
    (hitems : ∀ x ∈ items, ∃ q, Covered classes q ∧ φ q = x)
    (hclosed : ∀ {x l y}, x ∈ items → S.step x l = some y → y ∈ items) :
    S.Presents r.automaton items := by
  have hstate : ∀ {i x}, items[i]? = some x →
      x ∈ items ∧ (⟨i, r.automaton.origin⟩ : StateId) = stateOf origin items x := by
    intro i x hx
    exact ⟨List.mem_of_getElem? hx,
      by rw [stateOf, ← System.eq_idxOf_of_getElem? h.nodup hx, h.origin_eq]⟩
  refine ⟨h.wellFormed, by rw [h.entry_eq, h.origin_eq], h.size_eq, h.nodup, hclosed,
    fun {i x} hx => ?_, fun {i x l q} hx => ?_⟩
  · obtain ⟨hmem, hi⟩ := hstate hx
    rw [hi, h.isExit_iff hmem]
  · obtain ⟨hmem, hi⟩ := hstate hx
    rw [hi, h.hasArc_iff hmem]
    constructor
    · rintro (⟨-, y, hy, rfl⟩ | ⟨hε, rfl, rfl⟩)
      · exact ⟨items.idxOf y, y, hy, List.getElem?_idxOf (hclosed hmem hy), by
          rw [stateOf, h.origin_eq]⟩
      · -- the epsilon arc that every state has by itself is a step already
        obtain ⟨p, hp, rfl⟩ := hitems x hmem
        have hself : old.system.step p .epsilon = some p :=
          (system_step_iff (hf.functionalAt hp)).mpr (ha.epsilon_self hε (hf.mem hp))
        refine ⟨i, φ p, ?_, hx, hi.symm⟩
        rw [hf.step_eq hp, hself]
        rfl
    · rintro ⟨j, y, hy, hj, rfl⟩
      exact Or.inl ⟨hmem, y, hy, (hstate hj).2⟩

end QuotientDraft

/-! ## The quotient -/

namespace Automaton

variable {a : Automaton} {classes : List (OrderedSet StateId)} {S : System β} {φ : StateId → β}
  {p : StateId}

/-- The state marked as the entry is found among states of the automaton. -/
theorem flaggedEntry_eq (ha : a.WellFormed) (hentry : a.entry = some p) {qs : List StateId}
    (hqs : ∀ q ∈ qs, q ∈ a) (hp : p ∈ qs) : a.flaggedEntry qs = .ok p := by
  induction qs with
  | nil => cases hp
  | cons q qs ih =>
    obtain ⟨s, hs⟩ := exists_state (hqs q List.mem_cons_self)
    have hflag : s.isEntry = true ↔ p = q := by
      rw [ha.isEntry_iff (state_eq_ok_iff.mp hs), hentry, Option.some.injEq]
    by_cases hpq : p = q
    · simp only [flaggedEntry, hs, hflag.mpr hpq, if_true, hpq]
    · have hrest := ih (fun q hq => hqs q (List.mem_cons_of_mem _ hq))
        ((List.mem_cons.mp hp).resolve_left hpq)
      simp only [flaggedEntry, hs, hflag, if_neg hpq]
      exact hrest

/-- The items of old states are closed under steps, so searching for them ends. -/
theorem Fibres.exists_explored (hf : Fibres a classes S φ) (hp : Covered classes p) :
    ∃ found, Explored
        (fun x => (Except.ok (S.successors a.alphabet x) : Except Fault (List β)))
        .depthFirst [φ p] found ∧
      (∀ x ∈ found, ∃ q, Covered classes q ∧ φ q = x) ∧
      found.length ≤ (classes.flatMap OrderedSet.toList).length := by
  have hcovered : ∀ x, Discoverable
      (fun x => (Except.ok (S.successors a.alphabet x) : Except Fault (List β))) [φ p] x →
      ∃ q, Covered classes q ∧ φ q = x := by
    intro x hx
    induction hx with
    | seed hx =>
      rw [List.mem_singleton] at hx
      exact ⟨p, hp, hx.symm⟩
    | next _ hnext hy ih =>
      obtain ⟨q, hq, rfl⟩ := ih
      cases hnext
      obtain ⟨l, -, hl⟩ := List.mem_filterMap.mp hy
      obtain ⟨t, ht, rfl⟩ := hf.exists_target hq hl
      exact ⟨t, hf.covered_target hq ht, rfl⟩
  let pool : Finset β := ((classes.flatMap OrderedSet.toList).map φ).toFinset
  have hpool : ∀ x, (∃ q, Covered classes q ∧ φ q = x) → x ∈ pool := by
    rintro x ⟨q, ⟨c, hc, hq⟩, rfl⟩
    exact List.mem_toFinset.mpr (List.mem_map_of_mem (List.mem_flatMap.mpr ⟨c, hc, hq⟩))
  obtain ⟨found, -, hfound⟩ := PatternAutomata.exists_explored (d := .depthFirst)
    (fun x hx => ⟨hpool x (hcovered x hx), S.successors a.alphabet x, rfl⟩)
    (Nat.lt_succ_self pool.card)
  refine ⟨found, hfound, fun x hx => hcovered x (hfound.mem_iff.mp hx), ?_⟩
  have hsub : found.toFinset ⊆ pool := fun x hx =>
    hpool x (hcovered x (hfound.mem_iff.mp (List.mem_toFinset.mp hx)))
  calc found.length = found.toFinset.card := (List.toFinset_card_of_nodup hfound.nodup).symm
    _ ≤ pool.card := Finset.card_le_card hsub
    _ ≤ ((classes.flatMap OrderedSet.toList).map φ).length := List.toFinset_card_le _
    _ = (classes.flatMap OrderedSet.toList).length := List.length_map _

/-- **The quotient exists and presents the items found from the entry.** -/
theorem exists_quotient (ha : a.WellFormed) (hf : Fibres a classes S φ) (hentry : a.entry = some p)
    (hp : Covered classes p) (origin : Nat) :
    ∃ b found, a.quotient origin classes = .ok b ∧ b.origin = origin ∧ b.alphabet = a.alphabet ∧
      Explored (fun x => (Except.ok (S.successors a.alphabet x) : Except Fault (List β)))
        .depthFirst [φ p] found ∧ S.Presents b found := by
  obtain ⟨found, hexplored, hitems, hlength⟩ := Fibres.exists_explored hf hp
  have hmembers : ∀ q, q ∈ classes.flatMap OrderedSet.toList ↔ Covered classes q := fun q =>
    List.mem_flatMap
  have hflagged := flaggedEntry_eq ha hentry (fun q hq => hf.mem ((hmembers q).mp hq))
    ((hmembers p).mpr hp)
  have hblank : QuotientDraft.Draws a classes S φ origin none ⟨empty origin a.alphabet, [], []⟩ []
      fun _ _ => False :=
    ⟨wellFormed_empty _ _, rfl, rfl, rfl, rfl, List.nodup_nil, fun h => (by cases h),
      fun h => (by cases h), fun h => h.elim, fun _ => rfl, fun h => (by cases h)⟩
  obtain ⟨r, hr, hpending, hdraws⟩ :=
    QuotientDraft.exists_addClass hf hblank hp List.not_mem_nil
  obtain ⟨b, hb, hentered⟩ := hdraws.exists_setEntry (List.mem_append_right _ List.mem_cons_self)
  rw [QuotientDraft.stateOf_last List.not_mem_nil] at hr hpending hb hentered
  have hsearch := hexplored
  rw [Explored, unseen_singleton_of_not_mem List.not_mem_nil] at hsearch
  obtain ⟨r', hr', hdone⟩ := QuotientDraft.complete_spec hf ha hsearch
    (Nat.add_le_add_right hlength 1) hentered (by rw [hpending]; rfl)
    fun x hx => Or.inl hx
  have hclosed : ∀ {x l y}, x ∈ found → S.step x l = some y → y ∈ found := by
    intro x l y hx hy
    obtain ⟨q, hq, rfl⟩ := hitems x hx
    obtain ⟨next, hnext, hsub⟩ := hexplored.closed _ hx
    cases hnext
    refine hsub (List.mem_filterMap.mpr ⟨l, ?_, hy⟩)
    obtain ⟨t, ht, -⟩ := hf.exists_target hq hy
    exact ha.letter_mem ht
  refine ⟨r'.automaton, found, ?_, hdone.origin_eq, hdone.alphabet_eq, hexplored,
    hdone.presents ha hf hitems hclosed⟩
  simp only [quotient, hflagged, hr, hb, hr', Except.map]

end Automaton

end PatternAutomata
