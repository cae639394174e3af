import Mathlib.Order.CompletePartialOrder
import PatternAutomata.Proofs.Automaton.Paths
import PatternAutomata.Proofs.Pattern.Defects
import PatternAutomata.Thompson

/-!
# The automaton of a tree accepts its language

`Wired t a start stop b` says that `b` is `a` with the tree `t` wired between two states.  It lists
what `Automaton.wire` does when it succeeds, one case for each kind of tree.

## Soundness by labels

Sharing the ends of a union and reusing the outer states of a star needs an argument that paths do
not stray from one part of the tree into another.  Labels make it local.  A labelling gives every
state a language, so that an arc on a letter never leads to a word that its source does not have
behind that letter.  If `K stop` behind the words of the tree is part of `K start`, then a labelling
`K` can be extended to the states added by wiring (`Wired.exists_labelling`).  Starting from `{[]}`
at the exit and the language of the tree at the entry, every path from the entry to the exit
spells a word of the language.

* `Wired.leads`: every word of the tree is spelled by a path between the two states.
* `Wired.productive`, `Wired.accessible`: from every state added, a path leads on to `stop`, and to
  every state added, a path leads from `start`.
* `exists_ofTree`: the automaton of a tree exists and realizes it.
* `ofTree_outcome`: of any other tree, the first node in pre-order that has a defect is blamed, and
  never the automaton that the tree is wired into.
-/

namespace PatternAutomata

namespace Letter

/-- The word a letter spells: its character, or nothing. -/
def word : Letter → List Char
  | .char c => [c]
  | .epsilon => []

end Letter

namespace Automaton

variable {a b c : Automaton} {start stop p q : StateId} {t left right body : SyntaxTree}
  {l : Letter} {w : List Char}

/-! ## Growing -/

/-- An automaton with more states and arcs, the new states being neither entry nor exit. -/
structure Extends (a b : Automaton) : Prop where
  origin_eq : b.origin = a.origin
  alphabet_eq : b.alphabet = a.alphabet
  entry_eq : b.entry = a.entry
  wellFormed : a.WellFormed → b.WellFormed
  mem : ∀ {q}, q ∈ a → q ∈ b
  hasArc : ∀ {p l q}, a.HasArc p l q → b.HasArc p l q
  isExit_iff : ∀ {q}, b.IsExit q ↔ a.IsExit q

theorem Extends.trans (h : Extends a b) (h' : Extends b c) : Extends a c where
  origin_eq := h'.origin_eq.trans h.origin_eq
  alphabet_eq := h'.alphabet_eq.trans h.alphabet_eq
  entry_eq := h'.entry_eq.trans h.entry_eq
  wellFormed ha := h'.wellFormed (h.wellFormed ha)
  mem hq := h'.mem (h.mem hq)
  hasArc hpq := h'.hasArc (h.hasArc hpq)
  isExit_iff := h'.isExit_iff.trans h.isExit_iff

theorem Extends.leads (h : Extends a b) (hpq : a.Leads p w q) : b.Leads p w q := hpq.mono h.hasArc

theorem extends_addState (a : Automaton) : Extends a a.addState where
  origin_eq := rfl
  alphabet_eq := rfl
  entry_eq := rfl
  wellFormed ha := ha.addState
  mem := mem_addState_of_mem
  hasArc hpq := hasArc_addState.mpr (Or.inl hpq)
  isExit_iff := isExit_addState

theorem extends_addArc (h : a.addArc p l q = .ok b) : Extends a b where
  origin_eq := (sameStates_addArc h).origin_eq
  alphabet_eq := (sameStates_addArc h).alphabet_eq
  entry_eq := entry_addArc h
  wellFormed ha := ha.addArc h
  mem := (sameStates_addArc h).mem_iff.mpr
  hasArc hpq := (hasArc_addArc h).mpr (Or.inl hpq)
  isExit_iff := isExit_addArc h

/-! ## Wiring -/

/-- The first of the two states that wiring a star adds. -/
def starFirst (a : Automaton) : StateId := a.nextId

/-- The last of the two states that wiring a star adds. -/
def starLast (a : Automaton) : StateId := a.addState.nextId

/-- The two states of a star have been added, with the arcs that enter, skip, repeat and leave. -/
def StarLinked (a : Automaton) (start stop : StateId) (b : Automaton) : Prop :=
  ∃ a₁ a₂ a₃, a.addState.addState.addArc start .epsilon a.starFirst = .ok a₁ ∧
    a₁.addArc start .epsilon stop = .ok a₂ ∧
    a₂.addArc a.starLast .epsilon a.starFirst = .ok a₃ ∧
    a₃.addArc a.starLast .epsilon stop = .ok b

/-- A tree has been wired between two states. -/
inductive Wired : SyntaxTree → Automaton → StateId → StateId → Automaton → Prop where
  | leaf {a b : Automaton} {start stop : StateId} {x : Char} :
      a.addArc start (.char x) stop = .ok b → Wired (.leaf x) a start stop b
  | union {a b c : Automaton} {start stop : StateId} {left right : SyntaxTree} :
      Wired left a start stop b → Wired right b start stop c →
      Wired (.node .union [left, right]) a start stop c
  | concatenation {a b c : Automaton} {start stop : StateId} {left right : SyntaxTree} :
      Wired left a.addState start a.nextId b → Wired right b a.nextId stop c →
      Wired (.node .concatenation [left, right]) a start stop c
  | star {a b c : Automaton} {start stop : StateId} {body : SyntaxTree} :
      StarLinked a start stop b → Wired body b a.starFirst a.starLast c →
      Wired (.node .star [body]) a start stop c

theorem StarLinked.hasArc_iff (h : StarLinked a start stop b) : b.HasArc p l q ↔
    a.addState.addState.HasArc p l q ∨
      (l = .epsilon ∧ (p = start ∨ p = a.starLast) ∧ (q = a.starFirst ∨ q = stop)) := by
  obtain ⟨a₁, a₂, a₃, h₁, h₂, h₃, h₄⟩ := h
  rw [hasArc_addArc h₄, hasArc_addArc h₃, hasArc_addArc h₂, hasArc_addArc h₁]
  grind

theorem StarLinked.extends_addState (h : StarLinked a start stop b) :
    Extends a.addState.addState b := by
  obtain ⟨a₁, a₂, a₃, h₁, h₂, h₃, h₄⟩ := h
  exact (extends_addArc h₁).trans ((extends_addArc h₂).trans
    ((extends_addArc h₃).trans (extends_addArc h₄)))

theorem StarLinked.mem_iff (h : StarLinked a start stop b) :
    q ∈ b ↔ q ∈ a ∨ q = a.starFirst ∨ q = a.starLast := by
  obtain ⟨a₁, a₂, a₃, h₁, h₂, h₃, h₄⟩ := h
  rw [(sameStates_addArc h₄).mem_iff, (sameStates_addArc h₃).mem_iff,
    (sameStates_addArc h₂).mem_iff, (sameStates_addArc h₁).mem_iff, mem_addState, mem_addState,
    or_assoc]
  rfl

theorem exists_starLinked (hε : Letter.epsilon ∈ a.alphabet) (hstart : start ∈ a)
    (hstop : stop ∈ a) : ∃ b, StarLinked a start stop b := by
  have hfirst : a.starFirst ∈ a.addState.addState :=
    mem_addState_of_mem (nextId_mem_addState a)
  have hlast : a.starLast ∈ a.addState.addState := nextId_mem_addState a.addState
  have hstart' := mem_addState_of_mem (mem_addState_of_mem hstart)
  have hstop' := mem_addState_of_mem (mem_addState_of_mem hstop)
  obtain ⟨a₁, h₁⟩ := exists_addArc (a := a.addState.addState) hε hstart' hfirst
  have e₁ := extends_addArc h₁
  obtain ⟨a₂, h₂⟩ := exists_addArc (e₁.alphabet_eq ▸ hε) (e₁.mem hstart') (e₁.mem hstop')
  have e₂ := e₁.trans (extends_addArc h₂)
  obtain ⟨a₃, h₃⟩ := exists_addArc (e₂.alphabet_eq ▸ hε) (e₂.mem hlast) (e₂.mem hfirst)
  have e₃ := e₂.trans (extends_addArc h₃)
  obtain ⟨a₄, h₄⟩ := exists_addArc (e₃.alphabet_eq ▸ hε) (e₃.mem hlast) (e₃.mem hstop')
  exact ⟨a₄, a₁, a₂, a₃, h₁, h₂, h₃, h₄⟩

namespace Wired

theorem extension (h : Wired t a start stop b) : Extends a b := by
  induction h with
  | leaf h => exact extends_addArc h
  | union _ _ ihl ihr => exact ihl.trans ihr
  | concatenation _ _ ihl ihr => exact (extends_addState _).trans (ihl.trans ihr)
  | star h _ ih =>
    exact (extends_addState _).trans ((extends_addState _).trans (h.extends_addState.trans ih))

theorem wellShaped (h : Wired t a start stop b) : t.WellShaped := by
  induction h with
  | leaf _ => exact .leaf _
  | union _ _ ihl ihr => exact .union ihl ihr
  | concatenation _ _ ihl ihr => exact .concatenation ihl ihr
  | star _ _ ih => exact .star ih

end Wired

/-- Wiring a well-shaped tree between states of the automaton succeeds. -/
theorem exists_wire (ht : t.WellShaped) (hε : Letter.epsilon ∈ a.alphabet)
    (hleaves : ∀ x ∈ t.leaves, Letter.char x ∈ a.alphabet) (hstart : start ∈ a) (hstop : stop ∈ a) :
    ∃ b, a.wire start stop t = .ok b ∧ Wired t a start stop b := by
  induction ht generalizing a start stop with
  | leaf x =>
    obtain ⟨b, hb⟩ := exists_addArc (hleaves x (by simp [SyntaxTree.leaves])) hstart hstop
    exact ⟨b, by rw [wire, hb], .leaf hb⟩
  | @union left right _ _ ihl ihr =>
    simp only [SyntaxTree.leaves, SyntaxTree.leavesOfAll, List.append_nil, List.mem_append]
      at hleaves
    obtain ⟨b, hb, hleft⟩ := ihl hε (fun x hx => hleaves x (Or.inl hx)) hstart hstop
    have e := hleft.extension
    obtain ⟨c, hc, hright⟩ := ihr (e.alphabet_eq ▸ hε)
      (fun x hx => e.alphabet_eq ▸ hleaves x (Or.inr hx)) (e.mem hstart) (e.mem hstop)
    exact ⟨c, by simp only [wire, hb, hc], .union hleft hright⟩
  | @concatenation left right _ _ ihl ihr =>
    simp only [SyntaxTree.leaves, SyntaxTree.leavesOfAll, List.append_nil, List.mem_append]
      at hleaves
    obtain ⟨b, hb, hleft⟩ := ihl (a := a.addState) hε (fun x hx => hleaves x (Or.inl hx))
      (mem_addState_of_mem hstart) (nextId_mem_addState a)
    have e := hleft.extension
    obtain ⟨c, hc, hright⟩ := ihr (e.alphabet_eq ▸ hε)
      (fun x hx => e.alphabet_eq ▸ hleaves x (Or.inr hx)) (e.mem (nextId_mem_addState a))
      (e.mem (mem_addState_of_mem hstop))
    exact ⟨c, by simp only [wire, hb, hc], .concatenation hleft hright⟩
  | @star body _ ih =>
    simp only [SyntaxTree.leaves, SyntaxTree.leavesOfAll, List.append_nil] at hleaves
    obtain ⟨b, hb⟩ := exists_starLinked hε hstart hstop
    have e := hb.extends_addState
    obtain ⟨c, hc, hbody⟩ := ih (e.alphabet_eq ▸ hε) (fun x hx => e.alphabet_eq ▸ hleaves x hx)
      (hb.mem_iff.mpr (Or.inr (Or.inl rfl))) (hb.mem_iff.mpr (Or.inr (Or.inr rfl)))
    refine ⟨c, ?_, .star hb hbody⟩
    obtain ⟨a₁, a₂, a₃, h₁, h₂, h₃, h₄⟩ := hb
    simp only [starFirst, starLast] at h₁ h₂ h₃ h₄ hc
    simp only [wire, h₁, h₂, h₃, h₄, hc]

/-! ## Soundness -/

/-- A language for every state, which follows the arcs: a word of the target, behind the letter of
the arc, is a word of the source. -/
def Labelling (a : Automaton) (K : StateId → Language Char) : Prop :=
  ∀ {p l q}, a.HasArc p l q → ∀ w ∈ K q, l.word ++ w ∈ K p

theorem Labelling.leads {K : StateId → Language Char} (hK : a.Labelling K) (h : a.Leads p w q)
    {v : List Char} (hv : v ∈ K q) : w ++ v ∈ K p := by
  induction h with
  | refl _ => exact hv
  | epsilon harc _ ih => exact hK harc _ (ih hv)
  | char harc _ ih => exact hK harc _ (ih hv)

theorem Labelling.addArc {K : StateId → Language Char} (hK : a.Labelling K)
    (hb : a.addArc start l stop = .ok b) (h : ∀ w ∈ K stop, l.word ++ w ∈ K start) :
    b.Labelling K := by
  intro p m q hpq
  rcases (hasArc_addArc hb).mp hpq with hpq | ⟨rfl, rfl, rfl⟩
  · exact hK hpq
  · exact h

/-- A labelling extends to an added state with any label. -/
theorem Labelling.exists_addState {K : StateId → Language Char} (ha : a.WellFormed)
    (hK : a.Labelling K) (k : Language Char) :
    ∃ K', (∀ q ∈ a, K' q = K q) ∧ K' a.nextId = k ∧ a.addState.Labelling K' := by
  have hold : ∀ q ∈ a, (if q = a.nextId then k else K q) = K q := by
    rintro q hq
    refine if_neg ?_
    rintro rfl
    exact nextId_not_mem a hq
  refine ⟨fun q => if q = a.nextId then k else K q, hold, if_pos rfl, fun {p l q} hpq => ?_⟩
  rcases hasArc_addState.mp hpq with hpq | ⟨-, rfl, rfl, rfl⟩
  · simp only [hold p hpq.source_mem, hold q (ha.target_mem hpq)]
    exact hK hpq
  · exact fun w hw => hw

/-- A labelling extends to the states of a star, so that what is wired between them may be labelled
with the language of the body. -/
theorem StarLinked.exists_labelling (hb : StarLinked a start stop b) (ha : a.WellFormed)
    (hstart : start ∈ a) (hstop : stop ∈ a) {K : StateId → Language Char} (hK : a.Labelling K)
    (L : Language Char) (ht : KStar.kstar L * K stop ≤ K start) :
    ∃ K', (∀ q ∈ a, K' q = K q) ∧ b.Labelling K' ∧ L * K' a.starLast ≤ K' a.starFirst := by
  -- the last state may repeat the body or leave, the first one has to pass the body before
  obtain ⟨K₀, hold₀, hfirst₀, hK₀⟩ := hK.exists_addState ha (L * (KStar.kstar L * K stop))
  obtain ⟨K₁, hold₁, hlast, hK₁⟩ := hK₀.exists_addState ha.addState (KStar.kstar L * K stop)
  have hfirst : K₁ a.starFirst = L * (KStar.kstar L * K stop) :=
    (hold₁ _ (nextId_mem_addState a)).trans hfirst₀
  have hkeep : ∀ q ∈ a, K₁ q = K q := fun q hq =>
    (hold₁ q (mem_addState_of_mem hq)).trans (hold₀ q hq)
  have hfirst_le : K₁ a.starFirst ≤ K₁ a.starLast := by
    rw [hfirst]
    refine le_of_le_of_eq ?_ hlast.symm
    rw [← mul_assoc]
    exact mul_le_mul_left (mul_kstar_le_kstar) _
  have hstop_le : K₁ stop ≤ K₁ a.starLast := by
    rw [hkeep stop hstop]
    refine le_of_le_of_eq ?_ hlast.symm
    calc K stop = 1 * K stop := (one_mul _).symm
      _ ≤ KStar.kstar L * K stop := mul_le_mul_left one_le_kstar _
  have hlast_le : K₁ a.starLast ≤ K₁ start := by
    rw [hkeep start hstart]
    exact le_of_eq_of_le hlast ht
  refine ⟨K₁, hkeep, ?_, ?_⟩
  · intro p l q hpq
    rcases hb.hasArc_iff.mp hpq with hpq | ⟨rfl, hp, hq⟩
    · exact hK₁ hpq
    · have hpl : K₁ a.starLast ≤ K₁ p := by
        rcases hp with rfl | rfl
        · exact hlast_le
        · exact le_rfl
      have hql : K₁ q ≤ K₁ a.starLast := by
        rcases hq with rfl | rfl
        · exact hfirst_le
        · exact hstop_le
      exact fun w hw => hpl (hql hw)
  · rw [hfirst]
    exact le_of_eq (congrArg _ hlast)

namespace Wired

/-- **Labels extend over wiring.** -/
theorem exists_labelling (h : Wired t a start stop b) (ha : a.WellFormed) (hstart : start ∈ a)
    (hstop : stop ∈ a) {K : StateId → Language Char} (hK : a.Labelling K)
    (ht : t.language * K stop ≤ K start) :
    ∃ K', (∀ q ∈ a, K' q = K q) ∧ b.Labelling K' := by
  induction h generalizing K with
  | @leaf a b start stop x hb =>
    refine ⟨K, fun _ _ => rfl, hK.addArc hb fun w hw => ht ?_⟩
    exact Language.append_mem_mul (SyntaxTree.mem_language_leaf.mpr rfl) hw
  | @union a b c start stop left right hl hr ihl ihr =>
    rw [SyntaxTree.language, add_mul] at ht
    obtain ⟨K₁, hold₁, hK₁⟩ := ihl ha hstart hstop hK (le_trans le_sup_left ht)
    have e := hl.extension
    have ht₁ : right.language * K₁ stop ≤ K₁ start := by
      rw [hold₁ stop hstop, hold₁ start hstart]
      exact le_trans le_sup_right ht
    obtain ⟨K₂, hold₂, hK₂⟩ := ihr (e.wellFormed ha) (e.mem hstart) (e.mem hstop) hK₁ ht₁
    exact ⟨K₂, fun q hq => (hold₂ q (e.mem hq)).trans (hold₁ q hq), hK₂⟩
  | @concatenation a b c start stop left right hl hr ihl ihr =>
    rw [SyntaxTree.language, mul_assoc] at ht
    -- the middle state is followed by the right part and what follows the whole
    obtain ⟨K₀, hold₀, hmiddle, hK₀⟩ := hK.exists_addState ha (right.language * K stop)
    have hstart' := mem_addState_of_mem hstart
    have ht₀ : left.language * K₀ a.nextId ≤ K₀ start := by
      rw [hmiddle, hold₀ start hstart]
      exact ht
    obtain ⟨K₁, hold₁, hK₁⟩ := ihl ha.addState hstart' (nextId_mem_addState a) hK₀ ht₀
    have e := hl.extension
    have ht₁ : right.language * K₁ stop ≤ K₁ a.nextId := by
      rw [hold₁ stop (mem_addState_of_mem hstop), hold₀ stop hstop,
        hold₁ _ (nextId_mem_addState a), hmiddle]
    obtain ⟨K₂, hold₂, hK₂⟩ := ihr (e.wellFormed ha.addState) (e.mem (nextId_mem_addState a))
      (e.mem (mem_addState_of_mem hstop)) hK₁ ht₁
    refine ⟨K₂, fun q hq => ?_, hK₂⟩
    rw [hold₂ q (e.mem (mem_addState_of_mem hq)), hold₁ q (mem_addState_of_mem hq), hold₀ q hq]
  | @star a b c start stop body hb hbody ih =>
    rw [SyntaxTree.language] at ht
    obtain ⟨K₁, hold₁, hK₁, hbody_le⟩ := hb.exists_labelling ha hstart hstop hK body.language ht
    obtain ⟨K₂, hold₂, hK₂⟩ := ih (hb.extends_addState.wellFormed ha.addState.addState)
      (hb.mem_iff.mpr (Or.inr (Or.inl rfl))) (hb.mem_iff.mpr (Or.inr (Or.inr rfl))) hK₁ hbody_le
    exact ⟨K₂, fun q hq => (hold₂ q (hb.mem_iff.mpr (Or.inl hq))).trans (hold₁ q hq), hK₂⟩

end Wired

/-! ## Completeness -/

namespace StarLinked

variable (h : StarLinked a start stop b)

include h

theorem start_first : b.HasArc start .epsilon a.starFirst :=
  h.hasArc_iff.mpr (Or.inr ⟨rfl, Or.inl rfl, Or.inl rfl⟩)

theorem start_stop : b.HasArc start .epsilon stop :=
  h.hasArc_iff.mpr (Or.inr ⟨rfl, Or.inl rfl, Or.inr rfl⟩)

theorem last_first : b.HasArc a.starLast .epsilon a.starFirst :=
  h.hasArc_iff.mpr (Or.inr ⟨rfl, Or.inr rfl, Or.inl rfl⟩)

theorem last_stop : b.HasArc a.starLast .epsilon stop :=
  h.hasArc_iff.mpr (Or.inr ⟨rfl, Or.inr rfl, Or.inr rfl⟩)

end StarLinked

namespace Wired

/-- **Every word of the tree is spelled by a path between its two states.** -/
theorem leads (h : Wired t a start stop b) (hw : w ∈ t.language) : b.Leads start w stop := by
  induction h generalizing w with
  | leaf hb =>
    rw [SyntaxTree.mem_language_leaf] at hw
    subst hw
    exact .of_char ((hasArc_addArc hb).mpr (Or.inr ⟨rfl, rfl, rfl⟩))
  | union _ hr ihl ihr =>
    rcases SyntaxTree.mem_language_union.mp hw with hw | hw
    · exact hr.extension.leads (ihl hw)
    · exact ihr hw
  | concatenation _ hr ihl ihr =>
    obtain ⟨u, hu, v, hv, rfl⟩ := SyntaxTree.mem_language_concatenation.mp hw
    exact (hr.extension.leads (ihl hu)).append (ihr hv)
  | @star a b c start stop body hb hbody ih =>
    obtain ⟨pieces, rfl, hpieces⟩ := SyntaxTree.mem_language_star.mp hw
    have e := hbody.extension
    -- once the body has been passed, it can be repeated
    have hrepeat : ∀ pieces : List (List Char), (∀ u ∈ pieces, u ∈ body.language) →
        c.Leads a.starLast pieces.flatten a.starLast := by
      intro pieces
      induction pieces with
      | nil => exact fun _ => .refl _
      | cons u pieces ihp =>
        intro hpieces
        have hu := ih (hpieces u List.mem_cons_self)
        have hrest := ihp fun v hv => hpieces v (List.mem_cons_of_mem _ hv)
        exact .epsilon (e.hasArc hb.last_first) (hu.append hrest)
    cases pieces with
    | nil => exact .of_epsilon (e.hasArc hb.start_stop)
    | cons u pieces =>
      have hu := ih (hpieces u List.mem_cons_self)
      have hrest := hrepeat pieces fun v hv => hpieces v (List.mem_cons_of_mem _ hv)
      have hleave : c.Leads a.starFirst (u ++ pieces.flatten) stop := by
        simpa using (hu.append hrest).append (.of_epsilon (e.hasArc hb.last_stop))
      exact .epsilon (e.hasArc hb.start_first) hleave

theorem exists_leads (h : Wired t a start stop b) : ∃ w, b.Leads start w stop := by
  obtain ⟨w, hw⟩ := h.wellShaped.exists_mem_language
  exact ⟨w, h.leads hw⟩

/-- **From every state added by wiring, a path leads on to the stop.** -/
theorem productive (h : Wired t a start stop b) (hq : q ∈ b) (hnew : q ∉ a) :
    ∃ w, b.Leads q w stop := by
  induction h generalizing q with
  | leaf hb => exact absurd ((sameStates_addArc hb).mem_iff.mp hq) hnew
  | @union a b c start stop left right hl hr ihl ihr =>
    by_cases hb : q ∈ b
    · obtain ⟨w, hw⟩ := ihl hb hnew
      exact ⟨w, hr.extension.leads hw⟩
    · exact ihr hq hb
  | @concatenation a b c start stop left right hl hr ihl ihr =>
    obtain ⟨v, hv⟩ := hr.exists_leads
    by_cases hb : q ∈ b
    · by_cases hmiddle : q ∈ a.addState
      · rcases mem_addState.mp hmiddle with ha | rfl
        · exact absurd ha hnew
        · exact ⟨v, hv⟩
      · obtain ⟨u, hu⟩ := ihl hb hmiddle
        exact ⟨u ++ v, (hr.extension.leads hu).append hv⟩
    · exact ihr hq hb
  | @star a b c start stop body hb hbody ih =>
    have hleave : c.Leads a.starLast [] stop :=
      .of_epsilon (hbody.extension.hasArc hb.last_stop)
    by_cases hqb : q ∈ b
    · rcases hb.mem_iff.mp hqb with ha | rfl | rfl
      · exact absurd ha hnew
      · obtain ⟨u, hu⟩ := hbody.exists_leads
        exact ⟨u ++ [], hu.append hleave⟩
      · exact ⟨[], hleave⟩
    · obtain ⟨u, hu⟩ := ih hq hqb
      exact ⟨u ++ [], hu.append hleave⟩

/-- **To every state added by wiring, a path leads from the start.** -/
theorem accessible (h : Wired t a start stop b) (hq : q ∈ b) (hnew : q ∉ a) :
    ∃ w, b.Leads start w q := by
  induction h generalizing q with
  | leaf hb => exact absurd ((sameStates_addArc hb).mem_iff.mp hq) hnew
  | @union a b c start stop left right hl hr ihl ihr =>
    by_cases hb : q ∈ b
    · obtain ⟨w, hw⟩ := ihl hb hnew
      exact ⟨w, hr.extension.leads hw⟩
    · exact ihr hq hb
  | @concatenation a b c start stop left right hl hr ihl ihr =>
    obtain ⟨u, hu⟩ := hl.exists_leads
    by_cases hb : q ∈ b
    · by_cases hmiddle : q ∈ a.addState
      · rcases mem_addState.mp hmiddle with ha | rfl
        · exact absurd ha hnew
        · exact ⟨u, hr.extension.leads hu⟩
      · obtain ⟨v, hv⟩ := ihl hb hmiddle
        exact ⟨v, hr.extension.leads hv⟩
    · obtain ⟨v, hv⟩ := ihr hq hb
      exact ⟨u ++ v, (hr.extension.leads hu).append hv⟩
  | @star a b c start stop body hb hbody ih =>
    have henter : c.HasArc start .epsilon a.starFirst := hbody.extension.hasArc hb.start_first
    by_cases hqb : q ∈ b
    · rcases hb.mem_iff.mp hqb with ha | rfl | rfl
      · exact absurd ha hnew
      · exact ⟨[], .of_epsilon henter⟩
      · obtain ⟨u, hu⟩ := hbody.exists_leads
        exact ⟨u, .epsilon henter hu⟩
    · obtain ⟨u, hu⟩ := ih hq hqb
      exact ⟨u, .epsilon henter hu⟩

end Wired

/-! ## The whole automaton -/

/-- An automaton of a tree: it accepts the language of the tree, over the letters of the tree, and
from each of its states a path leads to an exit. -/
structure Realizes (a : Automaton) (t : SyntaxTree) : Prop where
  wellFormed : a.WellFormed
  exists_entry : ∃ p, a.entry = some p
  alphabet_eq : a.alphabet = alphabetOfTree t
  accepts_iff : ∀ w, a.Accepts w ↔ w ∈ t.language
  productive : ∀ q ∈ a, ∃ w r, a.Leads q w r ∧ a.IsExit r

theorem mem_alphabetOfTree : l ∈ alphabetOfTree t ↔ l = .epsilon ∨ ∃ x ∈ t.leaves, l = .char x := by
  rw [alphabetOfTree, OrderedSet.mem_ofList, List.mem_cons, List.mem_map]
  constructor
  · rintro (rfl | ⟨x, hx, rfl⟩)
    · exact Or.inl rfl
    · exact Or.inr ⟨x, OrderedSet.mem_ofList.mp hx, rfl⟩
  · rintro (rfl | ⟨x, hx, rfl⟩)
    · exact Or.inl rfl
    · exact Or.inr ⟨x, OrderedSet.mem_ofList.mpr hx, rfl⟩

/-- An automaton before any tree is wired: an entry, an exit, and no arcs between them. -/
structure Bare (a : Automaton) (t : SyntaxTree) (first last : StateId) : Prop where
  wellFormed : a.WellFormed
  alphabet_eq : a.alphabet = alphabetOfTree t
  entry_eq : a.entry = some first
  mem_iff : ∀ {q}, q ∈ a ↔ q = first ∨ q = last
  isExit_iff : ∀ {q}, a.IsExit q ↔ q = last
  self : ∀ {p l q}, a.HasArc p l q → l = .epsilon ∧ p = q

theorem Bare.eq_of_leads {first last : StateId} (h : Bare a t first last) (hpq : a.Leads p w q) :
    w = [] ∧ p = q := by
  induction hpq with
  | refl _ => exact ⟨rfl, rfl⟩
  | epsilon harc _ ih => exact ⟨ih.1, (h.self harc).2.trans ih.2⟩
  | char harc _ _ => cases (h.self harc).1

/-- Marking the entry and the exit of states without arcs. -/
theorem exists_bare (first last : StateId) (ha : a.WellFormed)
    (halphabet : a.alphabet = alphabetOfTree t) (hmem : ∀ {q}, q ∈ a ↔ q = first ∨ q = last)
    (hexit : ∀ {q}, ¬ a.IsExit q) (hself : ∀ {p l q}, a.HasArc p l q → l = .epsilon ∧ p = q) :
    ∃ b c, a.setEntry first = .ok b ∧ b.setExit last = .ok c ∧ Bare c t first last := by
  obtain ⟨b, hb⟩ := exists_setEntry (hmem.mpr (Or.inl rfl))
  have sb := sameStates_setEntry hb
  obtain ⟨c, hc⟩ := exists_setExit (sb.mem_iff.mpr (hmem.mpr (Or.inr rfl)))
  have sc := sameStates_setExit hc
  refine ⟨b, c, hb, hc, (ha.setEntry hb).setExit hc, ?_, ?_, fun {q} => ?_, fun {q} => ?_, ?_⟩
  · rw [sc.alphabet_eq, sb.alphabet_eq, halphabet]
  · rw [entry_setExit hc, entry_setEntry hb]
  · rw [sc.mem_iff, sb.mem_iff, hmem]
  · rw [isExit_setExit hc, isExit_setEntry ha hb]
    simp [hexit]
  · exact fun h => hself ((hasArc_setEntry ha hb).mp ((hasArc_setExit hc).mp h))

theorem mem_addState_empty {origin : Nat} {alphabet : OrderedSet Letter} :
    q ∈ (empty origin alphabet).addState ↔ q = ⟨0, origin⟩ := by
  rw [mem_addState, or_iff_right (not_mem_empty _ _)]
  rfl

/-- In an automaton without states, no arcs appear but those that are drawn with the states. -/
theorem self_addState (hself : ∀ {p l q}, a.HasArc p l q → l = .epsilon ∧ p = q)
    (h : a.addState.HasArc p l q) : l = .epsilon ∧ p = q := by
  rcases hasArc_addState.mp h with h | ⟨-, rfl, rfl, rfl⟩
  · exact hself h
  · exact ⟨rfl, rfl⟩

/-- The automaton of the empty tree is a bare one, whose only state is entry and exit. -/
theorem exists_ofTree_empty_bare (origin : Nat) :
    ∃ a, ofTree origin .empty = .ok a ∧ Bare a .empty ⟨0, origin⟩ ⟨0, origin⟩ := by
  obtain ⟨b, c, hb, hc, bare⟩ := exists_bare (a := (empty origin (alphabetOfTree .empty)).addState)
    ⟨0, origin⟩ ⟨0, origin⟩ (wellFormed_empty _ _).addState rfl (by simp [mem_addState_empty])
    (fun h => not_mem_empty _ _ (isExit_addState.mp h).mem)
    (self_addState fun h => absurd h.source_mem (not_mem_empty _ _))
  have hfirst : (empty origin (alphabetOfTree .empty)).nextId = ⟨0, origin⟩ := rfl
  exact ⟨c, by simp only [ofTree, hfirst, hb, hc], bare⟩

theorem exists_ofTree_empty (origin : Nat) :
    ∃ a, ofTree origin .empty = .ok a ∧ Realizes a .empty := by
  obtain ⟨a, ha, bare⟩ := exists_ofTree_empty_bare origin
  refine ⟨a, ha, bare.wellFormed, ⟨_, bare.entry_eq⟩, bare.alphabet_eq, fun w => ?_, fun q hq => ?_⟩
  · rw [SyntaxTree.mem_language_empty]
    constructor
    · rintro ⟨p, q, -, hpq, -⟩
      exact (bare.eq_of_leads hpq).1
    · rintro rfl
      exact ⟨_, _, bare.entry_eq, .refl _, bare.isExit_iff.mpr rfl⟩
  · exact ⟨[], q, .refl q, bare.isExit_iff.mpr ((or_self _).mp (bare.mem_iff.mp hq))⟩

/-- A tree wired between the states of a bare automaton realizes the tree. -/
theorem Bare.realizes {first last : StateId} (h : Bare a t first last) (hne : first ≠ last)
    (hb : Wired t a first last b) : Realizes b t := by
  have e := hb.extension
  have hfirst : first ∈ a := h.mem_iff.mpr (Or.inl rfl)
  have hlast : last ∈ a := h.mem_iff.mpr (Or.inr rfl)
  have hentry : b.entry = some first := e.entry_eq.trans h.entry_eq
  have hexit : ∀ {q}, b.IsExit q ↔ q = last := e.isExit_iff.trans h.isExit_iff
  refine ⟨e.wellFormed h.wellFormed, ⟨_, hentry⟩, e.alphabet_eq.trans h.alphabet_eq, fun w => ?_,
    fun q hq => ?_⟩
  · constructor
    · rintro ⟨p, q, hp, hpq, hq⟩
      rw [hentry] at hp
      cases hp
      rw [hexit.mp hq] at hpq
      let K : StateId → Language Char := fun q => if q = last then 1 else t.language
      have hK : a.Labelling K := by
        intro p l q hpq
        obtain ⟨rfl, rfl⟩ := h.self hpq
        exact fun w hw => hw
      have hKfirst : K first = t.language := if_neg hne
      have hKlast : K last = 1 := if_pos rfl
      obtain ⟨K', hold, hK'⟩ := hb.exists_labelling h.wellFormed hfirst hlast hK
        (by rw [hKfirst, hKlast, mul_one])
      have hnil : [] ∈ K' last := by
        rw [hold last hlast, hKlast]
        exact Language.nil_mem_one
      have hw := hK'.leads hpq hnil
      rw [hold first hfirst, hKfirst, List.append_nil] at hw
      exact hw
    · exact fun hw => ⟨first, last, hentry, hb.leads hw, hexit.mpr rfl⟩
  · by_cases hold : q ∈ a
    · rcases h.mem_iff.mp hold with rfl | rfl
      · obtain ⟨w, hw⟩ := hb.exists_leads
        exact ⟨w, last, hw, hexit.mpr rfl⟩
      · exact ⟨[], q, .refl q, hexit.mpr rfl⟩
    · obtain ⟨w, hw⟩ := hb.productive hq hold
      exact ⟨w, last, hw, hexit.mpr rfl⟩

/-- A tree other than the empty one is wired between the two states of a bare automaton. -/
theorem exists_ofTree_eq_wire (origin : Nat) (ht : t ≠ .empty) :
    ∃ a, Bare a t ⟨0, origin⟩ ⟨1, origin⟩ ∧
      ofTree origin t = a.wire ⟨0, origin⟩ ⟨1, origin⟩ t := by
  obtain ⟨b, c, hb, hc, bare⟩ :=
    exists_bare (a := (empty origin (alphabetOfTree t)).addState.addState) ⟨0, origin⟩ ⟨1, origin⟩
      (wellFormed_empty _ _).addState.addState rfl
      (by intro q; rw [mem_addState, mem_addState_empty]; rfl)
      (fun h => not_mem_empty _ _ (isExit_addState.mp (isExit_addState.mp h)).mem)
      (self_addState (self_addState fun h => absurd h.source_mem (not_mem_empty _ _)))
  have hfirst : (empty origin (alphabetOfTree t)).nextId = ⟨0, origin⟩ := rfl
  have hlast : (empty origin (alphabetOfTree t)).addState.nextId = ⟨1, origin⟩ := rfl
  refine ⟨c, bare, ?_⟩
  cases t with
  | empty => exact absurd rfl ht
  | leaf x => simp only [ofTree, hfirst, hlast, hb, hc]
  | node o children => simp only [ofTree, hfirst, hlast, hb, hc]

theorem Bare.epsilon_mem {first last : StateId} (h : Bare a t first last) :
    Letter.epsilon ∈ a.alphabet := by
  rw [h.alphabet_eq, mem_alphabetOfTree]
  exact Or.inl rfl

theorem Bare.char_mem {first last : StateId} (h : Bare a t first last) :
    ∀ x ∈ t.leaves, Letter.char x ∈ a.alphabet := fun x hx => by
  rw [h.alphabet_eq, mem_alphabetOfTree]
  exact Or.inr ⟨x, hx, rfl⟩

theorem exists_ofTree_wellShaped (origin : Nat) (ht : t.WellShaped) :
    ∃ a, ofTree origin t = .ok a ∧ Realizes a t := by
  obtain ⟨a, bare, heq⟩ := exists_ofTree_eq_wire origin ht.ne_empty
  obtain ⟨b, hb, hwired⟩ := exists_wire ht bare.epsilon_mem bare.char_mem
    (bare.mem_iff.mpr (Or.inl rfl)) (bare.mem_iff.mpr (Or.inr rfl))
  exact ⟨b, heq.trans hb, bare.realizes (by simp) hwired⟩

/-- **The automaton of a tree exists and accepts the language of the tree.** -/
theorem exists_ofTree (origin : Nat) (ht : t = .empty ∨ t.WellShaped) :
    ∃ a, ofTree origin t = .ok a ∧ Realizes a t := by
  rcases ht with rfl | ht
  · exact exists_ofTree_empty origin
  · exact exists_ofTree_wellShaped origin ht

/-! ## Trees with defects -/

theorem wire_of_arity_ne {o : Operator} {children : List SyntaxTree}
    (h : children.length ≠ o.arity) :
    a.wire start stop (.node o children) = .error (.wrongArity o children.length) := by
  cases o with
  | union | concatenation =>
    rcases children with _ | ⟨left, _ | ⟨right, _ | ⟨third, rest⟩⟩⟩
    · rfl
    · rfl
    · exact absurd rfl h
    · rfl
  | star =>
    rcases children with _ | ⟨body, _ | ⟨second, rest⟩⟩
    · rfl
    · exact absurd rfl h
    · rfl

/-- If a tree has a first defect, wiring it between any two states of an automaton that has its
letters fails with it. -/
def WireFails (t : SyntaxTree) : Prop :=
  ∀ {a : Automaton} {start stop : StateId} {f : Fault}, t.firstDefect = some f →
    Letter.epsilon ∈ a.alphabet → (∀ x ∈ t.leaves, Letter.char x ∈ a.alphabet) →
    start ∈ a → stop ∈ a → a.wire start stop t = .error f

/-- Of two trees that are wired one after the other, the one that comes first with a defect fails.
If this is the second one, the first one is well-shaped and has been wired. -/
theorem wire_pair_eq_error {left right : SyntaxTree} {p' q' : StateId} {f : Fault}
    (hl : WireFails left) (hr : WireFails right)
    (h : (SyntaxTree.nodesOfAll [left, right]).findSome? SyntaxTree.defect = some f)
    (hε : Letter.epsilon ∈ a.alphabet)
    (hleaves : ∀ x ∈ SyntaxTree.leavesOfAll [left, right], Letter.char x ∈ a.alphabet)
    (hp : p ∈ a) (hq : q ∈ a) (hp' : p' ∈ a) (hq' : q' ∈ a) :
    (match a.wire p q left with
      | .error e => (.error e : Except Fault Automaton)
      | .ok b => b.wire p' q' right) = .error f := by
  simp only [SyntaxTree.leavesOfAll, List.append_nil, List.mem_append] at hleaves
  rcases SyntaxTree.firstDefect_pair h with hleft | ⟨hleft, hright⟩
  · rw [hl hleft hε (fun x hx => hleaves x (Or.inl hx)) hp hq]
  · obtain ⟨b, hb, hwired⟩ := exists_wire hleft hε (fun x hx => hleaves x (Or.inl hx)) hp hq
    have e := hwired.extension
    rw [hb]
    exact hr hright (e.alphabet_eq ▸ hε) (fun x hx => e.alphabet_eq ▸ hleaves x (Or.inr hx))
      (e.mem hp') (e.mem hq')

/-- **Wiring a tree with defects fails with the first of them.**  What comes before it in the tree
is well-shaped and has been wired, so no other fault comes first. -/
theorem wireFails (t : SyntaxTree) : WireFails t := by
  induction t using SyntaxTree.induction with
  | empty =>
    intro a start stop f h _ _ _ _
    cases h
    rfl
  | leaf x =>
    intro a start stop f h
    cases h
  | node o children ih =>
    intro a start stop f h hε hleaves hstart hstop
    by_cases hlength : children.length = o.arity
    · rw [SyntaxTree.firstDefect_of_arity_eq hlength] at h
      cases o with
      | union =>
        obtain ⟨left, right, rfl⟩ := List.length_eq_two.mp hlength
        exact wire_pair_eq_error (ih left (by simp)) (ih right (by simp)) h hε hleaves hstart hstop
          hstart hstop
      | concatenation =>
        obtain ⟨left, right, rfl⟩ := List.length_eq_two.mp hlength
        have hmiddle := nextId_mem_addState a
        exact wire_pair_eq_error (a := a.addState) (ih left (by simp)) (ih right (by simp)) h hε
          hleaves (mem_addState_of_mem hstart) hmiddle hmiddle (mem_addState_of_mem hstop)
      | star =>
        obtain ⟨body, rfl⟩ := List.length_eq_one_iff.mp hlength
        simp only [SyntaxTree.leaves, SyntaxTree.leavesOfAll, List.append_nil] at hleaves
        obtain ⟨b, hb⟩ := exists_starLinked hε hstart hstop
        have e := hb.extends_addState
        have herror := ih body (by simp) (SyntaxTree.firstDefect_single h) (e.alphabet_eq ▸ hε)
          (fun x hx => e.alphabet_eq ▸ hleaves x hx) (hb.mem_iff.mpr (Or.inr (Or.inl rfl)))
          (hb.mem_iff.mpr (Or.inr (Or.inr rfl)))
        obtain ⟨a₁, a₂, a₃, h₁, h₂, h₃, h₄⟩ := hb
        simp only [starFirst, starLast] at h₁ h₂ h₃ h₄ herror
        simp only [wire, h₁, h₂, h₃, h₄, herror]
    · rw [SyntaxTree.firstDefect_of_arity_ne hlength] at h
      cases h
      exact wire_of_arity_ne hlength

/-- Wiring a tree other than the empty one succeeds, or fails with its first defect. -/
theorem ofTree_eq_error (origin : Nat) (ht : t ≠ .empty) {f : Fault} (h : t.firstDefect = some f) :
    ofTree origin t = .error f := by
  obtain ⟨a, bare, heq⟩ := exists_ofTree_eq_wire origin ht
  rw [heq]
  exact wireFails t h bare.epsilon_mem bare.char_mem (bare.mem_iff.mpr (Or.inl rfl))
    (bare.mem_iff.mpr (Or.inr rfl))

theorem ofTree_cases (origin : Nat) (t : SyntaxTree) :
    (∃ a, ofTree origin t = .ok a ∧ Realizes a t ∧ (t = .empty ∨ t.WellShaped)) ∨
    ∃ f, ofTree origin t = .error f ∧ t ≠ .empty ∧ t.firstDefect = some f := by
  by_cases ht : t = .empty
  · obtain ⟨a, ha, hrealizes⟩ := exists_ofTree origin (Or.inl ht)
    exact Or.inl ⟨a, ha, hrealizes, Or.inl ht⟩
  · cases hdefect : t.firstDefect with
    | none =>
      have hshape := SyntaxTree.wellShaped_iff_firstDefect.mpr hdefect
      obtain ⟨a, ha, hrealizes⟩ := exists_ofTree origin (Or.inr hshape)
      exact Or.inl ⟨a, ha, hrealizes, Or.inr hshape⟩
    | some f => exact Or.inr ⟨f, ofTree_eq_error origin ht hdefect, ht, rfl⟩

/-- **A tree has an automaton exactly if it has no defect**: every operator has as many children as
operands, and no empty tree is below the root.  The automaton then accepts the language of the tree.
Otherwise the first node in pre-order with a defect is blamed; faults of the automaton that the tree
is wired into, letters and states that are foreign to it, do not occur. -/
theorem ofTree_outcome (origin : Nat) (t : SyntaxTree) :
    ((∃ a, ofTree origin t = .ok a) ↔ t = .empty ∨ (.empty ∉ t.nodes ∧
      ∀ o children, .node o children ∈ t.nodes → children.length = o.arity)) ∧
    (∀ a, ofTree origin t = .ok a →
      ∀ w, ∃ x, a.simulates w = .ok x ∧ (x = true ↔ w ∈ t.language)) ∧
    (∀ f, ofTree origin t = .error f ↔
      t ≠ .empty ∧ t.nodes.findSome? SyntaxTree.defect = some f) ∧
    ∀ f, ofTree origin t = .error f →
      (∀ l, f ≠ .foreignLetter l) ∧ ∀ q, f ≠ .foreignState q := by
  have hdefect : ∀ f, ofTree origin t = .error f ↔
      t ≠ .empty ∧ t.nodes.findSome? SyntaxTree.defect = some f := fun f => by
    refine ⟨fun h => ?_, fun h => ofTree_eq_error origin h.1 h.2⟩
    rcases ofTree_cases origin t with ⟨a, ha, -⟩ | ⟨g, hg, hne, hfirst⟩
    · rw [ha] at h
      cases h
    · rw [hg] at h
      cases h
      exact ⟨hne, hfirst⟩
  refine ⟨?_, fun a ha w => ?_, hdefect, fun f hf => ?_⟩
  · rw [← SyntaxTree.wellShaped_iff_nodes]
    rcases ofTree_cases origin t with ⟨a, ha, -, hshape⟩ | ⟨f, hf, hne, hfirst⟩
    · exact ⟨fun _ => hshape, fun _ => ⟨a, ha⟩⟩
    · rw [hf, SyntaxTree.wellShaped_iff_firstDefect, hfirst]
      simp [hne]
  · rcases ofTree_cases origin t with ⟨b, hb, hrealizes, -⟩ | ⟨f, hf, -⟩
    · rw [ha] at hb
      cases hb
      obtain ⟨p, hentry⟩ := hrealizes.exists_entry
      obtain ⟨x, hx, hiff⟩ := simulates_spec hrealizes.wellFormed hentry w
      exact ⟨x, hx, hiff.trans (hrealizes.accepts_iff w)⟩
    · rw [ha] at hf
      cases hf
  · rcases SyntaxTree.firstDefect_cases ((hdefect f).mp hf).2 with rfl | ⟨o, n, rfl⟩
    · exact ⟨fun l => Fault.noConfusion, fun q => Fault.noConfusion⟩
    · exact ⟨fun l => Fault.noConfusion, fun q => Fault.noConfusion⟩

/-- A tree without defects, and one with three: the concatenation comes before the empty tree that
is its only child, and before the union, which is the last child of the root. -/
theorem ofTree_outcome_three_defects :
    (∃ a, ofTree 0 (.node .star [.node .union [.leaf 'a', .leaf 'b']]) = .ok a ∧
      ∃ x, a.simulates ['b', 'a'] = .ok x ∧ (x = true ↔
        ['b', 'a'] ∈ SyntaxTree.language (.node .star [.node .union [.leaf 'a', .leaf 'b']]))) ∧
    ofTree 0 (.node .union [.node .concatenation [.empty], .node .union []]) =
      .error (.wrongArity .concatenation 1) := by
  obtain ⟨hiff, hwords, -⟩ := ofTree_outcome 0 (.node .star [.node .union [.leaf 'a', .leaf 'b']])
  obtain ⟨-, -, hfaults, -⟩ :=
    ofTree_outcome 0 (.node .union [.node .concatenation [.empty], .node .union []])
  have hshape : SyntaxTree.WellShaped (.node .star [.node .union [.leaf 'a', .leaf 'b']]) :=
    .star (.union (.leaf 'a') (.leaf 'b'))
  obtain ⟨a, ha⟩ := hiff.mpr (Or.inr (SyntaxTree.wellShaped_iff_nodes.mp hshape))
  exact ⟨⟨a, ha, hwords a ha ['b', 'a']⟩, (hfaults _).mpr ⟨SyntaxTree.noConfusion, rfl⟩⟩

end Automaton

end PatternAutomata
