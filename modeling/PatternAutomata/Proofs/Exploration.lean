import Mathlib.Data.Finset.Card
import Mathlib.Data.Finset.Dedup
import Mathlib.Logic.Relation
import PatternAutomata.Exploration

/-!
# What a search finds

`explore` works with a budget.  Here the budget is argued away.  `Search` is the same search
without one: a relation between the state of a search and the list of everything it finds, which
holds only if the search comes to an end.

* `Search.unique`: the list found is determined by the state, so a search with enough budget does
  not depend on it.
* `Explored.mem_iff`: a search finds exactly what can be discovered from its seeds.
* `Explored.closed`: and with each item it finds the successors of that item.
* `explore_cases`: with a budget above the number of items that can be expanded, `explore` either
  performs the whole search or fails as some item that can be discovered does.
* `explore_eq_error`: breadth first, it fails as the first seed does that cannot be expanded.
-/

namespace PatternAutomata

variable {ε α : Type}

/-- What can be discovered from some seeds: the seeds, and the successors of what can be discovered
and expanded. -/
inductive Discoverable (successors : α → Except ε (List α)) (seeds : List α) : α → Prop where
  | seed {a : α} : a ∈ seeds → Discoverable successors seeds a
  | next {a b : α} {next : List α} : Discoverable successors seeds a →
      successors a = .ok next → b ∈ next → Discoverable successors seeds b

/-- If expanding an item yields what a relation leads to from it, exploring follows the relation. -/
theorem discoverable_iff_reflTransGen {successors : α → Except ε (List α)} {seeds : List α}
    {R : α → α → Prop} (hR : ∀ a s, s ∈ seeds → Relation.ReflTransGen R s a →
      ∃ next, successors a = .ok next ∧ ∀ b, b ∈ next ↔ R a b) {b : α} :
    Discoverable successors seeds b ↔ ∃ s ∈ seeds, Relation.ReflTransGen R s b := by
  constructor
  · intro h
    induction h with
    | seed ha => exact ⟨_, ha, .refl⟩
    | next _ hnext hb ih =>
      obtain ⟨s, hs, hsa⟩ := ih
      obtain ⟨next, hok, hmem⟩ := hR _ s hs hsa
      rw [hnext] at hok
      cases hok
      exact ⟨s, hs, hsa.tail ((hmem _).mp hb)⟩
  · rintro ⟨s, hs, hsb⟩
    induction hsb with
    | refl => exact .seed hs
    | tail hsa hab ih =>
      obtain ⟨next, hnext, hmem⟩ := hR _ s hs hsa
      exact ih.next hnext ((hmem _).mpr hab)

theorem Discipline.perm_enqueue (d : Discipline) (waiting fresh : List α) :
    (d.enqueue waiting fresh).Perm (waiting ++ fresh) := by
  cases d with
  | breadthFirst => exact List.Perm.refl _
  | depthFirst => exact ((List.reverse_perm fresh).append_right waiting).trans List.perm_append_comm

variable [DecidableEq α]

/-- What is unseen depends on the known items only as a set. -/
theorem unseen_congr {known known' : List α} (h : ∀ a, a ∈ known ↔ a ∈ known') (l : List α) :
    unseen known l = unseen known' l := by
  induction l generalizing known known' with
  | nil => rfl
  | cons b l ih =>
    rw [unseen, unseen]
    by_cases hb : b ∈ known
    · rw [if_pos hb, if_pos ((h b).mp hb), ih h]
    · rw [if_neg hb, if_neg fun hb' => hb ((h b).mpr hb')]
      have hcons : ∀ a, a ∈ b :: known ↔ a ∈ b :: known' := fun a => by simp [h a]
      rw [ih hcons]

theorem unseen_singleton_of_mem {a : α} {known : List α} (h : a ∈ known) :
    unseen known [a] = [] := by
  rw [unseen, if_pos h, unseen]

theorem unseen_singleton_of_not_mem {a : α} {known : List α} (h : a ∉ known) :
    unseen known [a] = [a] := by
  rw [unseen, if_neg h, unseen]

theorem mem_append_unseen_singleton (a : α) (known : List α) : a ∈ known ++ unseen known [a] := by
  rw [List.mem_append, mem_unseen]
  by_cases h : a ∈ known
  · exact Or.inl h
  · exact Or.inr ⟨List.mem_singleton_self a, h⟩

/-- What is new in a list is what is new in its head, and then what is new in its tail. -/
theorem unseen_cons (a : α) (known l : List α) :
    unseen known (a :: l) = unseen known [a] ++ unseen (known ++ unseen known [a]) l := by
  by_cases h : a ∈ known
  · rw [unseen_singleton_of_mem h, List.append_nil, unseen, if_pos h]
    rfl
  · have hmem : ∀ b, b ∈ a :: known ↔ b ∈ known ++ [a] := fun b => by simp [or_comm]
    rw [unseen_singleton_of_not_mem h, unseen, if_neg h, unseen_congr hmem]
    rfl

theorem unseen_append (known l m : List α) :
    unseen known (l ++ m) = unseen known l ++ unseen (known ++ unseen known l) m := by
  induction l generalizing known with
  | nil => rw [List.nil_append, unseen, List.nil_append, List.append_nil]
  | cons b l ih =>
    rw [List.cons_append, unseen_cons b known (l ++ m), ih, unseen_cons b known l,
      List.append_assoc, List.append_assoc]

theorem nodup_append_unseen {known : List α} (h : known.Nodup) (l : List α) :
    (known ++ unseen known l).Nodup := by
  refine List.nodup_append.mpr ⟨h, nodup_unseen, fun a ha b hb hab => ?_⟩
  rw [mem_unseen] at hb
  exact hb.2 (hab ▸ ha)

/-- `Search successors d known waiting found`: the search that knows `known` and has yet to expand
`waiting` comes to an end, and then it knows `found`. -/
inductive Search (successors : α → Except ε (List α)) (d : Discipline) :
    List α → List α → List α → Prop where
  | done {known : List α} : Search successors d known [] known
  | step {a : α} {next known waiting found : List α} : successors a = .ok next →
      Search successors d (known ++ unseen known next) (d.enqueue waiting (unseen known next)) found →
      Search successors d known (a :: waiting) found

/-- The search from some seeds comes to an end and finds `found`. -/
def Explored (successors : α → Except ε (List α)) (d : Discipline) (seeds found : List α) : Prop :=
  Search successors d (unseen [] seeds) (d.enqueue [] (unseen [] seeds)) found

variable {successors : α → Except ε (List α)} {d : Discipline}

namespace Search

variable {known waiting found : List α}

/-- A search finds one list. -/
theorem unique {found' : List α} (h : Search successors d known waiting found)
    (h' : Search successors d known waiting found') : found = found' := by
  induction h with
  | done => cases h'; rfl
  | step ha _ ih =>
    cases h' with
    | step ha' h' =>
      rw [ha] at ha'
      cases ha'
      exact ih h'

theorem nodup (h : Search successors d known waiting found) (hknown : known.Nodup) :
    found.Nodup := by
  induction h with
  | done => exact hknown
  | step _ _ ih => exact ih (nodup_append_unseen hknown _)

/-- Nothing known is forgotten, and it keeps its place. -/
theorem isPrefix (h : Search successors d known waiting found) : known <+: found := by
  induction h with
  | done => exact List.prefix_rfl
  | step _ _ ih => exact (List.prefix_append _ _).trans ih

/-- If every known item either waits or has been expanded, every item found has been expanded. -/
theorem closed (h : Search successors d known waiting found)
    (hknown : ∀ a ∈ known, a ∈ waiting ∨ ∃ next, successors a = .ok next ∧ next ⊆ known) :
    ∀ a ∈ found, ∃ next, successors a = .ok next ∧ next ⊆ found := by
  induction h with
  | done =>
    intro a ha
    exact (hknown a ha).resolve_left List.not_mem_nil
  | @step a next known waiting found ha _ ih =>
    have hnext : next ⊆ known ++ unseen known next := fun b hb => by
      by_cases hbk : b ∈ known
      · exact List.mem_append_left _ hbk
      · exact List.mem_append_right _ (mem_unseen.mpr ⟨hb, hbk⟩)
    refine ih fun b hb => ?_
    rw [Discipline.mem_enqueue]
    rcases List.mem_append.mp hb with hb | hb
    · rcases hknown b hb with hbw | ⟨m, hm, hmk⟩
      · rcases List.mem_cons.mp hbw with rfl | hbw
        · exact Or.inr ⟨next, ha, hnext⟩
        · exact Or.inl (Or.inl hbw)
      · exact Or.inr ⟨m, hm, fun c hc => List.mem_append_left _ (hmk hc)⟩
    · exact Or.inl (Or.inr hb)

/-- A search finds only what can be discovered. -/
theorem discoverable {seeds : List α} (h : Search successors d known waiting found)
    (hwaiting : waiting ⊆ known) (hknown : ∀ a ∈ known, Discoverable successors seeds a) :
    ∀ a ∈ found, Discoverable successors seeds a := by
  induction h with
  | done => exact hknown
  | step ha _ ih =>
    refine ih (fun b hb => ?_) (fun b hb => ?_)
    · rcases Discipline.mem_enqueue.mp hb with hb | hb
      · exact List.mem_append_left _ (hwaiting (List.mem_cons_of_mem _ hb))
      · exact List.mem_append_right _ hb
    · rcases List.mem_append.mp hb with hb | hb
      · exact hknown b hb
      · exact (hknown _ (hwaiting List.mem_cons_self)).next ha (mem_unseen.mp hb).1

end Search

namespace Explored

variable {seeds found : List α}

theorem unique {found' : List α} (h : Explored successors d seeds found)
    (h' : Explored successors d seeds found') : found = found' :=
  Search.unique h h'

theorem nodup (h : Explored successors d seeds found) : found.Nodup :=
  Search.nodup h nodup_unseen

/-- A search from one item finds it first. -/
theorem getElem?_zero {a : α} (h : Explored successors d [a] found) : found[0]? = some a := by
  obtain ⟨rest, rfl⟩ := Search.isPrefix h
  rw [unseen_singleton_of_not_mem List.not_mem_nil]
  rfl

/-- Every item found has been expanded, and its successors have been found. -/
theorem closed (h : Explored successors d seeds found) :
    ∀ a ∈ found, ∃ next, successors a = .ok next ∧ next ⊆ found :=
  Search.closed h fun _ ha => Or.inl (Discipline.mem_enqueue.mpr (Or.inr ha))

/-- **A search finds exactly what can be discovered.** -/
theorem mem_iff (h : Explored successors d seeds found) {a : α} :
    a ∈ found ↔ Discoverable successors seeds a := by
  constructor
  · refine fun ha => Search.discoverable h (fun b hb => ?_) (fun b hb => ?_) a ha
    · exact (Discipline.mem_enqueue.mp hb).resolve_left List.not_mem_nil
    · exact .seed (mem_unseen.mp hb).1
  · intro ha
    induction ha with
    | seed ha => exact (Search.isPrefix h).subset (mem_unseen.mpr ⟨ha, List.not_mem_nil⟩)
    | next _ hnext hb ih =>
      obtain ⟨next, hok, hsub⟩ := h.closed _ ih
      rw [hnext] at hok
      cases hok
      exact hsub hb

end Explored

/-- One search, seen from the middle.  `expanded` lists the items that the budget was spent on: no
item twice, and only items of `pool`. -/
theorem expand_cases {seeds : List α} {pool : Finset α}
    (hpool : ∀ a, Discoverable successors seeds a → (∃ next, successors a = .ok next) →
      a ∈ pool)
    {budget : Nat} {known waiting expanded : List α} (hknown : known.Nodup)
    (hperm : known.Perm (expanded ++ waiting))
    (hdiscoverable : ∀ a ∈ known, Discoverable successors seeds a)
    (hexpanded : ∀ a ∈ expanded, a ∈ pool)
    (hbudget : pool.card < budget + expanded.length) :
    (∃ found, expand successors d budget known waiting = .ok found ∧
      Search successors d known waiting found) ∨
    ∃ a e, Discoverable successors seeds a ∧ successors a = .error e ∧
      expand successors d budget known waiting = .error e := by
  induction budget generalizing known waiting expanded with
  | zero =>
    -- more items would have been expanded than there are
    exfalso
    have hnodup : expanded.Nodup := (List.nodup_append.mp (hperm.nodup_iff.mp hknown)).1
    have hle : expanded.toFinset.card ≤ pool.card :=
      Finset.card_le_card fun a ha => hexpanded a (List.mem_toFinset.mp ha)
    rw [List.toFinset_card_of_nodup hnodup] at hle
    omega
  | succ budget ih =>
    cases waiting with
    | nil => exact Or.inl ⟨known, rfl, .done⟩
    | cons a waiting =>
      have ha : a ∈ known := hperm.mem_iff.mpr (by simp)
      cases hnext : successors a with
      | error e => exact Or.inr ⟨a, e, hdiscoverable a ha, hnext, by simp only [expand, hnext]⟩
      | ok next =>
        have hperm' : (known ++ unseen known next).Perm
            ((a :: expanded) ++ d.enqueue waiting (unseen known next)) := by
          refine (hperm.append_right _).trans ?_
          have hmiddle : ((expanded ++ a :: waiting) ++ unseen known next).Perm
              (a :: (expanded ++ (waiting ++ unseen known next))) := by
            rw [List.append_assoc, List.cons_append]
            exact List.perm_middle
          exact hmiddle.trans
            (((d.perm_enqueue waiting _).symm.append_left expanded).cons a)
        have hdiscoverable' : ∀ b ∈ known ++ unseen known next,
            Discoverable successors seeds b := fun b hb => by
          rcases List.mem_append.mp hb with hb | hb
          · exact hdiscoverable b hb
          · exact (hdiscoverable a ha).next hnext (mem_unseen.mp hb).1
        have hexpanded' : ∀ b ∈ a :: expanded, b ∈ pool := fun b hb => by
          rcases List.mem_cons.mp hb with rfl | hb
          · exact hpool b (hdiscoverable b ha) ⟨next, hnext⟩
          · exact hexpanded b hb
        rcases ih (nodup_append_unseen hknown next) hperm' hdiscoverable' hexpanded'
            (by rw [List.length_cons]; omega) with
          ⟨found, hfound, hsearch⟩ | ⟨b, e, hb, he, hfail⟩
        · exact Or.inl ⟨found, by simp only [expand, hnext]; exact hfound, .step hnext hsearch⟩
        · exact Or.inr ⟨b, e, hb, he, by simp only [expand, hnext]; exact hfail⟩

/-- **The budget does not matter.**  With more budget than there are items to expand, `explore`
performs the whole search, unless an item that can be discovered cannot be expanded. -/
theorem explore_cases {seeds : List α} {pool : Finset α}
    (hpool : ∀ a, Discoverable successors seeds a → (∃ next, successors a = .ok next) →
      a ∈ pool)
    {budget : Nat} (hbudget : pool.card < budget) :
    (∃ found, explore successors d budget seeds = .ok found ∧
      Explored successors d seeds found) ∨
    ∃ a e, Discoverable successors seeds a ∧ successors a = .error e ∧
      explore successors d budget seeds = .error e := by
  have hperm : (unseen [] seeds).Perm ([] ++ d.enqueue [] (unseen [] seeds)) :=
    (d.perm_enqueue [] (unseen [] seeds)).symm
  exact expand_cases hpool nodup_unseen hperm (fun a ha => .seed (mem_unseen.mp ha).1)
    (fun a ha => absurd ha List.not_mem_nil) hbudget

/-- If everything that can be discovered can be expanded, the search succeeds. -/
theorem exists_explored {seeds : List α} {pool : Finset α}
    (hsuccessors : ∀ a, Discoverable successors seeds a →
      a ∈ pool ∧ ∃ next, successors a = .ok next)
    {budget : Nat} (hbudget : pool.card < budget) :
    ∃ found, explore successors d budget seeds = .ok found ∧
      Explored successors d seeds found := by
  rcases explore_cases (d := d) (fun a ha _ => (hsuccessors a ha).1) hbudget with
    h | ⟨a, e, ha, he, -⟩
  · exact h
  · obtain ⟨next, hnext⟩ := (hsuccessors a ha).2
    rw [he] at hnext
    cases hnext

/-! ## Seeds that cannot be expanded -/

/-- Breadth first, the waiting items come before everything that is discovered later, so the first
of them that cannot be expanded ends the search. -/
theorem expand_eq_error {a : α} {e : ε} {before after : List α}
    (hbefore : ∀ b ∈ before, ∃ next, successors b = .ok next) (ha : successors a = .error e)
    {budget : Nat} (hbudget : before.length < budget) (known : List α) :
    expand successors .breadthFirst budget known (before ++ a :: after) = .error e := by
  induction before generalizing budget known after with
  | nil =>
    cases budget with
    | zero => cases hbudget
    | succ budget => simp only [List.nil_append, expand, ha]
  | cons b before ih =>
    obtain ⟨next, hnext⟩ := hbefore b List.mem_cons_self
    cases budget with
    | zero => cases hbudget
    | succ budget =>
      simp only [List.cons_append, expand, hnext, Discipline.enqueue, List.append_assoc]
      exact ih (fun c hc => hbefore c (List.mem_cons_of_mem _ hc))
        (Nat.lt_of_succ_lt_succ hbudget) _

/-- **Breadth first, the first seed that cannot be expanded ends the search.** -/
theorem explore_eq_error {a : α} {e : ε} {before : List α} {pool : Finset α}
    (hbefore : ∀ b ∈ before, b ∈ pool ∧ ∃ next, successors b = .ok next)
    (ha : successors a = .error e) {budget : Nat} (hbudget : pool.card < budget)
    (after : List α) :
    explore successors .breadthFirst budget (before ++ a :: after) = .error e := by
  have hnew : a ∉ [] ++ unseen [] before := fun h => by
    obtain ⟨-, next, hnext⟩ := hbefore a (mem_unseen.mp h).1
    rw [ha] at hnext
    cases hnext
  have hlength : (unseen [] before).length ≤ pool.card := by
    rw [← List.toFinset_card_of_nodup nodup_unseen]
    refine Finset.card_le_card fun b hb => ?_
    exact (hbefore b (mem_unseen.mp (List.mem_toFinset.mp hb)).1).1
  rw [explore, unseen_append, unseen_cons, unseen_singleton_of_not_mem hnew]
  exact expand_eq_error (fun b hb => (hbefore b (mem_unseen.mp hb).1).2) ha
    (Nat.lt_of_le_of_lt hlength hbudget) _

end PatternAutomata
