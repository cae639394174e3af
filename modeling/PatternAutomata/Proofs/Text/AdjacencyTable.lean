import Mathlib.Data.Set.Basic
import PatternAutomata.Proofs.Automaton.Answers
import PatternAutomata.Proofs.Text.Rows

/-!
# Adjacency tables show what they list

The table of an automaton is padded text, and some of its letters may be spaces or line breaks.
Still nothing is lost.  A table says of each listed state its index, its marks and, for each letter,
the set of indices of its targets (`Automaton.listedPart`), and two automata over one alphabet have
the same table exactly if this is the same (`render_eq_iff`).

Reading a table back takes three steps, and the widths of its columns in none of them.

* How many line breaks the head holds is up to the alphabet, and there are none in the lines of the
  states.  So a table shows these lines (`lines_eq_of_render_eq`).
* The label of a state and its cells are the words of its line (`words_stateLine`).
* A label shows marks and index (`eq_of_shortLabel_eq`), and a cell the indices of the targets
  (`indexText_injective`).

In the other direction a table is a function of the labels and the cells
(`render_eq_of_shown_eq`).  How it is laid out is said by `Layout`: every column begins at one
offset, in the head and in all lines of states.
-/

namespace PatternAutomata

namespace AdjacencyTable

variable {s t : State} {l : Letter} {c : Char} {n : Nat} {ns ms : List Nat}

/-! ## Numbers -/

theorem isDigit_of_mem_digits (h : c ∈ digits n) : c.isDigit = true :=
  Nat.isDigit_of_mem_toDigits (by decide) (by decide) h

theorem not_mem_digits (hc : c.isDigit = false) (n : Nat) : c ∉ digits n := fun h => by
  rw [isDigit_of_mem_digits h] at hc
  cases hc

theorem digits_ne_nil (n : Nat) : digits n ≠ [] := Nat.toDigits_ne_nil

theorem digits_injective : Function.Injective digits := fun m n h => by
  have hread := congrArg (fun ds => Nat.ofDigitChars 10 ds 0) h
  simpa [digits, Nat.ofDigitChars_ten_toDigits] using hread

/-! ## Labels -/

/-- A label without the spaces before it. -/
def shortLabel (s : State) : List Char :=
  (marks s).filter (· != ' ') ++ digits s.id.index ++ [':']

theorem exists_label_eq (s : State) : ∃ n, label s = List.replicate n ' ' ++ shortLabel s := by
  rw [label, shortLabel, marks]
  cases s.isEntry <;> cases s.isExit
  · exact ⟨2, rfl⟩
  · exact ⟨1, rfl⟩
  · exact ⟨1, rfl⟩
  · exact ⟨0, rfl⟩

theorem isWord_shortLabel (s : State) : IsWord (shortLabel s) where
  ne_nil := by simp [shortLabel]
  no_space := by
    simp [shortLabel, not_mem_digits]

theorem newline_not_mem_label (s : State) : '\n' ∉ label s := by
  have hmarks : '\n' ∉ marks s := by
    rw [marks]
    split <;> decide
  simp [label, hmarks, not_mem_digits]

/-- **A label shows the marks and the index of its state.** -/
theorem eq_of_shortLabel_eq (h : shortLabel s = shortLabel t) :
    s.id.index = t.id.index ∧ s.isEntry = t.isEntry ∧ s.isExit = t.isExit := by
  have hentry : ∀ s, '>' ∈ shortLabel s ↔ s.isEntry = true := by
    intro s
    rw [shortLabel, marks]
    cases s.isEntry <;> cases s.isExit <;> simp [not_mem_digits]
  have hexit : ∀ s, 'X' ∈ shortLabel s ↔ s.isExit = true := by
    intro s
    rw [shortLabel, marks]
    cases s.isEntry <;> cases s.isExit <;> simp [not_mem_digits]
  have hindex : ∀ s, (shortLabel s).filter Char.isDigit = digits s.id.index := by
    intro s
    have hdigits : (digits s.id.index).filter Char.isDigit = digits s.id.index :=
      List.filter_eq_self.mpr fun c => isDigit_of_mem_digits
    rw [shortLabel, marks]
    cases s.isEntry <;> cases s.isExit <;> simp [hdigits]
  refine ⟨digits_injective ?_, ?_, ?_⟩
  · rw [← hindex s, ← hindex t, h]
  · rw [Bool.eq_iff_iff, ← hentry, ← hentry, h]
  · rw [Bool.eq_iff_iff, ← hexit, ← hexit, h]

/-! ## Lists of targets -/

/-- The indices of the targets of a state on a letter. -/
def targetIndices (s : State) (l : Letter) : List Nat := (s.targets l).toList.map StateId.index

/-- How a list of indices is written. -/
def indexText : List Nat → List Char
  | [] => ['-']
  | n :: ns => [','].intercalate ((n :: ns).map digits)

theorem targetText_eq (s : State) (l : Letter) :
    targetText s l = indexText (targetIndices s l) := by
  rw [targetText, targetIndices]
  cases (s.targets l).toList with
  | nil => rfl
  | cons q qs =>
    rw [List.map_cons, indexText, ← List.map_cons, List.map_map]
    rfl

/-- Nothing stands in joined texts but what is in one of them or divides them. -/
theorem mem_or_exists_mem_of_mem_intercalate {separator : List Char} {ts : List (List Char)}
    (h : c ∈ separator.intercalate ts) : c ∈ separator ∨ ∃ t ∈ ts, c ∈ t := by
  induction ts with
  | nil => cases h
  | cons t ts ih =>
    rcases ts with _ | ⟨u, ts⟩
    · rw [List.intercalate_singleton] at h
      exact Or.inr ⟨t, List.mem_singleton_self t, h⟩
    · rw [List.intercalate_cons_cons, List.mem_append, List.mem_append] at h
      rcases h with (h | h) | h
      · exact Or.inr ⟨t, List.mem_cons_self, h⟩
      · exact Or.inl h
      · exact (ih h).imp_right fun ⟨u, hu, hc⟩ => ⟨u, List.mem_cons_of_mem t hu, hc⟩

theorem mem_indexText (h : c ∈ indexText ns) :
    (c = '-' ∧ ns = []) ∨ c = ',' ∨ c.isDigit = true := by
  rcases ns with _ | ⟨n, ns⟩
  · exact Or.inl ⟨List.mem_singleton.mp h, rfl⟩
  · rcases mem_or_exists_mem_of_mem_intercalate h with h | ⟨ds, hds, hc⟩
    · exact Or.inr (Or.inl (List.mem_singleton.mp h))
    · obtain ⟨m, -, rfl⟩ := List.mem_map.mp hds
      exact Or.inr (Or.inr (isDigit_of_mem_digits hc))

theorem indexText_ne_nil (ns : List Nat) : indexText ns ≠ [] := by
  rcases ns with _ | ⟨n, _ | ⟨m, ns⟩⟩
  · exact List.cons_ne_nil _ _
  · rw [indexText, List.map_singleton, List.intercalate_singleton]
    exact digits_ne_nil n
  · rw [indexText, List.map_cons, List.map_cons, List.intercalate_cons_cons]
    simp

/-- What is neither a digit nor one of the two signs is not in a cell. -/
theorem not_mem_targetText (hdash : c ≠ '-') (hcomma : c ≠ ',') (hdigit : c.isDigit = false)
    (s : State) (l : Letter) : c ∉ targetText s l := by
  rw [targetText_eq]
  intro h
  rcases mem_indexText h with ⟨hc, -⟩ | hc | hc
  · exact hdash hc
  · exact hcomma hc
  · rw [hdigit] at hc
    cases hc

theorem isWord_targetText (s : State) (l : Letter) : IsWord (targetText s l) where
  ne_nil := targetText_eq s l ▸ indexText_ne_nil _
  no_space := not_mem_targetText (by decide) (by decide) (by decide) s l

/-- **A cell shows the list of its targets.** -/
theorem indexText_injective : Function.Injective indexText := by
  have hdash : ∀ {n ns}, indexText [] ≠ indexText (n :: ns) := by
    intro n ns h
    have hmem : '-' ∈ indexText (n :: ns) := h ▸ List.mem_singleton_self '-'
    rcases mem_indexText hmem with ⟨-, h⟩ | h | h <;> cases h
  have hsplit : ∀ {n ns}, (indexText (n :: ns)).splitOn ',' = (n :: ns).map digits := by
    intro n ns
    rw [indexText]
    refine List.splitOn_intercalate ',' (fun ds hds => ?_) (List.cons_ne_nil _ _)
    obtain ⟨m, -, rfl⟩ := List.mem_map.mp hds
    exact not_mem_digits (by decide) m
  intro ns ms h
  rcases ns with _ | ⟨n, ns⟩ <;> rcases ms with _ | ⟨m, ms⟩
  · rfl
  · exact absurd h hdash
  · exact absurd h.symm hdash
  · have hmap : (n :: ns).map digits = (m :: ms).map digits := by rw [← hsplit, ← hsplit, h]
    exact List.map_injective_iff.mpr digits_injective hmap

end AdjacencyTable

/-! ## Listed states -/

/-- What a table says about a state. -/
@[ext]
structure ListedState where
  index : Nat
  isEntry : Bool
  isExit : Bool
  /-- The indices of the states that a letter leads to. -/
  targets : Letter → Set Nat

/-- A state as a table shows it. -/
def State.shown (s : State) : ListedState where
  index := s.id.index
  isEntry := s.isEntry
  isExit := s.isExit
  targets l := {i | ∃ q ∈ s.targets l, q.index = i}

namespace Automaton

variable {a b : Automaton} {q : StateId} {s : State} {l : Letter}

/-- The states that a table lists: those that can be reached, or all if there is no entry. -/
def Listed (a : Automaton) (q : StateId) : Prop := a.Reachable q ∨ a.entry = none ∧ q ∈ a

/-- What a table says about its states. -/
def listedPart (a : Automaton) : Set ListedState :=
  {x | ∃ s ∈ a.states, a.Listed s.id ∧ s.shown = x}

/-! ## The states of a table -/

theorem mem_listed (ha : a.WellFormed) :
    s ∈ AdjacencyTable.listed a ↔ s ∈ a.states ∧ a.Listed s.id := by
  cases hentry : a.entry with
  | none =>
    have hreachable : ¬ a.Reachable s.id := by
      rintro ⟨p, hp, -⟩
      rw [hentry] at hp
      cases hp
    rw [AdjacencyTable.listed, reachable_eq_error hentry, Array.mem_toList_iff, Listed,
      or_iff_right hreachable]
    refine ⟨fun hs => ⟨hs, hentry, ?_⟩, And.left⟩
    obtain ⟨q, hq⟩ := mem_states_iff.mp hs
    exact ha.id_eq hq ▸ mem_of_state? hq
  | some p =>
    obtain ⟨reached, hreached, hmem⟩ := exists_reachable ha hentry
    rw [AdjacencyTable.listed, hreached]
    simp only [List.mem_filter, Array.mem_toList_iff, decide_eq_true_eq, hmem, Listed, hentry,
      Option.some_ne_none, false_and, or_false]

/-- A table lists its states in their order. -/
theorem pairwise_listed (ha : a.WellFormed) :
    (AdjacencyTable.listed a).Pairwise fun s t => s.id.index < t.id.index := by
  have hstates : a.states.toList.Pairwise fun s t => s.id.index < t.id.index := by
    refine List.pairwise_iff_getElem.mpr fun i j hi hj hij => ?_
    rw [ha.id_eq_of_getElem? (s := a.states.toList[i]) (i := i) (by simp at hi ⊢),
      ha.id_eq_of_getElem? (s := a.states.toList[j]) (i := j) (by simp at hj ⊢)]
    exact hij
  rw [AdjacencyTable.listed]
  split
  · exact hstates.filter _
  · exact hstates

theorem mem_map_shown (ha : a.WellFormed) (x : ListedState) :
    x ∈ (AdjacencyTable.listed a).map State.shown ↔ x ∈ a.listedPart := by
  simp only [List.mem_map, mem_listed ha, and_assoc]
  rfl

/-- **The listed part determines the listed states in their order.** -/
theorem map_shown_eq_iff (ha : a.WellFormed) (hb : b.WellFormed) :
    (AdjacencyTable.listed a).map State.shown = (AdjacencyTable.listed b).map State.shown ↔
      a.listedPart = b.listedPart := by
  constructor
  · intro h
    ext x
    rw [← mem_map_shown ha, ← mem_map_shown hb, h]
  · intro h
    have hpairwise : ∀ {a : Automaton}, a.WellFormed →
        ((AdjacencyTable.listed a).map State.shown).Pairwise fun x y => x.index < y.index :=
      fun ha => List.pairwise_map.mpr (pairwise_listed ha)
    have hnodup : ∀ {a : Automaton}, a.WellFormed →
        ((AdjacencyTable.listed a).map State.shown).Nodup := fun ha =>
      List.nodup_iff_pairwise_ne.mpr ((hpairwise ha).imp fun hlt heq => hlt.ne (congrArg _ heq))
    refine ((List.perm_ext_iff_of_nodup (hnodup ha) (hnodup hb)).mpr fun x => ?_).eq_of_pairwise
      (fun x y _ _ hxy hyx => absurd hxy hyx.asymm) (hpairwise ha) (hpairwise hb)
    rw [mem_map_shown ha, mem_map_shown hb, h]

end Automaton

namespace AdjacencyTable

variable {a b : Automaton} {s t : State} {l : Letter} {i : Nat}

theorem mem_targetIndices : i ∈ targetIndices s l ↔ i ∈ s.shown.targets l := by
  rw [targetIndices, List.mem_map]
  rfl

/-- The states of an automaton are told apart by their indices, so targets are listed by them. -/
theorem pairwise_targetIndices (ha : a.WellFormed) (hs : s ∈ a.states) (l : Letter) :
    (targetIndices s l).Pairwise (· < ·) := by
  obtain ⟨q, hq⟩ := Automaton.mem_states_iff.mp hs
  have hmem : ∀ r ∈ (s.targets l).toList, r ∈ a := fun r hr =>
    ha.target_mem ((Automaton.hasArc_iff hq).mpr (State.mem_targets.mp hr))
  refine List.pairwise_map.mpr ((s.targets l).ascending.imp_of_mem fun {r r'} hr hr' hlt => ?_)
  rcases StateId.lt_iff.mp hlt with hlt | ⟨-, hlt⟩
  · exact hlt
  · rw [(hmem r hr).1, (hmem r' hr').1] at hlt
    exact absurd hlt (Nat.lt_irrefl _)

/-- No letter outside the alphabet leads anywhere. -/
theorem targetIndices_eq_nil (ha : a.WellFormed) (hs : s ∈ a.states) (hl : l ∉ a.alphabet) :
    targetIndices s l = [] := by
  obtain ⟨q, hq⟩ := Automaton.mem_states_iff.mp hs
  refine List.eq_nil_iff_forall_not_mem.mpr fun i hi => hl ?_
  obtain ⟨r, hr, -⟩ := List.mem_map.mp hi
  exact ha.letter_mem ((Automaton.hasArc_iff hq).mpr (State.mem_targets.mp hr))

/-- States of which the same is listed have the same texts. -/
theorem texts_eq_of_shown_eq (ha : a.WellFormed) (hb : b.WellFormed) (hs : s ∈ a.states)
    (ht : t ∈ b.states) (h : s.shown = t.shown) :
    label s = label t ∧ targetText s = targetText t := by
  have hindex : s.id.index = t.id.index := congrArg ListedState.index h
  have hentry : s.isEntry = t.isEntry := congrArg ListedState.isEntry h
  have hexit : s.isExit = t.isExit := congrArg ListedState.isExit h
  refine ⟨by rw [label, label, marks, marks, hindex, hentry, hexit], funext fun l => ?_⟩
  have htargets : targetIndices s l = targetIndices t l :=
    OrderedSet.eq_of_pairwise_of_mem_iff (pairwise_targetIndices ha hs l)
      (pairwise_targetIndices hb ht l) fun i => by rw [mem_targetIndices, mem_targetIndices, h]
  rw [targetText_eq, targetText_eq, htargets]

/-! ## The lines of a table -/

/-- How far the labels of the rows reach. -/
def edge (a : Automaton) : Nat := greatest ((listed a).map fun s => (label s).length)

/-- The columns of a row, with a text for each letter. -/
def columns (a : Automaton) (text : Letter → List Char) : List (List Char × Nat) :=
  a.alphabet.toList.map fun l => (text l, columnWidth (listed a) l)

/-- The head of a table. -/
def headLine (a : Automaton) : List Char :=
  [].leftpad (edge a) ' ' ++ cells (columns a heading)

/-- The line of a state. -/
def stateLine (a : Automaton) (s : State) : List Char :=
  (label s).leftpad (edge a) ' ' ++
    if a.alphabet.toList = [] then [' ', '-'] else cells (columns a (targetText s))

theorem render_eq_of_nil (h : a.alphabet.toList = []) :
    render a = (listed a).flatMap fun s => stateLine a s ++ ['\n'] := by
  simp only [render, if_pos h, stateLine, edge, List.append_assoc, List.cons_append,
    List.nil_append]

theorem render_eq_of_ne_nil (h : a.alphabet.toList ≠ []) :
    render a = headLine a ++ '\n' :: (listed a).flatMap fun s => stateLine a s ++ ['\n'] := by
  simp only [render, if_neg h, stateLine, headLine, row, edge, columns, List.zip_map',
    List.append_assoc, List.cons_append, List.nil_append]

/-- **The words of a state's line are its label and its cells.** -/
theorem words_stateLine (a : Automaton) (s : State) : words (stateLine a s) =
    shortLabel s ::
      if a.alphabet.toList = [] then [['-']] else a.alphabet.toList.map (targetText s) := by
  obtain ⟨n, hlabel⟩ := exists_label_eq s
  have hcell : ∀ column ∈ columns a (targetText s), IsWord column.1 := by
    intro column hcolumn
    obtain ⟨l, -, rfl⟩ := List.mem_map.mp hcolumn
    exact isWord_targetText s l
  have hcells : (columns a (targetText s)).map Prod.fst = a.alphabet.toList.map (targetText s) := by
    rw [columns, List.map_map]
    rfl
  rw [stateLine, List.leftpad, hlabel, List.append_assoc, words_spaces_append, List.append_assoc,
    words_spaces_append]
  split_ifs with h
  · exact (isWord_shortLabel s).words_append rfl
  · have hspace : (cells (columns a (targetText s))).head? = some ' ' := by
      obtain ⟨l, letters, hletters⟩ := List.exists_cons_of_ne_nil h
      rw [columns, hletters]
      exact head?_cells _ _
    rw [(isWord_shortLabel s).words_append hspace, words_cells hcell, hcells]

/-- The line of a state is a single line. -/
theorem newline_not_mem_stateLine (a : Automaton) (s : State) : '\n' ∉ stateLine a s := by
  have hcells : (cells (columns a (targetText s))).count '\n' = 0 := by
    rw [count_newline_cells, columns, List.map_map, List.sum_eq_zero_iff_forall_eq_nat]
    intro n hn
    obtain ⟨l, -, rfl⟩ := List.mem_map.mp hn
    exact List.count_eq_zero.mpr (not_mem_targetText (by decide) (by decide) (by decide) s l)
  rw [← List.count_eq_zero, stateLine, List.count_append, count_newline_leftpad,
    List.count_eq_zero.mpr (newline_not_mem_label s)]
  split_ifs
  · rfl
  · rw [hcells]

/-- How many line breaks stand in the head of a table is up to the alphabet. -/
theorem count_newline_headLine (a : Automaton) : (headLine a).count '\n' =
    (a.alphabet.toList.map fun l => (heading l).count '\n').sum := by
  rw [headLine, List.count_append, count_newline_leftpad, count_newline_cells, columns,
    List.map_map, List.count_nil, Nat.zero_add]
  rfl

/-! ## Tables -/

/-- A table shows the lines of its states. -/
theorem lines_eq_of_render_eq (halphabet : a.alphabet = b.alphabet) (h : render a = render b) :
    (listed a).map (stateLine a) = (listed b).map (stateLine b) := by
  have hlines : ∀ (a : Automaton), ∀ line ∈ (listed a).map (stateLine a), '\n' ∉ line := by
    intro a line hline
    obtain ⟨s, -, rfl⟩ := List.mem_map.mp hline
    exact newline_not_mem_stateLine a s
  refine lines_cancel (hlines a) (hlines b) ?_
  rw [List.flatMap_map, List.flatMap_map]
  by_cases hnil : a.alphabet.toList = []
  · rw [← render_eq_of_nil hnil, ← render_eq_of_nil (halphabet ▸ hnil), h]
  · rw [render_eq_of_ne_nil hnil, render_eq_of_ne_nil (halphabet ▸ hnil)] at h
    refine (append_newline_cancel h ?_).2
    rw [count_newline_headLine, count_newline_headLine, halphabet]

/-- **The words of a line show what is listed of a state.** -/
theorem shown_eq_of_words_eq (ha : a.WellFormed) (hb : b.WellFormed)
    (halphabet : a.alphabet = b.alphabet) (hs : s ∈ a.states) (ht : t ∈ b.states)
    (h : words (stateLine a s) = words (stateLine b t)) : s.shown = t.shown := by
  rw [words_stateLine, words_stateLine, halphabet] at h
  obtain ⟨hlabel, hcells⟩ := List.cons.inj h
  obtain ⟨hindex, hentry, hexit⟩ := eq_of_shortLabel_eq hlabel
  have htargets : ∀ l, targetIndices s l = targetIndices t l := by
    intro l
    by_cases hl : l ∈ b.alphabet
    · rw [if_neg (List.ne_nil_of_mem hl), if_neg (List.ne_nil_of_mem hl)] at hcells
      have htext := List.map_inj_left.mp hcells l hl
      rw [targetText_eq, targetText_eq] at htext
      exact indexText_injective htext
    · rw [targetIndices_eq_nil ha hs (halphabet ▸ hl), targetIndices_eq_nil hb ht hl]
  refine ListedState.ext hindex hentry hexit (funext fun l => Set.ext fun i => ?_)
  rw [← mem_targetIndices, ← mem_targetIndices, htargets]

/-- Lists that agree in one way agree in another one, if this is true of their members. -/
theorem map_eq_map_of {α β γ : Type} {ls ms : List α} {f f' : α → β} {g g' : α → γ}
    (hfg : ∀ x ∈ ls, ∀ y ∈ ms, f x = f' y → g x = g' y) (h : ls.map f = ms.map f') :
    ls.map g = ms.map g' := by
  induction ls generalizing ms with
  | nil => rw [List.map_eq_nil_iff.mp h.symm]; rfl
  | cons x ls ih =>
    obtain ⟨y, ms, rfl, hxy, hrest⟩ := List.map_eq_cons_iff.mp h.symm
    rw [List.map_cons, List.map_cons, hfg x List.mem_cons_self y List.mem_cons_self hxy.symm,
      ih (fun x hx y hy => hfg x (List.mem_cons_of_mem _ hx) y (List.mem_cons_of_mem _ hy))
        hrest.symm]

/-- A table depends on nothing but what is listed of its states. -/
theorem render_eq_of_shown_eq (ha : a.WellFormed) (hb : b.WellFormed)
    (halphabet : a.alphabet = b.alphabet)
    (h : (listed a).map State.shown = (listed b).map State.shown) : render a = render b := by
  have hkey : ∀ {γ : Type} (g : List Char → (Letter → List Char) → γ),
      (listed a).map (fun s => g (label s) (targetText s)) =
        (listed b).map fun s => g (label s) (targetText s) := by
    intro γ g
    refine map_eq_map_of (fun s hs t ht hst => ?_) h
    obtain ⟨hlabel, htext⟩ := texts_eq_of_shown_eq ha hb ((Automaton.mem_listed ha).mp hs).1
      ((Automaton.mem_listed hb).mp ht).1 hst
    rw [hlabel, htext]
  have hedge := hkey fun label _ => label.length
  have hwidth : columnWidth (listed a) = columnWidth (listed b) := funext fun l => by
    rw [columnWidth, columnWidth, hkey fun _ text => (text l).length]
  simp only [render, halphabet, hedge, hwidth, List.flatMap_def]
  split_ifs
  · rw [hkey fun label _ => label.leftpad _ ' ' ++ _]
  · rw [hkey fun label text => row _ label ((b.alphabet.toList.map text).zip _)]

/-- **A table shows exactly what is listed.** -/
theorem render_eq_iff (ha : a.WellFormed) (hb : b.WellFormed)
    (halphabet : a.alphabet = b.alphabet) :
    render a = render b ↔ a.listedPart = b.listedPart := by
  rw [← Automaton.map_shown_eq_iff ha hb]
  refine ⟨fun h => ?_, render_eq_of_shown_eq ha hb halphabet⟩
  have hlines := lines_eq_of_render_eq halphabet h
  refine map_eq_map_of (fun s hs t ht hst => ?_) hlines
  exact shown_eq_of_words_eq ha hb halphabet ((Automaton.mem_listed ha).mp hs).1
    ((Automaton.mem_listed hb).mp ht).1 (congrArg words hst)

/-! ## The layout of a table -/

/-- A table with a column for each letter: where the columns begin, the head and the lines of the
states. -/
structure Layout (a : Automaton) (offset : Letter → Nat) (head : List Char)
    (line : State → List Char) : Prop where
  render_eq : render a = head ++ '\n' :: (listed a).flatMap fun s => line s ++ ['\n']
  no_break : ∀ s ∈ listed a, '\n' ∉ line s
  /-- The columns stand in the order of the letters. -/
  ascending : ∀ l ∈ a.alphabet, ∀ m ∈ a.alphabet, l < m → offset l < offset m
  heading : ∀ l ∈ a.alphabet, Shows head (offset l) (heading l)
  cell : ∀ s ∈ listed a, ∀ l ∈ a.alphabet, Shows (line s) (offset l) (targetText s l)
  /-- The line of a state ends with its last cell. -/
  last : ∀ s ∈ listed a, ∀ l, a.alphabet.toList.getLast? = some l →
    ∃ u, line s = u ++ targetText s l ∧ u.length = offset l

theorem length_targetText_le_columnWidth (hs : s ∈ listed a) (l : Letter) :
    (targetText s l).length ≤ columnWidth (listed a) l :=
  le_greatest (List.mem_cons_of_mem _ (List.mem_map_of_mem hs))

/-- The labels of all rows end at the edge. -/
theorem length_leftpad_label (hs : s ∈ listed a) :
    ((label s).leftpad (edge a) ' ').length = edge a := by
  have hlabel : (label s).length ≤ edge a := le_greatest (List.mem_map_of_mem hs)
  rw [List.length_leftpad, Nat.max_eq_left hlabel]

/-- **In a table with letters, the cells of a column are aligned with its heading.** -/
theorem layout (h : a.alphabet.toList ≠ []) :
    Layout a (offsetOf (columnWidth (listed a)) (edge a) a.alphabet.toList) (headLine a)
      (stateLine a) where
  render_eq := render_eq_of_ne_nil h
  no_break s _ := newline_not_mem_stateLine a s
  ascending l hl m hm hlm := offsetOf_lt _ _ a.alphabet.ascending hl hm hlm
  heading l hl := by
    have hedge : (([] : List Char).leftpad (edge a) ' ').length = edge a := by
      rw [List.length_leftpad, List.length_nil, Nat.max_zero]
    exact shows_append_cells hedge a.alphabet.nodup (fun m _ => le_greatest List.mem_cons_self) hl
  cell s hs l hl := by
    rw [stateLine, if_neg h]
    exact shows_append_cells (length_leftpad_label hs) a.alphabet.nodup
      (fun m _ => length_targetText_le_columnWidth hs m) hl
  last s hs l hl := by
    rw [stateLine, if_neg h]
    exact exists_append_cells_eq (length_leftpad_label hs) a.alphabet.nodup
      (fun m _ => length_targetText_le_columnWidth hs m) hl

/-- **A table is faithful.**  Automata over one alphabet have the same table exactly if the same is
listed of them: the states that can be reached, or all if there is no entry, with their indices,
flags and targets.  Each column begins at one offset in all lines, and no line goes on behind its
last cell. -/
theorem render_faithful :
    (∀ a b : Automaton, a.Built → b.Built → a.alphabet = b.alphabet →
      (render a = render b ↔ a.listedPart = b.listedPart)) ∧
    ∀ a : Automaton, a.Built → (∀ s, s ∈ listed a ↔ s ∈ a.states ∧ a.Listed s.id) ∧
      (a.alphabet ≠ ∅ → ∃ offset head line, Layout a offset head line) ∧
      (a.alphabet = ∅ → ∃ (offset : Nat) (line : State → List Char),
        render a = ((listed a).flatMap fun s => line s ++ ['\n']) ∧
        ∀ s ∈ listed a, ∃ u, line s = u ++ ['-'] ∧ u.length = offset) := by
  refine ⟨fun a b ha hb halphabet => render_eq_iff ha.wellFormed hb.wellFormed halphabet,
    fun a ha => ⟨fun s => Automaton.mem_listed ha.wellFormed, fun hne => ?_, fun hnil => ?_⟩⟩
  · exact ⟨_, _, _, layout fun hnil => hne (OrderedSet.toList_injective hnil)⟩
  · have hletters : a.alphabet.toList = [] := congrArg OrderedSet.toList hnil
    refine ⟨edge a + 1, stateLine a, render_eq_of_nil hletters, fun s hs => ?_⟩
    refine ⟨(label s).leftpad (edge a) ' ' ++ [' '], ?_, ?_⟩
    · rw [stateLine, if_pos hletters]
      simp
    · rw [List.length_append, length_leftpad_label hs]
      rfl

/-- An exit that a space leads back to.  The letters are a line break and a space. -/
def spaceLoop : Automaton where
  origin := 0
  alphabet := .ofList [.char '\n', .char ' ']
  states := #[⟨⟨0, 0⟩, true, true, .ofList [⟨.char ' ', ⟨0, 0⟩⟩]⟩]
  entry := some ⟨0, 0⟩

/-- The same, with a state that cannot be reached. -/
def spaceLoopAside : Automaton where
  origin := 1
  alphabet := .ofList [.char '\n', .char ' ']
  states := #[⟨⟨0, 1⟩, true, true, .ofList [⟨.char ' ', ⟨0, 1⟩⟩]⟩,
    ⟨⟨1, 1⟩, false, false, .ofList [⟨.char '\n', ⟨0, 1⟩⟩]⟩]
  entry := some ⟨0, 1⟩

/-- The same as `spaceLoop`, but a line break leads back. -/
def lineBreakLoop : Automaton where
  origin := 2
  alphabet := .ofList [.char '\n', .char ' ']
  states := #[⟨⟨0, 2⟩, true, true, .ofList [⟨.char '\n', ⟨0, 2⟩⟩]⟩]
  entry := some ⟨0, 2⟩

theorem built_spaceLoop : spaceLoop.Built := by
  have h : (Automaton.empty 0 (.ofList [.char '\n', .char ' '])).addState.Built :=
    .addState (.empty _ _)
  have h₁ := Automaton.Built.addArc (p := ⟨0, 0⟩) (l := .char ' ') (q := ⟨0, 0⟩) h rfl
  have h₂ := Automaton.Built.setExit (q := ⟨0, 0⟩) h₁ rfl
  exact .setEntry (q := ⟨0, 0⟩) h₂ rfl

theorem built_spaceLoopAside : spaceLoopAside.Built := by
  have h : (Automaton.empty 1 (.ofList [.char '\n', .char ' '])).addState.addState.Built :=
    .addState (.addState (.empty _ _))
  have h₁ := Automaton.Built.addArc (p := ⟨0, 1⟩) (l := .char ' ') (q := ⟨0, 1⟩) h rfl
  have h₂ := Automaton.Built.addArc (p := ⟨1, 1⟩) (l := .char '\n') (q := ⟨0, 1⟩) h₁ rfl
  have h₃ := Automaton.Built.setExit (q := ⟨0, 1⟩) h₂ rfl
  exact .setEntry (q := ⟨0, 1⟩) h₃ rfl

theorem built_lineBreakLoop : lineBreakLoop.Built := by
  have h : (Automaton.empty 2 (.ofList [.char '\n', .char ' '])).addState.Built :=
    .addState (.empty _ _)
  have h₁ := Automaton.Built.addArc (p := ⟨0, 2⟩) (l := .char '\n') (q := ⟨0, 2⟩) h rfl
  have h₂ := Automaton.Built.setExit (q := ⟨0, 2⟩) h₁ rfl
  exact .setEntry (q := ⟨0, 2⟩) h₂ rfl

/-- A state that cannot be reached does not show, but which of two blank letters leads back does. -/
theorem render_faithful_blankLetters :
    spaceLoop.listedPart = spaceLoopAside.listedPart ∧
    spaceLoop.listedPart ≠ lineBreakLoop.listedPart ∧
    ∃ offset head line, Layout spaceLoopAside offset head line := by
  obtain ⟨hfaithful, hlayout⟩ := render_faithful
  have haside := hfaithful _ _ built_spaceLoop built_spaceLoopAside rfl
  have hloop := hfaithful _ _ built_spaceLoop built_lineBreakLoop rfl
  refine ⟨haside.mp (by decide), fun h => ?_, (hlayout _ built_spaceLoopAside).2.1 (by decide)⟩
  exact absurd (hloop.mpr h) (by decide)

end AdjacencyTable

end PatternAutomata
