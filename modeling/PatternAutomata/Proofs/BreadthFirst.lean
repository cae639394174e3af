import Mathlib.Data.List.Shortlex
import PatternAutomata.Proofs.Automaton.System
import PatternAutomata.Proofs.Exploration

/-!
# Breadth first is in the order of the words

Words are ordered by their lengths, and words of one length letter by letter (`List.Shortlex`).  A
breadth-first search through a system that tries the letters in ascending order meets words in
this order, if it passes over every word that leads to an item already known.  So it finds each
item by the least word that leads to it, and finds the items in the order of these words.

`Traced` is the state of such a search together with the words.  The word of an item that is found
when another one is expanded is the word of that other item and one letter more, and this is above
all words found so far: each of them is the word of an item expanded earlier, and one letter.

* `Search.exists_traced`: a whole search, by induction from the step (`Traced.step`).
* `Explored.mem_iff_run`: what is found is what words lead to.
* `Explored.pairwise_shortlex`: it is found in the order of the least words.
-/

namespace PatternAutomata

/-! ## The order of words -/

section Words

variable {α : Type} [LT α] {u v w : List α} {l m : α}

theorem shortlex_trans [StrictTotalOrder α] (huv : List.Shortlex (· < ·) u v)
    (hvw : List.Shortlex (· < ·) v w) : List.Shortlex (· < ·) u w := by
  have htrans : Trans (α := α) (· < ·) (· < ·) (· < ·) := ⟨StrictTotalOrder.trans _ _ _⟩
  rw [List.shortlex_def] at huv hvw ⊢
  rcases huv with huv | ⟨hlength, hlex⟩
  · rcases hvw with hvw | ⟨hlength', -⟩ <;> exact Or.inl (by omega)
  · rcases hvw with hvw | ⟨hlength', hlex'⟩
    · exact Or.inl (by omega)
    · exact Or.inr ⟨hlength.trans hlength', List.lt_trans hlex hlex'⟩

/-- A lexicographic difference between words of one length stays when they are continued. -/
theorem lex_append (h : List.Lex (· < ·) u v) (hlength : u.length = v.length) (s t : List α) :
    List.Lex (· < ·) (u ++ s) (v ++ t) := by
  induction h with
  | nil => simp at hlength
  | cons _ ih => exact .cons (ih (by simpa using hlength))
  | rel hlt => exact .rel hlt

theorem shortlex_concat (h : List.Shortlex (· < ·) u v) (l m : α) :
    List.Shortlex (· < ·) (u ++ [l]) (v ++ [m]) := by
  rw [List.shortlex_def, List.length_append, List.length_append] at *
  rcases h with h | ⟨hlength, hlex⟩
  · exact Or.inl (by simpa using h)
  · exact Or.inr ⟨by rw [hlength]; rfl, lex_append hlex hlength _ _⟩

theorem shortlex_concat_of_lt (h : l < m) (u : List α) :
    List.Shortlex (· < ·) (u ++ [l]) (u ++ [m]) :=
  ((List.shortlex_singleton_iff l m).mpr h).append_left u

theorem shortlex_nil_concat (u : List α) (l : α) : List.Shortlex (· < ·) [] (u ++ [l]) :=
  .of_length_lt (by simp)

end Words

/-- The characters of words are ordered as the words are. -/
theorem shortlex_of_map_char {u v : List Char}
    (h : List.Shortlex (· < ·) (u.map Letter.char) (v.map Letter.char)) :
    List.Shortlex (· < ·) u v := by
  rw [List.shortlex_def, List.length_map, List.length_map] at h
  have hlex : ∀ {u v : List Char},
      List.Lex (· < ·) (u.map Letter.char) (v.map Letter.char) → List.Lex (· < ·) u v := by
    intro u
    induction u with
    | nil =>
      intro v h
      cases v with
      | nil => cases h
      | cons c v => exact .nil
    | cons c u ih =>
      intro v h
      cases v with
      | nil => cases h
      | cons c' v =>
        cases h with
        | cons h => exact .cons (ih h)
        | rel h => exact .rel h
  rw [List.shortlex_def]
  rcases h with h | ⟨hlength, h⟩
  · exact Or.inl h
  · exact Or.inr ⟨hlength, hlex h⟩

/-! ## Searches that keep their words -/

namespace System

variable {β : Type} {S : System β} {x y : β} {w : List Letter} {letters : List Letter}

/-- What a search through a system has found, with words, and what of it waits to be expanded. -/
structure Traced (S : System β) (x : β) (expanded waiting : List (β × List Letter)) : Prop where
  start : (x, []) ∈ expanded ++ waiting
  run_eq : ∀ m ∈ expanded ++ waiting, S.run x m.2 = some m.1
  ascending : (expanded ++ waiting).Pairwise fun m n => List.Shortlex (· < ·) m.2 n.2
  /-- A word is empty, or the word of something expanded and one letter more. -/
  grown : ∀ m ∈ expanded ++ waiting, m.2 = [] ∨ ∃ n ∈ expanded, ∃ l, m.2 = n.2 ++ [l]
  /-- What a letter leads to from something expanded has that word, or one before it. -/
  followed : ∀ m ∈ expanded, ∀ l y, S.step m.1 l = some y →
    ∃ n ∈ expanded ++ waiting, n.1 = y ∧
      (n.2 = m.2 ++ [l] ∨ List.Shortlex (· < ·) n.2 (m.2 ++ [l]))

/-- Items that letters lead to after a word, each with that word and its letter. -/
def continuations (w : List Letter) (fresh : List (β × Letter)) : List (β × List Letter) :=
  fresh.map fun n => (n.1, w ++ [n.2])

theorem mem_continuations {fresh : List (β × Letter)} {m : β × List Letter} :
    m ∈ continuations w fresh ↔ ∃ n ∈ fresh, m = (n.1, w ++ [n.2]) := by
  simp only [continuations, List.mem_map, eq_comm]

theorem map_fst_continuations (w : List Letter) (fresh : List (β × Letter)) :
    (continuations w fresh).map Prod.fst = fresh.map Prod.fst := by
  rw [continuations, List.map_map]
  rfl

/-- Expanding an item leaves everything found in its place. -/
theorem append_expanded {α : Type} (expanded waiting new : List α) (m : α) :
    (expanded ++ [m]) ++ (waiting ++ new) = (expanded ++ m :: waiting) ++ new := by simp

/-- The items that some letters lead to for the first time, each with the first such letter. -/
theorem exists_firstLetters [DecidableEq β] (f : Letter → Option β) (known : List β)
    (hletters : letters.Pairwise (· < ·)) : ∃ fresh : List (β × Letter),
      unseen known (letters.filterMap f) = fresh.map Prod.fst ∧
      (∀ n ∈ fresh, n.2 ∈ letters ∧ f n.2 = some n.1) ∧ fresh.Pairwise (fun m n => m.2 < n.2) ∧
      ∀ l ∈ letters, ∀ y, f l = some y →
        y ∈ known ∨ ∃ n ∈ fresh, n.1 = y ∧ (n.2 = l ∨ n.2 < l) := by
  induction letters generalizing known with
  | nil => exact ⟨[], rfl, by simp, .nil, by simp⟩
  | cons l letters ih =>
    obtain ⟨hl, hrest⟩ := List.pairwise_cons.mp hletters
    by_cases hnew : ∃ z, f l = some z ∧ z ∉ known
    · obtain ⟨z, hz, hunknown⟩ := hnew
      obtain ⟨fresh, hunseen, hmem, hascending, hall⟩ := ih (z :: known) hrest
      refine ⟨(z, l) :: fresh,
        by rw [List.filterMap_cons_some hz, unseen, if_neg hunknown, hunseen]; rfl,
        List.forall_mem_cons.mpr ⟨⟨List.mem_cons_self, hz⟩,
          fun n hn => ⟨List.mem_cons_of_mem _ (hmem n hn).1, (hmem n hn).2⟩⟩,
        List.pairwise_cons.mpr ⟨fun n hn => hl n.2 (hmem n hn).1, hascending⟩, ?_⟩
      intro l' hl' y hy
      rcases List.mem_cons.mp hl' with rfl | hl'
      · obtain rfl := Option.some.inj (hz.symm.trans hy)
        exact Or.inr ⟨(z, l'), List.mem_cons_self, rfl, Or.inl rfl⟩
      · rcases hall l' hl' y hy with hy | ⟨n, hn, hny, hle⟩
        · rcases List.mem_cons.mp hy with rfl | hy
          · exact Or.inr ⟨(y, l), List.mem_cons_self, rfl, Or.inr (hl l' hl')⟩
          · exact Or.inl hy
        · exact Or.inr ⟨n, List.mem_cons_of_mem _ hn, hny, hle⟩
    · have hold : ∀ z, f l = some z → z ∈ known := fun z hz => by
        by_contra hunknown
        exact hnew ⟨z, hz, hunknown⟩
      have hskip : unseen known ((l :: letters).filterMap f) =
          unseen known (letters.filterMap f) := by
        cases hf : f l with
        | none => rw [List.filterMap_cons_none hf]
        | some z => rw [List.filterMap_cons_some hf, unseen, if_pos (hold z hf)]
      obtain ⟨fresh, hunseen, hmem, hascending, hall⟩ := ih known hrest
      refine ⟨fresh, hskip.trans hunseen,
        fun n hn => ⟨List.mem_cons_of_mem _ (hmem n hn).1, (hmem n hn).2⟩, hascending, ?_⟩
      intro l' hl' y hy
      rcases List.mem_cons.mp hl' with rfl | hl'
      · exact Or.inl (hold y hy)
      · exact hall l' hl' y hy

namespace Traced

variable {expanded waiting : List (β × List Letter)} {m n : β × List Letter}

/-- What is found next has a word above all words found so far. -/
theorem before (h : S.Traced x expanded (m :: waiting)) (hn : n ∈ expanded ++ m :: waiting)
    (l : Letter) : List.Shortlex (· < ·) n.2 (m.2 ++ [l]) := by
  rcases h.grown n hn with hnil | ⟨k, hk, l', hgrown⟩
  · rw [hnil]
    exact shortlex_nil_concat _ _
  · rw [hgrown]
    have hkm := (List.pairwise_append.mp h.ascending).2.2 k hk m List.mem_cons_self
    exact shortlex_concat hkm l' l

/-- **Expanding the item that has waited longest** keeps the words in order. -/
theorem step (h : S.Traced x expanded (m :: waiting)) {fresh : List (β × Letter)}
    (hfresh : ∀ n ∈ fresh, S.step m.1 n.2 = some n.1)
    (hascending : fresh.Pairwise fun n k => n.2 < k.2)
    (hall : ∀ l y, S.step m.1 l = some y → (∃ n ∈ expanded ++ m :: waiting, n.1 = y) ∨
      ∃ n ∈ fresh, n.1 = y ∧ (n.2 = l ∨ n.2 < l)) :
    S.Traced x (expanded ++ [m]) (waiting ++ continuations m.2 fresh) := by
  have hm : m ∈ expanded ++ m :: waiting := by simp
  refine ⟨?_, ?_, ?_, ?_, ?_⟩
  · rw [append_expanded]
    exact List.mem_append_left _ h.start
  · rw [append_expanded]
    intro k hk
    rcases List.mem_append.mp hk with hk | hk
    · exact h.run_eq k hk
    · obtain ⟨n, hn, rfl⟩ := mem_continuations.mp hk
      show S.run x (m.2 ++ [n.2]) = some n.1
      rw [run_append, h.run_eq m hm, Option.bind_some, run_cons, hfresh n hn]
      rfl
  · rw [append_expanded, List.pairwise_append]
    refine ⟨h.ascending, ?_, ?_⟩
    · rw [continuations, List.pairwise_map]
      exact hascending.imp fun hlt => shortlex_concat_of_lt hlt _
    · intro k hk k' hk'
      obtain ⟨n, -, rfl⟩ := mem_continuations.mp hk'
      exact h.before hk n.2
  · rw [append_expanded]
    intro k hk
    rcases List.mem_append.mp hk with hk | hk
    · rcases h.grown k hk with hnil | ⟨n, hn, hgrown⟩
      · exact Or.inl hnil
      · exact Or.inr ⟨n, List.mem_append_left _ hn, hgrown⟩
    · obtain ⟨n, -, rfl⟩ := mem_continuations.mp hk
      exact Or.inr ⟨m, by simp, n.2, rfl⟩
  · rw [append_expanded]
    intro k hk l y hy
    rcases List.mem_append.mp hk with hk | hk
    · obtain ⟨n, hn, hny, hle⟩ := h.followed k hk l y hy
      exact ⟨n, List.mem_append_left _ hn, hny, hle⟩
    · obtain rfl := List.mem_singleton.mp hk
      rcases hall l y hy with ⟨n, hn, hny⟩ | ⟨n, hn, hny, hle⟩
      · exact ⟨n, List.mem_append_left _ hn, hny, Or.inr (h.before hn l)⟩
      · refine ⟨_, List.mem_append_right _ (mem_continuations.mpr ⟨n, hn, rfl⟩), hny, ?_⟩
        rcases hle with rfl | hlt
        · exact Or.inl rfl
        · exact Or.inr (shortlex_concat_of_lt hlt _)

/-- **When nothing waits any more, every word leads to something found**, whose word is no later. -/
theorem exists_least (h : S.Traced x expanded []) (hw : S.run x w = some y) :
    ∃ n ∈ expanded, n.1 = y ∧ (n.2 = w ∨ List.Shortlex (· < ·) n.2 w) := by
  have hfound : ∀ n, n ∈ expanded ++ [] → n ∈ expanded := fun n hn => by
    rwa [List.append_nil] at hn
  induction w using List.reverseRecOn generalizing y with
  | nil =>
    obtain rfl := Option.some.inj hw
    exact ⟨(x, []), hfound _ h.start, rfl, Or.inl rfl⟩
  | append_singleton w l ih =>
    rw [run_append] at hw
    obtain ⟨z, hz, hl⟩ := Option.bind_eq_some_iff.mp hw
    rw [run_cons] at hl
    obtain ⟨y', hstep, hy'⟩ := Option.bind_eq_some_iff.mp hl
    obtain rfl := Option.some.inj hy'
    obtain ⟨k, hk, rfl, hkw⟩ := ih hz
    obtain ⟨n, hn, hny, hnk⟩ := h.followed k hk l y' hstep
    refine ⟨n, hfound n hn, hny, ?_⟩
    -- the word of `n` is at most that of `k` and one letter, and this is at most `w ++ [l]`
    rcases hkw with rfl | hkw
    · exact hnk
    · have hconcat := shortlex_concat hkw l l
      rcases hnk with heq | hnk
      · exact Or.inr (heq ▸ hconcat)
      · exact Or.inr (shortlex_trans hnk hconcat)

end Traced

end System

/-! ## The order of discovery -/

section Discovery

variable {ε β : Type} [DecidableEq β] {S : System β} {successors : β → Except ε (List β)}
  {P : β → Prop} {letters : List Letter} {x y : β} {found : List β}

/-- Items that are expanded to their successors on some letters, in the order of these letters. -/
structure System.Expands (S : System β) (successors : β → Except ε (List β)) (P : β → Prop)
    (letters : List Letter) : Prop where
  ascending : letters.Pairwise (· < ·)
  successors_eq : ∀ y, P y → successors y = .ok (letters.filterMap (S.step y))
  closed : ∀ y, P y → ∀ l z, S.step y l = some z → l ∈ letters ∧ P z

/-- A breadth-first search through a system can keep a word for everything it finds. -/
theorem Search.exists_traced (hS : S.Expands successors P letters) {known waiting : List β}
    (h : Search successors .breadthFirst known waiting found)
    (expanded rest : List (β × List Letter)) (hknown : known = (expanded ++ rest).map Prod.fst)
    (hwaiting : waiting = rest.map Prod.fst) (hP : ∀ n ∈ expanded ++ rest, P n.1)
    (htraced : S.Traced x expanded rest) :
    ∃ named, found = named.map Prod.fst ∧ S.Traced x named [] := by
  induction h generalizing expanded rest with
  | @done known =>
    obtain rfl := List.map_eq_nil_iff.mp hwaiting.symm
    refine ⟨expanded, ?_, htraced⟩
    rw [hknown, List.append_nil]
  | @step y next known waiting found hnext _ ih =>
    obtain ⟨m, rest', rfl, rfl, rfl⟩ := List.map_eq_cons_iff.mp hwaiting.symm
    have hm : P m.1 := hP m (by simp)
    rw [hS.successors_eq m.1 hm] at hnext
    cases hnext
    obtain ⟨fresh, hunseen, hfresh, hascending, hall⟩ :=
      System.exists_firstLetters (S.step m.1) known hS.ascending
    refine ih _ _ ?_ ?_ ?_ (htraced.step (fun n hn => (hfresh n hn).2) hascending fun l z hz => ?_)
    · rw [System.append_expanded, List.map_append, System.map_fst_continuations, ← hknown, hunseen]
    · rw [hunseen, List.map_append, System.map_fst_continuations]
      rfl
    · rw [System.append_expanded]
      intro n hn
      rcases List.mem_append.mp hn with hn | hn
      · exact hP n hn
      · obtain ⟨k, hk, rfl⟩ := System.mem_continuations.mp hn
        exact (hS.closed m.1 hm k.2 k.1 (hfresh k hk).2).2
    · rcases hall l (hS.closed m.1 hm l z hz).1 z hz with hz | hz
      · rw [hknown] at hz
        exact Or.inl (List.mem_map.mp hz)
      · exact Or.inr hz

theorem Explored.exists_traced (hS : S.Expands successors P letters) (hx : P x)
    (h : Explored successors .breadthFirst [x] found) :
    ∃ named, found = named.map Prod.fst ∧ S.Traced x named [] := by
  have hseeds : unseen [] [x] = [x] := unseen_singleton_of_not_mem List.not_mem_nil
  refine Search.exists_traced hS h [] [(x, [])] ?_ ?_ ?_ ?_
  · rw [hseeds]
    rfl
  · rw [hseeds]
    rfl
  · exact List.forall_mem_singleton.mpr hx
  · exact ⟨List.mem_singleton_self _, List.forall_mem_singleton.mpr rfl,
      List.pairwise_singleton _ _, List.forall_mem_singleton.mpr (Or.inl rfl),
      fun m hm => absurd hm List.not_mem_nil⟩

/-- **What is found is what words lead to.** -/
theorem Explored.mem_iff_run (hS : S.Expands successors P letters) (hx : P x)
    (h : Explored successors .breadthFirst [x] found) : y ∈ found ↔ ∃ w, S.run x w = some y := by
  obtain ⟨named, rfl, htraced⟩ := h.exists_traced hS hx
  constructor
  · intro hy
    obtain ⟨n, hn, rfl⟩ := List.mem_map.mp hy
    exact ⟨n.2, htraced.run_eq n (List.mem_append_left _ hn)⟩
  · intro hy
    obtain ⟨w, hw⟩ := hy
    obtain ⟨n, hn, hny, -⟩ := htraced.exists_least hw
    exact hny ▸ List.mem_map_of_mem hn

/-- **Items are found in the order of their least words**: before an item, all those are found to
which a word leads that precedes every word to the item. -/
theorem Explored.pairwise_shortlex (hS : S.Expands successors P letters) (hx : P x)
    (h : Explored successors .breadthFirst [x] found) :
    found.Pairwise fun y z =>
      ∀ w, S.run x w = some z → ∃ u, S.run x u = some y ∧ List.Shortlex (· < ·) u w := by
  have hnodup := h.nodup
  obtain ⟨named, rfl, htraced⟩ := h.exists_traced hS hx
  have hascending := htraced.ascending
  rw [List.append_nil] at hascending
  rw [List.pairwise_map]
  refine hascending.imp_of_mem ?_
  intro m n hm hn hmn w hw
  refine ⟨m.2, htraced.run_eq m (List.mem_append_left _ hm), ?_⟩
  obtain ⟨k, hk, hkn, hkw⟩ := htraced.exists_least hw
  obtain rfl := List.inj_on_of_nodup_map hnodup hk hn hkn
  rcases hkw with rfl | hkw
  · exact hmn
  · exact shortlex_trans hmn hkw

end Discovery

end PatternAutomata
