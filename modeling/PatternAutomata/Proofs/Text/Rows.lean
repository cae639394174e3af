import Mathlib.Algebra.GroupWithZero.Nat
import Mathlib.Data.List.Basic
import PatternAutomata.Text.AdjacencyTable

/-!
# Rows of padded columns

A row of a table is padded so that each of its cells begins where the column begins.  Padding
takes nothing away: spaces divide the words of a row, and as long as there is no space in a cell,
the cells can be read back as words (`words_cells`).  This needs no widths, so rows that were padded
in different ways can be compared.

* `words_append_space`: what there is to know about words.
* `append_newline_cancel`: a text is cut behind a given number of line breaks in one way only, even
  if some of them stand in cells.
* `exists_cells_cut`: each cell begins at the offset of its column, whatever the other cells are.
-/

namespace PatternAutomata

namespace AdjacencyTable

variable {x y u v text : List Char} {columns : List (List Char × Nat)} {letters : List Letter}
  {l m : Letter}

/-! ## Words -/

/-- The words of a line, which spaces divide. -/
def words (line : List Char) : List (List Char) :=
  (line.splitOnP (· == ' ')).filter fun w => !w.isEmpty

/-- A text that is one word. -/
structure IsWord (text : List Char) : Prop where
  ne_nil : text ≠ []
  no_space : ' ' ∉ text

@[simp] theorem words_nil : words [] = [] := by simp [words]

/-- **A space divides words.** -/
theorem words_append_space (x y : List Char) : words (x ++ ' ' :: y) = words x ++ words y := by
  rw [words, List.splitOnP_append_cons x y rfl, List.filter_append]
  rfl

@[simp] theorem words_cons_space (y : List Char) : words (' ' :: y) = words y := by
  simpa using words_append_space [] y

@[simp] theorem words_spaces_append (n : Nat) (x : List Char) :
    words (List.replicate n ' ' ++ x) = words x := by
  induction n with
  | zero => rfl
  | succ n ih => rw [List.replicate_succ, List.cons_append, words_cons_space, ih]

theorem IsWord.words_eq (h : IsWord text) : words text = [text] := by
  have hsplit : text.splitOnP (· == ' ') = [text] :=
    List.splitOnP_eq_singleton fun c hc => beq_eq_false_iff_ne.mpr fun heq => h.no_space (heq ▸ hc)
  rw [words, hsplit]
  simp [h.ne_nil]

/-- A word ends where a space follows. -/
theorem IsWord.words_append (h : IsWord text) (hy : y.head? = some ' ') :
    words (text ++ y) = text :: words y := by
  obtain ⟨z, rfl⟩ := List.head?_eq_some_iff.mp hy
  rw [words_append_space, h.words_eq, words_cons_space]
  rfl

/-! ## Cells -/

theorem cells_cons_cons (text : List Char) (width : Nat) (column : List Char × Nat)
    (columns : List (List Char × Nat)) :
    cells ((text, width) :: column :: columns) =
      gap ++ (text.rightpad width ' ' ++ cells (column :: columns)) := by
  rw [cells, List.append_assoc]
  rintro ⟨⟩

theorem head?_cells (column : List Char × Nat) (columns : List (List Char × Nat)) :
    (cells (column :: columns)).head? = some ' ' := by
  rcases columns with _ | ⟨second, columns⟩
  · rfl
  · rw [cells_cons_cons]
    rfl

/-- Behind a padded cell there is a space. -/
theorem head?_spaces_append_cells (n : Nat) (column : List Char × Nat)
    (columns : List (List Char × Nat)) :
    (List.replicate n ' ' ++ cells (column :: columns)).head? = some ' ' := by
  rcases n with _ | n
  · exact head?_cells column columns
  · rfl

/-- **The cells of a row are its words.** -/
theorem words_cells (h : ∀ column ∈ columns, IsWord column.1) :
    words (cells columns) = columns.map Prod.fst := by
  induction columns with
  | nil => exact words_nil
  | cons column columns ih =>
    obtain ⟨text, width⟩ := column
    obtain ⟨htext, hcolumns⟩ := List.forall_mem_cons.mp h
    rcases columns with _ | ⟨second, columns⟩
    · exact htext.words_eq
    · have hspace := head?_spaces_append_cells (width - text.length) second columns
      rw [cells_cons_cons, List.rightpad, List.append_assoc]
      calc words (text ++ (List.replicate (width - text.length) ' ' ++ cells (second :: columns)))
          = text :: words (cells (second :: columns)) := by
            rw [htext.words_append hspace, words_spaces_append]
        _ = text :: (second :: columns).map Prod.fst := by rw [ih hcolumns]

/-- Padding breaks no line. -/
theorem count_newline_cells (columns : List (List Char × Nat)) :
    (cells columns).count '\n' = (columns.map fun column => column.1.count '\n').sum := by
  induction columns with
  | nil => rfl
  | cons column columns ih =>
    obtain ⟨text, width⟩ := column
    rcases columns with _ | ⟨second, columns⟩
    · simp [cells, gap]
    · rw [cells_cons_cons, List.count_append, List.count_append, ih, List.rightpad,
        List.count_append]
      simp [gap, List.count_replicate]

theorem count_newline_leftpad (width : Nat) (text : List Char) :
    (text.leftpad width ' ').count '\n' = text.count '\n' := by
  simp [List.leftpad, List.count_replicate]

/-! ## Lines -/

/-- **A text is cut at a line break in one way only**, if it is known how many come before. -/
theorem append_newline_cancel (h : u ++ '\n' :: x = v ++ '\n' :: y)
    (hcount : u.count '\n' = v.count '\n') : u = v ∧ x = y := by
  induction u generalizing v with
  | nil =>
    rcases v with _ | ⟨c, v⟩
    · exact ⟨rfl, (List.cons.inj h).2⟩
    · rw [← (List.cons.inj h).1, List.count_cons_self] at hcount
      cases hcount
  | cons c u ih =>
    rcases v with _ | ⟨d, v⟩
    · rw [(List.cons.inj h).1, List.count_cons_self] at hcount
      cases hcount
    · obtain ⟨rfl, hrest⟩ := List.cons.inj h
      rw [List.count_cons, List.count_cons, Nat.add_right_cancel_iff] at hcount
      obtain ⟨rfl, hxy⟩ := ih hrest hcount
      exact ⟨rfl, hxy⟩

/-- A text determines its lines. -/
theorem lines_cancel {ls ms : List (List Char)} (hls : ∀ line ∈ ls, '\n' ∉ line)
    (hms : ∀ line ∈ ms, '\n' ∉ line)
    (h : (ls.flatMap fun line => line ++ ['\n']) = ms.flatMap fun line => line ++ ['\n']) :
    ls = ms := by
  induction ls generalizing ms with
  | nil =>
    rcases ms with _ | ⟨line, ms⟩
    · rfl
    · simp at h
  | cons line ls ih =>
    rcases ms with _ | ⟨line', ms⟩
    · simp at h
    · obtain ⟨hline, hls'⟩ := List.forall_mem_cons.mp hls
      obtain ⟨hline', hms'⟩ := List.forall_mem_cons.mp hms
      rw [List.flatMap_cons, List.flatMap_cons, List.append_assoc, List.append_assoc] at h
      obtain ⟨rfl, hrest⟩ := append_newline_cancel h
        (by rw [List.count_eq_zero.mpr hline, List.count_eq_zero.mpr hline'])
      exact congrArg (line :: ·) (ih hls' hms' hrest)

/-! ## Offsets -/

/-- Where the column of a letter begins, if the columns stand behind `edge` characters. -/
def offsetOf (width : Letter → Nat) (edge : Nat) : List Letter → Letter → Nat
  | [], _ => edge
  | m :: letters, l =>
    if l = m then edge + gap.length else offsetOf width (edge + gap.length + width m) letters l

theorem edge_lt_offsetOf (width : Letter → Nat) (edge : Nat) (hl : l ∈ letters) :
    edge < offsetOf width edge letters l := by
  induction letters generalizing edge with
  | nil => cases hl
  | cons m letters ih =>
    have hgap : 0 < gap.length := by decide
    rw [offsetOf]
    split_ifs with hlm
    · omega
    · have hlt := ih (edge + gap.length + width m) ((List.mem_cons.mp hl).resolve_left hlm)
      omega

/-- **Columns stand in the order of the letters.** -/
theorem offsetOf_lt (width : Letter → Nat) (edge : Nat) (h : letters.Pairwise (· < ·))
    (hl : l ∈ letters) (hm : m ∈ letters) (hlm : l < m) :
    offsetOf width edge letters l < offsetOf width edge letters m := by
  induction letters generalizing edge with
  | nil => cases hl
  | cons k letters ih =>
    obtain ⟨hk, hletters⟩ := List.pairwise_cons.mp h
    have hmk : m ≠ k := by
      rintro rfl
      rcases List.mem_cons.mp hl with rfl | hl
      · exact StrictTotalOrder.irrefl _ hlm
      · exact StrictTotalOrder.irrefl _ (StrictTotalOrder.trans _ _ _ hlm (hk l hl))
    have hm' := (List.mem_cons.mp hm).resolve_left hmk
    rw [offsetOf, offsetOf, if_neg hmk]
    split_ifs with hlk
    · have hlt := edge_lt_offsetOf width (edge + gap.length + width k) hm'
      omega
    · exact ih (edge + gap.length + width k) hletters ((List.mem_cons.mp hl).resolve_left hlk) hm'

/-- **A cell begins at the offset of its column**, behind a gap.  What follows it is a space, and
nothing follows the last one. -/
theorem exists_cells_cut (width : Letter → Nat) (edge : Nat) {text : Letter → List Char}
    (hletters : letters.Nodup) (hwidth : ∀ m ∈ letters, (text m).length ≤ width m)
    (hl : l ∈ letters) : ∃ u v, cells (letters.map fun m => (text m, width m)) = u ++ text l ++ v ∧
      edge + u.length = offsetOf width edge letters l ∧ gap <:+ u ∧ (∀ c ∈ v.head?, c = ' ') ∧
      (letters.getLast? = some l → v = []) := by
  induction letters generalizing edge with
  | nil => cases hl
  | cons m letters ih =>
    obtain ⟨hm, hletters⟩ := List.nodup_cons.mp hletters
    obtain ⟨hwidthm, hwidth⟩ := List.forall_mem_cons.mp hwidth
    rw [offsetOf]
    rcases letters with _ | ⟨k, letters⟩
    · obtain rfl := List.mem_singleton.mp hl
      refine ⟨gap, [], by simp [cells], by rw [if_pos rfl], List.suffix_refl gap, ?_, fun _ => rfl⟩
      rintro c ⟨⟩
    · rw [List.map_cons, List.map_cons, cells_cons_cons]
      split_ifs with hlm
      · subst hlm
        refine ⟨gap, _, by rw [List.rightpad, List.append_assoc, List.append_assoc], rfl,
          List.suffix_refl gap, fun c hc => ?_, fun hlast => ?_⟩
        · rw [head?_spaces_append_cells] at hc
          exact (Option.some.inj hc).symm
        · rw [List.getLast?_cons_cons] at hlast
          exact absurd (List.mem_of_getLast? hlast) hm
      · obtain ⟨u, v, hcut, hlength, hgap, hspace, hlast⟩ := ih (edge + gap.length + width m)
          hletters hwidth ((List.mem_cons.mp hl).resolve_left hlm)
        rw [List.map_cons] at hcut
        refine ⟨gap ++ (text m).rightpad (width m) ' ' ++ u, v, by rw [hcut]; simp, ?_,
          hgap.trans (List.suffix_append _ u), hspace, fun h => hlast ?_⟩
        · rw [← hlength, List.length_append, List.length_append, List.length_rightpad,
            Nat.max_eq_left hwidthm]
          omega
        · rwa [List.getLast?_cons_cons] at h

/-- A line shows a text that begins at an offset.  A gap stands before the text, and a space or
nothing behind it. -/
def Shows (line : List Char) (offset : Nat) (text : List Char) : Prop :=
  ∃ u v, line = u ++ text ++ v ∧ u.length = offset ∧ gap <:+ u ∧ ∀ c ∈ v.head?, c = ' '

theorem shows_append_cells {width : Letter → Nat} {edge : Nat} {text : Letter → List Char}
    (hx : x.length = edge) (hletters : letters.Nodup)
    (hwidth : ∀ m ∈ letters, (text m).length ≤ width m) (hl : l ∈ letters) :
    Shows (x ++ cells (letters.map fun m => (text m, width m))) (offsetOf width edge letters l)
      (text l) := by
  obtain ⟨u, v, hcut, hlength, hgap, hspace, -⟩ := exists_cells_cut width edge hletters hwidth hl
  exact ⟨x ++ u, v, by rw [hcut]; simp, by rw [List.length_append, hx, hlength],
    hgap.trans (List.suffix_append x u), hspace⟩

/-- Nothing stands behind the last cell. -/
theorem exists_append_cells_eq {width : Letter → Nat} {edge : Nat} {text : Letter → List Char}
    (hx : x.length = edge) (hletters : letters.Nodup)
    (hwidth : ∀ m ∈ letters, (text m).length ≤ width m) (hlast : letters.getLast? = some l) :
    ∃ u, x ++ cells (letters.map fun m => (text m, width m)) = u ++ text l ∧
      u.length = offsetOf width edge letters l := by
  obtain ⟨u, v, hcut, hlength, -, -, hnil⟩ :=
    exists_cells_cut width edge hletters hwidth (List.mem_of_getLast? hlast)
  refine ⟨x ++ u, ?_, by rw [List.length_append, hx, hlength]⟩
  rw [hcut, hnil hlast]
  simp

theorem le_greatest {n : Nat} {ns : List Nat} (h : n ∈ ns) : n ≤ greatest ns :=
  List.le_max?_getD_of_mem h

end AdjacencyTable

end PatternAutomata
