import Mathlib.Data.Nat.Choose.Basic
import PatternAutomata.Minimal.PairMarks

/-!
# One cell for each pair

The rows of the triangle follow each other without gap or overlap: row `i` starts at
`pairCount i` and has `i` cells.  So a pair has a cell of its own (`offset_injective`) within the
table (`offset_lt`), no cell is left over (`exists_offset_eq`), and marking a pair changes nothing
else (`isMarked_mark`).

The number of `unmarked` cells goes down by one with every pair that is newly marked.
-/

namespace PatternAutomata

namespace PairMarks

variable {t : PairMarks} {n i j i' j' : Nat}

/-! ## Cells -/

theorem pairCount_succ (n : Nat) : pairCount (n + 1) = pairCount n + n := Nat.triangle_succ n

theorem pairCount_le_pairCount (h : i ≤ n) : pairCount i ≤ pairCount n := by
  induction n with
  | zero => rw [Nat.le_zero.mp h]
  | succ n ih =>
    rw [pairCount_succ]
    rcases Nat.le_succ_iff.mp h with h | rfl
    · exact (ih h).trans (Nat.le_add_right _ _)
    · exact (pairCount_succ n).le

theorem offset_eq (h : j < i) : offset i j = pairCount i + j := by
  rw [offset, Nat.max_eq_left h.le, Nat.min_eq_right h.le]
  rfl

theorem offset_comm (i j : Nat) : offset i j = offset j i := by
  rw [offset, offset, Nat.max_comm, Nat.min_comm]

/-- The cells of a row end before the next row starts. -/
theorem offset_lt (hj : j < i) (hi : i < n) : offset i j < pairCount n := by
  have hrow : pairCount (i + 1) ≤ pairCount n := pairCount_le_pairCount hi
  rw [pairCount_succ] at hrow
  rw [offset_eq hj]
  omega

/-- **No two pairs share a cell.** -/
theorem offset_injective (hj : j < i) (hj' : j' < i') (h : offset i j = offset i' j') :
    i = i' ∧ j = j' := by
  have hrow : ∀ {i j i' j' : Nat}, j < i → j' < i' → i < i' → offset i j < offset i' j' := by
    intro i j i' j' hj hj' hi
    have hlt := offset_lt hj hi
    rw [offset_eq hj']
    omega
  rcases Nat.lt_trichotomy i i' with hi | rfl | hi
  · exact absurd h (hrow hj hj' hi).ne
  · rw [offset_eq hj, offset_eq hj'] at h
    exact ⟨rfl, by omega⟩
  · exact absurd h (hrow hj' hj hi).ne'

/-- Every cell is that of a pair. -/
theorem exists_offset_eq {c : Nat} (hc : c < pairCount n) :
    ∃ i j, j < i ∧ i < n ∧ offset i j = c := by
  induction n with
  | zero => exact absurd hc (Nat.not_lt_zero c)
  | succ n ih =>
    rw [pairCount_succ] at hc
    rcases Nat.lt_or_ge c (pairCount n) with h | h
    · obtain ⟨i, j, hj, hi, hcell⟩ := ih h
      exact ⟨i, j, hj, hi.trans (Nat.lt_succ_self n), hcell⟩
    · refine ⟨n, c - pairCount n, by omega, Nat.lt_succ_self n, ?_⟩
      rw [offset_eq (by omega)]
      omega

theorem mem_pairs : (i, j) ∈ pairs n ↔ j < i ∧ i < n := by
  simp only [pairs, List.mem_flatMap, List.mem_map, List.mem_range, Prod.mk.injEq]
  constructor
  · rintro ⟨i, hi, j, hj, rfl, rfl⟩
    exact ⟨hj, hi⟩
  · rintro ⟨hj, hi⟩
    exact ⟨i, hi, j, hj, rfl, rfl⟩

/-! ## Marks -/

/-- The table has one cell for each pair of numbers below `n`. -/
def Fits (n : Nat) (t : PairMarks) : Prop := t.cells.size = pairCount n

theorem fits_blank (n : Nat) : (blank n).Fits n := Array.size_replicate

theorem Fits.mark (h : t.Fits n) (i j : Nat) : (t.mark i j).Fits n := by
  rw [PairMarks.mark]
  split
  · exact h
  · exact Array.size_setIfInBounds.trans h

theorem isMarked_comm (t : PairMarks) (i j : Nat) : t.isMarked i j = t.isMarked j i := by
  rw [isMarked, isMarked, offset_comm, bne_comm]

theorem isMarked_self (t : PairMarks) (i : Nat) : t.isMarked i i = false := by
  simp [isMarked]

theorem isMarked_blank (n i j : Nat) : (blank n).isMarked i j = false := by
  rw [isMarked, blank, Array.getD_eq_getD_getElem?, Array.getElem?_replicate]
  split <;> simp

/-- **Marking a pair marks this pair only.** -/
theorem isMarked_mark (ht : t.Fits n) (hj : j < i) (hi : i < n) (hj' : j' < i') :
    (t.mark i j).isMarked i' j' = true ↔ t.isMarked i' j' = true ∨ (i' = i ∧ j' = j) := by
  have hbound : offset i j < t.cells.size := ht ▸ offset_lt hj hi
  have hne : (i' != j') = true := bne_iff_ne.mpr hj'.ne'
  rw [mark, if_neg hj.ne', isMarked, isMarked, hne, Bool.true_and, Bool.true_and,
    Array.getD_eq_getD_getElem?, Array.getD_eq_getD_getElem?]
  by_cases hcell : offset i j = offset i' j'
  · obtain ⟨rfl, rfl⟩ := offset_injective hj hj' hcell
    rw [Array.getElem?_setIfInBounds_self_of_lt hbound]
    simp
  · have hpair : ¬ (i' = i ∧ j' = j) := by
      rintro ⟨rfl, rfl⟩
      exact hcell rfl
    rw [Array.getElem?_setIfInBounds_ne hcell, or_iff_left hpair]

/-- The number of cells that are not marked. -/
def unmarked (t : PairMarks) : Nat := t.cells.count false

theorem Fits.unmarked_le (h : t.Fits n) : t.unmarked ≤ pairCount n := h ▸ Array.count_le_size

theorem unmarked_mark (ht : t.Fits n) (hj : j < i) (hi : i < n) (hnew : t.isMarked i j = false) :
    (t.mark i j).unmarked + 1 = t.unmarked := by
  have hbound : offset i j < t.cells.size := ht ▸ offset_lt hj hi
  have hcell : t.cells[offset i j] = false := by
    rw [isMarked, bne_iff_ne.mpr hj.ne', Bool.true_and, Array.getD_eq_getD_getElem?,
      Array.getElem?_eq_getElem hbound] at hnew
    exact hnew
  have hpos : 0 < t.cells.count false :=
    Array.count_pos_iff.mpr (hcell ▸ Array.getElem_mem hbound)
  rw [mark, if_neg hj.ne', unmarked, unmarked, Array.setIfInBounds_def, dif_pos hbound,
    Array.count_set hbound, hcell, if_pos (by rfl), if_neg (by decide)]
  omega

end PairMarks

end PatternAutomata
