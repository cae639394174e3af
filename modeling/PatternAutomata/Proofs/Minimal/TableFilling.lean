import Mathlib.Data.List.Basic
import PatternAutomata.Minimal.Equivalence
import PatternAutomata.Proofs.Automaton.System
import PatternAutomata.Proofs.Minimal.PairMarks

/-!
# The filled table tells apart what behaves differently

The items of a deterministic system have profiles, and the table filled from them marks a pair of
items exactly if their outcomes differ (`fillTable_spec`).

A mark is made only for a reason: two items look different, or a letter leads to targets that are
told apart already.  So items with the same outcome are never marked (`Sound`).  Conversely the last
pass marks nothing, so the pairs without a mark are a bisimulation (`Stable`).  There is a last pass
within the budget, because every other one lowers the number of cells that are not marked.
-/

namespace PatternAutomata

namespace Profile

variable {β : Type} [DecidableEq β] {S : System β} {items : List β} {letters : List Letter}
  {t t' : PairMarks} {r : PairMarks × Nat} {i j : Nat} {x y : β}

/-- What an item looks like among others. -/
def ofItem (S : System β) (items : List β) (letters : List Letter) (x : β) : Profile :=
  ⟨S.isExit x, letters.map fun l => (S.step x l).map items.idxOf⟩

/-- The profiles of all items. -/
def ofItems (S : System β) (items : List β) (letters : List Letter) : Array Profile :=
  (items.map (ofItem S items letters)).toArray

theorem size_ofItems (S : System β) (items : List β) (letters : List Letter) :
    (ofItems S items letters).size = items.length := by
  simp [ofItems]

theorem getElem?_ofItems (hx : items[i]? = some x) :
    (ofItems S items letters)[i]? = some (ofItem S items letters x) := by
  simp [ofItems, hx]

omit [DecidableEq β] in
theorem exists_item (hi : i < items.length) : ∃ x, items[i]? = some x :=
  ⟨items[i], List.getElem?_eq_getElem hi⟩

theorem apart_iff : apart t (ofItem S items letters x) (ofItem S items letters y) = true ↔
    ∃ l ∈ letters,
      separates t ((S.step x l).map items.idxOf, (S.step y l).map items.idxOf) = true := by
  rw [apart, ofItem, ofItem, List.zip_map', List.any_map, List.any_eq_true]
  rfl

theorem separates_comm (t : PairMarks) (p q : Option Nat) :
    separates t (p, q) = separates t (q, p) := by
  cases p with
  | none => cases q <;> rfl
  | some i =>
    cases q with
    | none => rfl
    | some j => exact t.isMarked_comm i j

theorem separates_self (t : PairMarks) (p : Option Nat) : separates t (p, p) = false := by
  cases p with
  | none => rfl
  | some i => exact t.isMarked_self i

theorem apart_comm : apart t (ofItem S items letters x) (ofItem S items letters y) =
    apart t (ofItem S items letters y) (ofItem S items letters x) := by
  rw [Bool.eq_iff_iff, apart_iff, apart_iff]
  simp only [separates_comm]

theorem apart_self : apart t (ofItem S items letters x) (ofItem S items letters x) = false := by
  refine Bool.eq_false_iff.mpr fun h => ?_
  obtain ⟨l, -, hsep⟩ := apart_iff.mp h
  rw [separates_self] at hsep
  cases hsep

/-! ## Steps of a pass -/

/-- A pair is either left alone, because it is marked or there is no reason to mark it, or it is
marked and counted. -/
theorem checkPair_cases (letters : List Letter) (r : PairMarks × Nat) (hx : items[i]? = some x)
    (hy : items[j]? = some y) :
    (checkPair (ofItems S items letters) r (i, j) = r ∧ (r.1.isMarked i j = true ∨
      apart r.1 (ofItem S items letters x) (ofItem S items letters y) = false)) ∨
    (checkPair (ofItems S items letters) r (i, j) = (r.1.mark i j, r.2 + 1) ∧
      r.1.isMarked i j = false ∧
      apart r.1 (ofItem S items letters x) (ofItem S items letters y) = true) := by
  simp only [checkPair, getElem?_ofItems hx, getElem?_ofItems hy]
  cases hmarked : r.1.isMarked i j with
  | true => exact Or.inl ⟨rfl, Or.inl rfl⟩
  | false =>
    cases hapart : apart r.1 (ofItem S items letters x) (ofItem S items letters y) with
    | true => exact Or.inr ⟨rfl, rfl, rfl⟩
    | false => exact Or.inl ⟨rfl, Or.inr rfl⟩

/-- What holds before a pass, and is kept when a pair is marked and counted, holds after it. -/
theorem pass_induction {P : PairMarks → Nat → Prop} (h0 : P t 0)
    (hmark : ∀ t k i j x y, j < i → i < items.length → items[i]? = some x → items[j]? = some y →
      t.isMarked i j = false →
      apart t (ofItem S items letters x) (ofItem S items letters y) = true →
      P t k → P (t.mark i j) (k + 1)) :
    P (pass (ofItems S items letters) t).1 (pass (ofItems S items letters) t).2 := by
  refine List.foldlRecOn (motive := fun (r : PairMarks × Nat) => P r.1 r.2) _ _ h0
    fun r hr pair hpair => ?_
  obtain ⟨i, j⟩ := pair
  obtain ⟨hj, hi⟩ := PairMarks.mem_pairs.mp hpair
  rw [size_ofItems] at hi
  obtain ⟨x, hx⟩ := exists_item hi
  obtain ⟨y, hy⟩ := exists_item (hj.trans hi)
  rcases checkPair_cases letters r hx hy with ⟨heq, -⟩ | ⟨heq, hmarked, hapart⟩
  · rw [heq]
    exact hr
  · rw [heq]
    exact hmark r.1 r.2 i j x y hj hi hx hy hmarked hapart hr

/-- No pair without a mark has to be marked. -/
def Stable (S : System β) (items : List β) (letters : List Letter) (t : PairMarks) : Prop :=
  ∀ i j x y, items[i]? = some x → items[j]? = some y → t.isMarked i j = false →
    apart t (ofItem S items letters x) (ofItem S items letters y) = false

theorem Stable.of_lt (h : ∀ i j x y, j < i → items[i]? = some x → items[j]? = some y →
    t.isMarked i j = false →
    apart t (ofItem S items letters x) (ofItem S items letters y) = false) :
    Stable S items letters t := by
  intro i j x y hx hy hmarked
  rcases Nat.lt_trichotomy i j with hlt | rfl | hlt
  · rw [PairMarks.isMarked_comm] at hmarked
    rw [apart_comm]
    exact h j i y x hlt hy hx hmarked
  · rw [hx] at hy
    cases hy
    exact apart_self
  · exact h i j x y hlt hx hy hmarked

omit [DecidableEq β] in
/-- The count never goes down. -/
theorem count_le_foldl_checkPair (profiles : Array Profile) (pairs : List (Nat × Nat))
    (r : PairMarks × Nat) : r.2 ≤ (pairs.foldl (checkPair profiles) r).2 := by
  refine List.foldlRecOn (motive := fun (q : PairMarks × Nat) => r.2 ≤ q.2) _ _ (Nat.le_refl _)
    fun q hq pair _ => ?_
  unfold checkPair
  split
  · split
    · exact hq
    · split
      · exact hq.trans (Nat.le_succ _)
      · exact hq
  · exact hq

/-- A run over some pairs that counts nothing changes nothing and finds no reason to. -/
theorem foldl_checkPair_of_count (pairs : List (Nat × Nat))
    (hpairs : ∀ i j, (i, j) ∈ pairs → i < items.length ∧ j < items.length)
    (hcount : (pairs.foldl (checkPair (ofItems S items letters)) r).2 ≤ r.2) :
    pairs.foldl (checkPair (ofItems S items letters)) r = r ∧
      ∀ i j x y, (i, j) ∈ pairs → items[i]? = some x → items[j]? = some y →
        r.1.isMarked i j = true ∨
          apart r.1 (ofItem S items letters x) (ofItem S items letters y) = false := by
  induction pairs generalizing r with
  | nil => exact ⟨rfl, fun i j x y h => absurd h List.not_mem_nil⟩
  | cons pair pairs ih =>
    have hrest : ∀ i j, (i, j) ∈ pairs → i < items.length ∧ j < items.length := fun i j h =>
      hpairs i j (List.mem_cons_of_mem _ h)
    obtain ⟨i, j⟩ := pair
    obtain ⟨hi, hj⟩ := hpairs i j List.mem_cons_self
    obtain ⟨x, hx⟩ := exists_item hi
    obtain ⟨y, hy⟩ := exists_item hj
    rw [List.foldl_cons] at hcount ⊢
    rcases checkPair_cases (S := S) letters r hx hy with ⟨heq, hreason⟩ | ⟨heq, -⟩
    · rw [heq] at hcount ⊢
      obtain ⟨hfold, hall⟩ := ih hrest hcount
      refine ⟨hfold, fun i' j' x' y' hmem hx' hy' => ?_⟩
      rcases List.mem_cons.mp hmem with hpair | hmem
      · cases hpair
        rw [hx] at hx'
        rw [hy] at hy'
        cases hx'
        cases hy'
        exact hreason
      · exact hall i' j' x' y' hmem hx' hy'
    · have hle := count_le_foldl_checkPair (ofItems S items letters) pairs
        (checkPair (ofItems S items letters) r (i, j))
      rw [heq] at hle hcount
      dsimp only at hle
      omega

theorem stable_of_pass (h : (pass (ofItems S items letters) t).2 = 0) :
    Stable S items letters (pass (ofItems S items letters) t).1 := by
  obtain ⟨heq, hall⟩ := foldl_checkPair_of_count (S := S) (r := (t, 0))
    (PairMarks.pairs (ofItems S items letters).size)
    (fun i j hij => by
      obtain ⟨hj, hi⟩ := PairMarks.mem_pairs.mp hij
      rw [size_ofItems] at hi
      exact ⟨hi, hj.trans hi⟩)
    h.le
  refine Stable.of_lt fun i j x y hj hx hy hmarked => ?_
  have hi : i < items.length := (List.getElem?_eq_some_iff.mp hx).1
  have hpass : (pass (ofItems S items letters) t).1 = t := congrArg Prod.fst heq
  rw [hpass] at hmarked ⊢
  refine (hall i j x y (PairMarks.mem_pairs.mpr ⟨hj, ?_⟩) hx hy).resolve_left fun hm => ?_
  · rwa [size_ofItems]
  · rw [hmarked] at hm
    cases hm

/-- What is kept when a pair is marked is kept by all passes. -/
theorem passes_induction {P : PairMarks → Prop}
    (hmark : ∀ t i j x y, j < i → i < items.length → items[i]? = some x → items[j]? = some y →
      t.isMarked i j = false →
      apart t (ofItem S items letters x) (ofItem S items letters y) = true →
      P t → P (t.mark i j)) (budget : Nat) (h0 : P t) :
    P (passes (ofItems S items letters) budget t).1 := by
  induction budget generalizing t with
  | zero => exact h0
  | succ budget ih =>
    have hpass : P (pass (ofItems S items letters) t).1 :=
      pass_induction (P := fun t _ => P t) h0 fun t _ i j x y hj hi hx hy hm ha hP =>
        hmark t i j x y hj hi hx hy hm ha hP
    rw [passes]
    dsimp only
    split
    · exact hpass
    · exact ih hpass

/-- A pass counts the pairs it marks. -/
theorem pass_spec (S : System β) (letters : List Letter) (ht : t.Fits items.length) :
    (pass (ofItems S items letters) t).1.Fits items.length ∧
      (pass (ofItems S items letters) t).1.unmarked +
        (pass (ofItems S items letters) t).2 = t.unmarked := by
  refine pass_induction (P := fun t' k => t'.Fits items.length ∧ t'.unmarked + k = t.unmarked)
    ⟨ht, rfl⟩ fun t' k i j x y hj hi _ _ hmarked _ hP => ?_
  have hmark := PairMarks.unmarked_mark hP.1 hj hi hmarked
  exact ⟨hP.1.mark i j, by omega⟩

/-- **With more budget than unmarked cells, the passes end with one that finds nothing.** -/
theorem stable_passes {budget : Nat} (ht : t.Fits items.length) (hbudget : t.unmarked < budget) :
    Stable S items letters (passes (ofItems S items letters) budget t).1 := by
  induction budget generalizing t with
  | zero => exact absurd hbudget (Nat.not_lt_zero _)
  | succ budget ih =>
    have hpass := pass_spec S letters ht
    rw [passes]
    dsimp only
    split_ifs with hzero
    · exact stable_of_pass hzero
    · exact ih hpass.1 (by omega)

/-! ## The first table -/

/-- Marking one pair, if it is a pair of an exit and another item, and no other pair. -/
theorem markExits_spec (letters : List Letter) (ht : t.Fits items.length) (hj : j < i)
    (hi : i < items.length) :
    (markExits (ofItems S items letters) t (i, j)).Fits items.length ∧
      ∀ i' j' x y, j' < i' → items[i']? = some x → items[j']? = some y →
        ((markExits (ofItems S items letters) t (i, j)).isMarked i' j' = true ↔
          t.isMarked i' j' = true ∨ ((i', j') = (i, j) ∧ S.isExit x ≠ S.isExit y)) := by
  obtain ⟨x, hx⟩ := exists_item hi
  obtain ⟨y, hy⟩ := exists_item (hj.trans hi)
  have hmark : markExits (ofItems S items letters) t (i, j) =
      if S.isExit x = S.isExit y then t else t.mark i j := by
    simp only [markExits, getElem?_ofItems hx, getElem?_ofItems hy, ofItem]
    by_cases h : S.isExit x = S.isExit y <;> simp [h]
  have hpair : ∀ {i' j' x' y'}, items[i']? = some x' → items[j']? = some y' →
      (i', j') = (i, j) → x' = x ∧ y' = y := by
    rintro i' j' x' y' hx' hy' heq
    cases heq
    exact ⟨Option.some.inj (hx'.symm.trans hx), Option.some.inj (hy'.symm.trans hy)⟩
  rw [hmark]
  by_cases hexit : S.isExit x = S.isExit y
  · rw [if_pos hexit]
    refine ⟨ht, fun i' j' x' y' _ hx' hy' => (or_iff_left ?_).symm⟩
    rintro ⟨heq, hne⟩
    obtain ⟨rfl, rfl⟩ := hpair hx' hy' heq
    exact hne hexit
  · rw [if_neg hexit]
    refine ⟨ht.mark i j, fun i' j' x' y' hj' hx' hy' => ?_⟩
    rw [PairMarks.isMarked_mark ht hj hi hj', ← Prod.mk.injEq]
    refine or_congr_right (iff_self_and.mpr fun heq => ?_)
    obtain ⟨rfl, rfl⟩ := hpair hx' hy' heq
    exact hexit

theorem foldl_markExits_spec (letters : List Letter) (pairs : List (Nat × Nat))
    (hpairs : ∀ i j, (i, j) ∈ pairs → j < i ∧ i < items.length) (ht : t.Fits items.length) :
    (pairs.foldl (markExits (ofItems S items letters)) t).Fits items.length ∧
      ∀ i j x y, j < i → items[i]? = some x → items[j]? = some y →
        ((pairs.foldl (markExits (ofItems S items letters)) t).isMarked i j = true ↔
          t.isMarked i j = true ∨ ((i, j) ∈ pairs ∧ S.isExit x ≠ S.isExit y)) := by
  induction pairs generalizing t with
  | nil => exact ⟨ht, fun i j x y _ _ _ => by simp⟩
  | cons pair pairs ih =>
    obtain ⟨i, j⟩ := pair
    obtain ⟨hj, hi⟩ := hpairs i j List.mem_cons_self
    obtain ⟨hfits, hmarked⟩ := markExits_spec (S := S) letters ht hj hi
    obtain ⟨hfits', hmarked'⟩ := ih (fun i j h => hpairs i j (List.mem_cons_of_mem _ h)) hfits
    refine ⟨hfits', fun i' j' x y hj' hx hy => ?_⟩
    rw [List.foldl_cons, hmarked' i' j' x y hj' hx hy, hmarked i' j' x y hj' hx hy, or_assoc,
      ← or_and_right, List.mem_cons]

/-- The first table marks the pairs of an exit and another item. -/
theorem exitTable_spec (S : System β) (items : List β) (letters : List Letter) :
    (exitTable (ofItems S items letters)).Fits items.length ∧
      ∀ i j x y, j < i → items[i]? = some x → items[j]? = some y →
        ((exitTable (ofItems S items letters)).isMarked i j = true ↔ S.isExit x ≠ S.isExit y) := by
  rw [exitTable, size_ofItems]
  obtain ⟨hfits, hmarked⟩ := foldl_markExits_spec (S := S) letters (PairMarks.pairs items.length)
    (fun i j h => PairMarks.mem_pairs.mp h) (PairMarks.fits_blank items.length)
  refine ⟨hfits, fun i j x y hj hx hy => ?_⟩
  have hpair : (i, j) ∈ PairMarks.pairs items.length :=
    PairMarks.mem_pairs.mpr ⟨hj, (List.getElem?_eq_some_iff.mp hx).1⟩
  rw [hmarked i j x y hj hx hy, PairMarks.isMarked_blank]
  simp [hpair]

/-! ## The filled table -/

/-- Items that are told apart have different outcomes. -/
def Sound (S : System β) (items : List β) (t : PairMarks) : Prop :=
  ∀ i j x y, items[i]? = some x → items[j]? = some y → t.isMarked i j = true →
    S.outcome x ≠ S.outcome y

omit [DecidableEq β] in
theorem Sound.of_lt (h : ∀ i j x y, j < i → items[i]? = some x → items[j]? = some y →
    t.isMarked i j = true → S.outcome x ≠ S.outcome y) : Sound S items t := by
  intro i j x y hx hy hmarked
  rcases Nat.lt_trichotomy i j with hlt | rfl | hlt
  · rw [PairMarks.isMarked_comm] at hmarked
    exact (h j i y x hlt hy hx hmarked).symm
  · rw [PairMarks.isMarked_self] at hmarked
    cases hmarked
  · exact h i j x y hlt hx hy hmarked

/-- Where a letter separates two items, their outcomes differ on a word that starts with it. -/
theorem Sound.outcome_ne (h : Sound S items t)
    (hclosed : ∀ {x l y}, x ∈ items → S.step x l = some y → y ∈ items) (hx : x ∈ items)
    (hy : y ∈ items)
    (hapart : apart t (ofItem S items letters x) (ofItem S items letters y) = true) :
    S.outcome x ≠ S.outcome y := by
  obtain ⟨l, -, hsep⟩ := apart_iff.mp hapart
  intro heq
  have hl : ∀ w, S.outcome x (l :: w) = S.outcome y (l :: w) := fun w => congrFun heq _
  cases hx' : S.step x l with
  | none =>
    cases hy' : S.step y l with
    | none =>
      rw [hx', hy'] at hsep
      cases hsep
    | some y' =>
      have hnil := hl []
      rw [System.outcome_cons_of_stuck hx', System.outcome_cons_of_step hy'] at hnil
      cases hnil
  | some x' =>
    cases hy' : S.step y l with
    | none =>
      have hnil := hl []
      rw [System.outcome_cons_of_step hx', System.outcome_cons_of_stuck hy'] at hnil
      cases hnil
    | some y' =>
      rw [hx', hy'] at hsep
      refine h _ _ x' y' (List.getElem?_idxOf (hclosed hx hx'))
        (List.getElem?_idxOf (hclosed hy hy')) hsep (funext fun w => ?_)
      have hw := hl w
      rwa [System.outcome_cons_of_step hx', System.outcome_cons_of_step hy'] at hw

/-- Items that a stable table does not tell apart look alike and step to such items. -/
theorem Stable.outcome_eq (h : Stable S items letters t)
    (hexit : ∀ i j x y, items[i]? = some x → items[j]? = some y → t.isMarked i j = false →
      S.isExit x = S.isExit y)
    (hclosed : ∀ {x l y}, x ∈ items → S.step x l = some y → y ∈ items)
    (hletters : ∀ {x l y}, x ∈ items → S.step x l = some y → l ∈ letters)
    (hx : items[i]? = some x) (hy : items[j]? = some y) (hmarked : t.isMarked i j = false) :
    S.outcome x = S.outcome y := by
  refine System.outcome_eq_of_bisimulation (R := fun x y =>
    ∃ i j, items[i]? = some x ∧ items[j]? = some y ∧ t.isMarked i j = false) ?_ ?_
    ⟨i, j, hx, hy, hmarked⟩
  · rintro x y ⟨i, j, hx, hy, hmarked⟩
    exact hexit i j x y hx hy hmarked
  · rintro x y ⟨i, j, hx, hy, hmarked⟩ l
    have hx_mem := List.mem_of_getElem? hx
    have hy_mem := List.mem_of_getElem? hy
    have hnot : l ∈ letters →
        separates t ((S.step x l).map items.idxOf, (S.step y l).map items.idxOf) = false :=
      fun hl => Bool.eq_false_iff.mpr fun hsep => by
        have hapart := h i j x y hx hy hmarked
        rw [apart_iff.mpr ⟨l, hl, hsep⟩] at hapart
        cases hapart
    cases hx' : S.step x l with
    | none =>
      cases hy' : S.step y l with
      | none => exact .none
      | some y' =>
        have hsep := hnot (hletters hy_mem hy')
        rw [hx', hy'] at hsep
        cases hsep
    | some x' =>
      have hsep := hnot (hletters hx_mem hx')
      cases hy' : S.step y l with
      | none =>
        rw [hx', hy'] at hsep
        cases hsep
      | some y' =>
        rw [hx', hy'] at hsep
        exact .some ⟨_, _, List.getElem?_idxOf (hclosed hx_mem hx'),
          List.getElem?_idxOf (hclosed hy_mem hy'), hsep⟩

/-- **A pair is marked in the filled table exactly if the outcomes of the two items differ.** -/
theorem fillTable_spec (hclosed : ∀ {x l y}, x ∈ items → S.step x l = some y → y ∈ items)
    (hletters : ∀ {x l y}, x ∈ items → S.step x l = some y → l ∈ letters)
    (hx : items[i]? = some x) (hy : items[j]? = some y) :
    (fillTable (ofItems S items letters)).1.isMarked i j = false ↔ S.outcome x = S.outcome y := by
  obtain ⟨hfits, hmarked_iff⟩ := exitTable_spec S items letters
  -- what all passes keep: marks are sound, and those of the first table stay
  have hkept : (fillTable (ofItems S items letters)).1.Fits items.length ∧
      Sound S items (fillTable (ofItems S items letters)).1 ∧
      ∀ i j, j < i → (exitTable (ofItems S items letters)).isMarked i j = true →
        (fillTable (ofItems S items letters)).1.isMarked i j = true := by
    refine passes_induction (P := fun t => t.Fits items.length ∧ Sound S items t ∧
      ∀ i j, j < i → (exitTable (ofItems S items letters)).isMarked i j = true →
        t.isMarked i j = true) ?_ _ ⟨hfits, ?_, fun i j _ h => h⟩
    · rintro t i j x y hj hi hx hy - hapart ⟨ht, hsound, hfirst⟩
      refine ⟨ht.mark i j, Sound.of_lt fun i' j' x' y' hj' hx' hy' hmarked => ?_,
        fun i' j' hj' hm => (PairMarks.isMarked_mark ht hj hi hj').mpr (Or.inl (hfirst i' j' hj' hm))⟩
      rcases (PairMarks.isMarked_mark ht hj hi hj').mp hmarked with hmarked | ⟨rfl, rfl⟩
      · exact hsound i' j' x' y' hx' hy' hmarked
      · rw [hx] at hx'
        rw [hy] at hy'
        cases hx'
        cases hy'
        exact hsound.outcome_ne hclosed (List.mem_of_getElem? hx) (List.mem_of_getElem? hy) hapart
    · refine Sound.of_lt fun i j x y hj hx hy hmarked heq => ?_
      have hnil := congrFun heq []
      rw [System.outcome_nil, System.outcome_nil, Option.some.injEq] at hnil
      exact (hmarked_iff i j x y hj hx hy).mp hmarked hnil
  obtain ⟨-, hsound, hfirst⟩ := hkept
  have hstable : Stable S items letters (fillTable (ofItems S items letters)).1 := by
    refine stable_passes hfits ?_
    rw [size_ofItems]
    exact Nat.lt_succ_of_le hfits.unmarked_le
  have hexit : ∀ i j x y, j < i → items[i]? = some x → items[j]? = some y →
      (fillTable (ofItems S items letters)).1.isMarked i j = false → S.isExit x = S.isExit y := by
    intro i j x y hj hx hy hm
    by_contra hne
    rw [hfirst i j hj ((hmarked_iff i j x y hj hx hy).mpr hne)] at hm
    cases hm
  constructor
  · refine hstable.outcome_eq (fun i j x y hx hy hm => ?_) hclosed hletters hx hy
    rcases Nat.lt_trichotomy i j with hlt | rfl | hlt
    · rw [PairMarks.isMarked_comm] at hm
      exact (hexit j i y x hlt hy hx hm).symm
    · rw [hx] at hy
      cases hy
      rfl
    · exact hexit i j x y hlt hx hy hm
  · intro heq
    exact Bool.eq_false_iff.mpr fun hm => hsound i j x y hx hy hm heq

end Profile

end PatternAutomata
