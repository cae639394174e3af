import Mathlib.Order.Lattice
import Mathlib.Order.MinMax
import PatternAutomata.Minimal.SetForest

/-!
# Roots and sets

In an `Ordered` forest no parent is above its child, so following parents ends, at the `root`.
Two numbers are in one set if their roots are equal.

* `find_spec`: looking up a root finds it, and keeps all sets though it shortens paths.
* `union_spec`: uniting two sets gives their members the smaller of the two roots, and leaves all
  others alone.
* `root_union_eq_iff`: so no other sets are united.
-/

namespace PatternAutomata

namespace SetForest

variable {s s' : SetForest} {i j k p steps : Nat}

/-! ## Roots -/

/-- No parent is above its child. -/
def Ordered (s : SetForest) : Prop := ∀ i, s.parentOf i ≤ i

/-- Where the parents of a number lead. -/
def root (s : SetForest) (i : Nat) : Nat :=
  if _ : s.parentOf i < i then s.root (s.parentOf i) else i
termination_by i

theorem root_of_lt (h : s.parentOf i < i) : s.root i = s.root (s.parentOf i) := by
  rw [root, dif_pos h]

theorem root_of_eq (h : s.parentOf i = i) : s.root i = i := by
  rw [root, dif_neg (by omega)]

theorem root_le (s : SetForest) (i : Nat) : s.root i ≤ i := by
  induction i using Nat.strongRecOn with
  | _ i ih =>
    by_cases h : s.parentOf i < i
    · rw [root_of_lt h]
      exact (ih _ h).trans h.le
    · rw [root, dif_neg h]

namespace Ordered

theorem parentOf_root (hs : s.Ordered) (i : Nat) : s.parentOf (s.root i) = s.root i := by
  induction i using Nat.strongRecOn with
  | _ i ih =>
    rcases (hs i).lt_or_eq with h | h
    · rw [root_of_lt h]
      exact ih _ h
    · rw [root_of_eq h, h]

theorem root_root (hs : s.Ordered) (i : Nat) : s.root (s.root i) = s.root i :=
  root_of_eq (hs.parentOf_root i)

theorem root_parentOf (hs : s.Ordered) (i : Nat) : s.root (s.parentOf i) = s.root i := by
  rcases (hs i).lt_or_eq with h | h
  · exact (root_of_lt h).symm
  · rw [h]

/-- A forest whose parents are in the same sets, and which has no new roots, has the same roots. -/
theorem root_eq_of_parentOf (hs' : s'.Ordered) (hparent : ∀ k, s.root (s'.parentOf k) = s.root k)
    (hroot : ∀ k, s'.parentOf k = k → s.parentOf k = k) (k : Nat) : s'.root k = s.root k := by
  induction k using Nat.strongRecOn with
  | _ k ih =>
    rcases (hs' k).lt_or_eq with h | h
    · rw [root_of_lt h, ih _ h, hparent]
    · rw [root_of_eq h, root_of_eq (hroot k h)]

end Ordered

/-! ## Looking up roots -/

theorem parentOf_of_size_le (h : s.parent.size ≤ i) : s.parentOf i = i := by
  rw [parentOf, Array.getD_eq_getD_getElem?, Array.getElem?_eq_none h]
  rfl

theorem parentOf_set (hi : i < s.parent.size) (p k : Nat) :
    parentOf ⟨s.parent.setIfInBounds i p⟩ k = if k = i then p else s.parentOf k := by
  rw [parentOf, Array.getD_eq_getD_getElem?]
  by_cases hk : k = i
  · subst hk
    rw [if_pos rfl, Array.getElem?_setIfInBounds_self_of_lt hi]
    rfl
  · rw [if_neg hk, Array.getElem?_setIfInBounds_ne (Ne.symm hk), parentOf,
      Array.getD_eq_getD_getElem?]

theorem Ordered.set (hs : s.Ordered) (hi : i < s.parent.size) (hp : p ≤ i) :
    Ordered ⟨s.parent.setIfInBounds i p⟩ := fun k => by
  rw [parentOf_set hi]
  split_ifs with hk
  · exact hk ▸ hp
  · exact hs k

/-- An ordered forest has the same sets as another one, with the same roots. -/
structure SameSets (s s' : SetForest) : Prop where
  ordered : s'.Ordered
  size_eq : s'.parent.size = s.parent.size
  root_eq : ∀ k, s'.root k = s.root k

theorem SameSets.trans {s'' : SetForest} (h : SameSets s s') (h' : SameSets s' s'') :
    SameSets s s'' :=
  ⟨h'.ordered, h'.size_eq.trans h.size_eq, fun k => (h'.root_eq k).trans (h.root_eq k)⟩

/-- Pointing a number that is no root to its grandparent keeps all sets. -/
theorem sameSets_halve (hs : s.Ordered) (hi : s.parentOf i ≠ i) :
    SameSets s ⟨s.parent.setIfInBounds i (s.parentOf (s.parentOf i))⟩ := by
  have hlt : s.parentOf i < i := (hs i).lt_of_ne hi
  have hgrand : s.parentOf (s.parentOf i) < i := (hs _).trans_lt hlt
  have hbound : i < s.parent.size := Nat.lt_of_not_le fun h => hi (parentOf_of_size_le h)
  have hordered := hs.set hbound hgrand.le
  refine ⟨hordered, Array.size_setIfInBounds, hordered.root_eq_of_parentOf (fun k => ?_) fun k => ?_⟩
  · rw [parentOf_set hbound]
    split_ifs with hk
    · rw [hk, hs.root_parentOf, hs.root_parentOf]
    · exact hs.root_parentOf k
  · rw [parentOf_set hbound]
    split_ifs
    · omega
    · exact id

theorem climb_spec (hs : s.Ordered) (hsteps : i ≤ steps ∨ s.parentOf i = i) :
    (s.climb steps i).2 = s.root i ∧ SameSets s (s.climb steps i).1 := by
  induction steps generalizing s i with
  | zero =>
    have hi : s.parentOf i = i := by
      rcases hsteps with h | h
      · have := hs i
        omega
      · exact h
    exact ⟨(root_of_eq hi).symm, hs, rfl, fun _ => rfl⟩
  | succ steps ih =>
    by_cases hi : s.parentOf i = i
    · rw [climb, if_pos hi]
      exact ⟨(root_of_eq hi).symm, hs, rfl, fun _ => rfl⟩
    · have hhalve := sameSets_halve hs hi
      have hgrand : s.parentOf (s.parentOf i) < i :=
        (hs _).trans_lt ((hs i).lt_of_ne hi)
      obtain ⟨hroot, hsame⟩ := ih (i := s.parentOf (s.parentOf i)) hhalve.ordered
        (Or.inl (by omega))
      rw [climb, if_neg hi]
      refine ⟨?_, hhalve.trans hsame⟩
      rw [hroot, hhalve.root_eq, hs.root_parentOf, hs.root_parentOf]

/-- **Looking up finds the root and keeps all sets.** -/
theorem find_spec (hs : s.Ordered) (i : Nat) : (s.find i).2 = s.root i ∧ SameSets s (s.find i).1 := by
  refine climb_spec hs ?_
  rcases Nat.le_total i s.parent.size with h | h
  · exact Or.inl h
  · exact Or.inr (parentOf_of_size_le h)

theorem roots_eq (hs : s.Ordered) (is : List Nat) : s.roots is = is.map s.root := by
  induction is generalizing s with
  | nil => rfl
  | cons i is ih =>
    obtain ⟨hroot, hsame⟩ := find_spec hs i
    rw [roots, hroot, ih hsame.ordered, List.map_cons]
    exact congrArg _ (List.map_congr_left fun k _ => hsame.root_eq k)

/-! ## Uniting sets -/

/-- Pointing one root to a smaller one moves its whole set. -/
theorem root_link (hs : s.Ordered) (hi : s.parentOf i = i) (hp : s.parentOf p = p) (hlt : p < i)
    (hbound : i < s.parent.size) (k : Nat) :
    root ⟨s.parent.setIfInBounds i p⟩ k = if s.root k = i then p else s.root k := by
  have hordered := hs.set hbound hlt.le
  have hroot : root ⟨s.parent.setIfInBounds i p⟩ p = p :=
    root_of_eq (by rw [parentOf_set hbound, if_neg hlt.ne, hp])
  induction k using Nat.strongRecOn with
  | _ k ih =>
    by_cases hk : k = i
    · have hparent : parentOf ⟨s.parent.setIfInBounds i p⟩ k = p := by
        rw [parentOf_set hbound, if_pos hk]
      rw [root_of_lt (by omega), hparent, hroot, hk, root_of_eq hi, if_pos rfl]
    · have hparent : parentOf ⟨s.parent.setIfInBounds i p⟩ k = s.parentOf k := by
        rw [parentOf_set hbound, if_neg hk]
      rcases (hs k).lt_or_eq with h | h
      · rw [root_of_lt (hparent ▸ h), hparent, ih _ h, hs.root_parentOf]
      · rw [root_of_eq (hparent.trans h), root_of_eq h, if_neg hk]

/-- **Uniting two sets gives all their members the smaller of the two roots.** -/
theorem union_spec (hs : s.Ordered) (hi : i < s.parent.size) (hj : j < s.parent.size) :
    (s.union i j).Ordered ∧ (s.union i j).parent.size = s.parent.size ∧
      ∀ k, (s.union i j).root k =
        if s.root k = max (s.root i) (s.root j) then min (s.root i) (s.root j) else s.root k := by
  obtain ⟨hroot_i, hsame_i⟩ := find_spec hs i
  obtain ⟨hroot_j, hsame_j⟩ := find_spec hsame_i.ordered j
  rw [hsame_i.root_eq] at hroot_j
  have hsame := hsame_i.trans hsame_j
  rw [union, hroot_i, hroot_j]
  by_cases heq : s.root i = s.root j
  · rw [if_pos heq, heq, max_self, min_self]
    refine ⟨hsame.ordered, hsame.size_eq, fun k => ?_⟩
    rw [hsame.root_eq]
    split
    · assumption
    · rfl
  · rw [if_neg heq]
    have hfix : ∀ k, s.root k = k → parentOf ((s.find i).1.find j).1 k = k := fun k hk => by
      have h := hsame.ordered.parentOf_root k
      rwa [hsame.root_eq, hk] at h
    have hle_i := root_le s i
    have hle_j := root_le s j
    have hbound : max (s.root i) (s.root j) < ((s.find i).1.find j).1.parent.size := by
      rw [hsame.size_eq]
      omega
    have hlt : min (s.root i) (s.root j) < max (s.root i) (s.root j) := by omega
    have hmax : s.root (max (s.root i) (s.root j)) = max (s.root i) (s.root j) := by
      rcases max_choice (s.root i) (s.root j) with h | h
      · rw [h, hs.root_root]
      · rw [h, hs.root_root]
    have hmin : s.root (min (s.root i) (s.root j)) = min (s.root i) (s.root j) := by
      rcases min_choice (s.root i) (s.root j) with h | h
      · rw [h, hs.root_root]
      · rw [h, hs.root_root]
    refine ⟨hsame.ordered.set hbound hlt.le, Array.size_setIfInBounds.trans hsame.size_eq,
      fun k => ?_⟩
    rw [root_link hsame.ordered (hfix _ hmax) (hfix _ hmin) hlt hbound, hsame.root_eq]

/-- **Uniting two sets unites no others.** -/
theorem root_union_eq_iff (hs : s.Ordered) (hi : i < s.parent.size) (hj : j < s.parent.size)
    (a b : Nat) : (s.union i j).root a = (s.union i j).root b ↔ s.root a = s.root b ∨
      (s.root a = s.root i ∧ s.root b = s.root j) ∨
      (s.root a = s.root j ∧ s.root b = s.root i) := by
  obtain ⟨-, -, hroot⟩ := union_spec hs hi hj
  rw [hroot, hroot]
  split <;> split <;> omega

theorem discrete_spec (n : Nat) :
    (discrete n).Ordered ∧ (discrete n).parent.size = n ∧ ∀ k, (discrete n).root k = k := by
  have hparent : ∀ i, (discrete n).parentOf i = i := fun i => by
    rw [parentOf, discrete, Array.getD_eq_getD_getElem?, Array.getElem?_range]
    split <;> rfl
  exact ⟨fun i => (hparent i).le, Array.size_range, fun k => root_of_eq (hparent k)⟩

end SetForest

end PatternAutomata
