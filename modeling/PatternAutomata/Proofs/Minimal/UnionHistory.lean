import Mathlib.Data.List.Basic
import Mathlib.Data.List.Induction
import Mathlib.Logic.Relation
import Mathlib.Order.Bounds.Basic
import PatternAutomata.Proofs.Minimal.SetForest

/-!
# Sets after any history

Looking up a root changes the forest, because it shortens paths, and uniting two sets looks up two
roots first.  So what a forest says about its sets has to survive any order of both operations.

`Connected` is what a history of operations says without the forest: the equivalence relation that
the united pairs generate.  A forest `Represents` such a relation if what it finds for a number is
the smallest one related to it.  After a history a forest represents what the history connects, and
so does every forest that a walk to a root passes through on its way (`represents_after`).

The walk is a loop without a budget here, given by its turns.  A `Turn` is possible only if all that
it reads is in the array, so a walk that gets to a root has never left it.
-/

namespace PatternAutomata

namespace SetForest

variable {s : SetForest} {n i p steps : Nat}

/-! ## Histories -/

/-- Something that is done to a forest. -/
inductive Operation where
  /-- The root of a number is looked up. -/
  | find (i : Nat)
  /-- The sets of two numbers are united. -/
  | union (i j : Nat)
  deriving DecidableEq, Repr

/-- The numbers that an operation is given. -/
def Operation.arguments : Operation → List Nat
  | .find i => [i]
  | .union i j => [i, j]

variable {history : List Operation}

/-- The forest after one operation. -/
def perform (s : SetForest) : Operation → SetForest
  | .find i => (s.find i).1
  | .union i j => s.union i j

/-- The forest after some operations, one after the other, on the numbers below `n`.  At first each
of them is in a set of its own. -/
def after (n : Nat) (history : List Operation) : SetForest := history.foldl perform (discrete n)

theorem after_concat (n : Nat) (history : List Operation) (o : Operation) :
    after n (history ++ [o]) = (after n history).perform o := List.foldl_concat ..

/-- The united pairs lead from one number to another. -/
def Connected (history : List Operation) : Nat → Nat → Prop :=
  Relation.EqvGen fun i j => Operation.union i j ∈ history

/-- A value that united numbers share is shared by all connected numbers. -/
theorem Connected.eq_of_forall {j : Nat} (f : Nat → Nat)
    (hf : ∀ i j, Operation.union i j ∈ history → f i = f j) (h : Connected history i j) :
    f i = f j :=
  (eq_equivalence.comap f).eqvGen_iff.mp (h.mono fun i j hij => hf i j hij)

/-- **Equal roots after a history are those of connected numbers.** -/
theorem after_spec (hbelow : ∀ o ∈ history, ∀ i ∈ o.arguments, i < n) :
    (after n history).Ordered ∧ (after n history).parent.size = n ∧
      ∀ i j, (after n history).root i = (after n history).root j ↔ Connected history i j := by
  induction history using List.reverseRecOn with
  | nil =>
    obtain ⟨hordered, hsize, hroot⟩ := discrete_spec n
    refine ⟨hordered, hsize, fun i j => ?_⟩
    rw [after, List.foldl_nil, hroot, hroot]
    constructor
    · rintro rfl
      exact .refl i
    · exact Connected.eq_of_forall id fun i j h => absurd h List.not_mem_nil
  | append_singleton history o ih =>
    obtain ⟨hordered, hsize, hiff⟩ := ih fun o ho => hbelow o (List.mem_append_left _ ho)
    have hnew := hbelow o (List.mem_append_right _ (List.mem_singleton_self o))
    have hkeep : ∀ {a b}, (after n history).root a = (after n history).root b →
        Connected (history ++ [o]) a b := fun h =>
      ((hiff _ _).mp h).mono fun _ _ h => List.mem_append_left _ h
    rw [after_concat]
    cases o with
    | find i =>
      obtain ⟨-, hsame⟩ := find_spec hordered i
      refine ⟨hsame.ordered, hsame.size_eq.trans hsize, fun a b => ?_⟩
      rw [perform, hsame.root_eq, hsame.root_eq]
      refine ⟨hkeep, Connected.eq_of_forall _ fun c d h => (hiff c d).mpr (.rel c d ?_)⟩
      simpa using h
    | union i j =>
      have hi : i < (after n history).parent.size := by
        rw [hsize]
        exact hnew i List.mem_cons_self
      have hj : j < (after n history).parent.size := by
        rw [hsize]
        exact hnew j (List.mem_cons_of_mem _ List.mem_cons_self)
      obtain ⟨hunion, hsize', -⟩ := union_spec hordered hi hj
      refine ⟨hunion, hsize'.trans hsize, fun a b => ⟨fun h => ?_, ?_⟩⟩
      · have hij : Connected (history ++ [.union i j]) i j := .rel i j (by simp)
        rcases (root_union_eq_iff hordered hi hj a b).mp h with h | ⟨ha, hb⟩ | ⟨ha, hb⟩
        · exact hkeep h
        · exact ((hkeep ha).trans _ _ _ hij).trans _ _ _ (hkeep hb.symm)
        · exact ((hkeep ha).trans _ _ _ (hij.symm _ _)).trans _ _ _ (hkeep hb.symm)
      · refine Connected.eq_of_forall _ fun c d h => (root_union_eq_iff hordered hi hj c d).mpr ?_
        rcases List.mem_append.mp h with h | h
        · exact Or.inl ((hiff c d).mpr (.rel c d h))
        · rw [List.mem_singleton, Operation.union.injEq] at h
          obtain ⟨rfl, rfl⟩ := h
          exact Or.inr (Or.inl ⟨rfl, rfl⟩)

/-! ## Walks -/

/-- One turn of the walk to a root, which points a number to its grandparent and goes there.  What
is read has to be in the array. -/
inductive Turn : SetForest × Nat → SetForest × Nat → Prop where
  | halve {s : SetForest} {i p g : Nat} : s.parent[i]? = some p → p ≠ i →
      s.parent[p]? = some g → Turn (s, i) (⟨s.parent.setIfInBounds i g⟩, g)

/-- Some turns of the walk to a root. -/
def Walk : SetForest × Nat → SetForest × Nat → Prop := Relation.ReflTransGen Turn

theorem parentOf_eq (h : s.parent[i]? = some p) : s.parentOf i = p := by
  rw [parentOf, Array.getD_eq_getD_getElem?, h]
  rfl

theorem getElem?_parent (h : i < s.parent.size) : s.parent[i]? = some (s.parentOf i) := by
  rw [Array.getElem?_eq_getElem h, parentOf_eq (Array.getElem?_eq_getElem h)]

/-- A turn keeps all sets and goes to a smaller number. -/
theorem Turn.spec {t t' : SetForest × Nat} (h : Turn t t') (ht : t.1.Ordered) :
    SameSets t.1 t'.1 ∧ t'.2 < t.2 := by
  cases h with
  | @halve s i p g hp hne hg =>
    have hhalve := sameSets_halve (i := i) ht (by rwa [parentOf_eq hp])
    have hle_p := ht i
    have hle_g := ht p
    rw [parentOf_eq hp] at hhalve hle_p
    rw [parentOf_eq hg] at hhalve hle_g
    exact ⟨hhalve, hle_g.trans_lt (hle_p.lt_of_ne hne)⟩

/-- **A walk keeps all sets and never goes up.** -/
theorem Walk.spec {t : SetForest × Nat} (h : Walk (s, i) t) (hs : s.Ordered) :
    SameSets s t.1 ∧ t.2 ≤ i := by
  induction h with
  | refl => exact ⟨⟨hs, rfl, fun _ => rfl⟩, Nat.le_refl i⟩
  | tail _ hturn ih =>
    obtain ⟨hsame, hlt⟩ := hturn.spec ih.1.ordered
    exact ⟨ih.1.trans hsame, hlt.le.trans ih.2⟩

/-- The walk with a budget is a walk. -/
theorem walk_climb (hs : s.Ordered) (hi : i < s.parent.size) : Walk (s, i) (s.climb steps i) := by
  induction steps generalizing s i with
  | zero => exact .refl
  | succ steps ih =>
    rw [climb]
    split_ifs with hne
    · exact .refl
    · have hp := getElem?_parent hi
      have hg := getElem?_parent ((hs i).trans_lt hi)
      have hturn := Turn.halve hp hne hg
      obtain ⟨hsame, hlt⟩ := hturn.spec hs
      exact .head hturn (ih hsame.ordered (by rw [hsame.size_eq]; exact hlt.trans hi))

/-! ## What a forest represents -/

/-- A forest of the numbers below `n` represents a relation: no parent is above its child, and what
is found for a number is the smallest one related to it. -/
structure Represents (n : Nat) (R : Nat → Nat → Prop) (s : SetForest) : Prop where
  size_eq : s.parent.size = n
  parent_le : ∀ i p : Nat, s.parent[i]? = some p → p ≤ i
  isLeast_find : ∀ i < n, IsLeast {k | R i k} (s.find i).2
  /-- The second number is looked up in the forest that looking up the first one leaves. -/
  find_eq_find_iff : ∀ i < n, ∀ j < n, (s.find i).2 = ((s.find i).1.find j).2 ↔ R i j

theorem represents_of_root {R : Nat → Nat → Prop} (hs : s.Ordered) (hsize : s.parent.size = n)
    (hiff : ∀ i j, s.root i = s.root j ↔ R i j) : Represents n R s where
  size_eq := hsize
  parent_le i p h := parentOf_eq h ▸ hs i
  isLeast_find i _ := by
    rw [(find_spec hs i).1]
    refine ⟨(hiff _ _).mp (hs.root_root i).symm, fun k hk => ?_⟩
    rw [(hiff i k).mpr hk]
    exact root_le s k
  find_eq_find_iff i _ j _ := by
    obtain ⟨hroot, hsame⟩ := find_spec hs i
    rw [hroot, (find_spec hsame.ordered j).1, hsame.root_eq, hiff]

/-- **After any history, a forest knows the sets that the united pairs make.**  What is found for a
number is the smallest member of its set, two numbers have the same one exactly if united pairs
connect them, and no parent is above its child.  The walk that finds it gets to a root.  On its way it
goes down with every turn and never leaves the array, and every forest it passes through knows the
same sets. -/
theorem represents_after (hbelow : ∀ o ∈ history, ∀ i ∈ o.arguments, i < n) :
    Represents n (Connected history) (after n history) ∧
      ∀ i < n, Walk (after n history, i) ((after n history).find i) ∧
        ((after n history).find i).1.parent[((after n history).find i).2]? =
          some ((after n history).find i).2 ∧
        ∀ t, Walk (after n history, i) t →
          t.2 < n ∧ (∀ t', Turn t t' → t'.2 < t.2) ∧ Represents n (Connected history) t.1 := by
  obtain ⟨hordered, hsize, hiff⟩ := after_spec hbelow
  refine ⟨represents_of_root hordered hsize hiff, fun i hi => ?_⟩
  have hwalk : Walk (after n history, i) ((after n history).find i) :=
    walk_climb hordered (by rwa [hsize])
  refine ⟨hwalk, ?_, fun t ht => ?_⟩
  · obtain ⟨-, hle⟩ := hwalk.spec hordered
    obtain ⟨hroot, hsame⟩ := find_spec hordered i
    rw [getElem?_parent (by rw [hsame.size_eq, hsize]; exact hle.trans_lt hi), hroot,
      ← hsame.root_eq, hsame.ordered.parentOf_root]
  · obtain ⟨hsame, hle⟩ := ht.spec hordered
    refine ⟨hle.trans_lt hi, fun t' hturn => (hturn.spec hsame.ordered).2,
      represents_of_root hsame.ordered (hsame.size_eq.trans hsize) fun a b => ?_⟩
    rw [hsame.root_eq, hsame.root_eq, hiff]

/-- Uniting `4` with `3` and `3` with `1` connects `4` and `1`, also if paths are shortened in
between, and leaves `2` alone. -/
theorem represents_after_chain :
    (after 5 [.union 4 3, .find 4, .union 3 1]).parent = #[0, 1, 2, 1, 3] ∧
      ((after 5 [.union 4 3, .find 4, .union 3 1]).find 4).2 = 1 ∧
      Connected [.union 4 3, .find 4, .union 3 1] 4 1 ∧
      ¬ Connected [.union 4 3, .find 4, .union 3 1] 4 2 := by
  have hbelow : ∀ o ∈ [Operation.union 4 3, .find 4, .union 3 1], ∀ i ∈ o.arguments, i < 5 := by
    decide
  obtain ⟨hrepresents, -⟩ := represents_after hbelow
  refine ⟨by decide, by decide, ?_, ?_⟩
  · exact (hrepresents.find_eq_find_iff 4 (by decide) 1 (by decide)).mp (by decide)
  · exact fun h => absurd ((hrepresents.find_eq_find_iff 4 (by decide) 2 (by decide)).mpr h)
      (by decide)

end SetForest

end PatternAutomata
