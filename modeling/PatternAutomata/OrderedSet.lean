/-!
# Finite sets as strictly ascending lists

Alphabets, sets of states and sets of arcs are finite, are compared for equality, and are printed
in a fixed order.  `OrderedSet` serves all three needs with one representation: a strictly
ascending list together with the proof that it ascends.

Two such sets with the same members are equal (`OrderedSet.ext_mem`), so a set is a usable key, and
`toList` is the order in which its members are listed.
-/

namespace PatternAutomata

/-- The laws of a strict total order.  They are what makes a strictly ascending list determined by
its members. -/
class StrictTotalOrder (α : Type) [LT α] : Prop where
  irrefl : ∀ a : α, ¬ a < a
  trans : ∀ a b c : α, a < b → b < c → a < c
  connected : ∀ a b : α, a < b ∨ a = b ∨ b < a

instance : StrictTotalOrder Char where
  irrefl := Char.lt_irrefl
  trans _ _ _ := Char.lt_trans
  connected a b := by
    by_cases hab : a < b
    · exact Or.inl hab
    · by_cases hba : b < a
      · exact Or.inr (Or.inr hba)
      · exact Or.inr (Or.inl (Char.le_antisymm (Char.not_lt.mp hba) (Char.not_lt.mp hab)))

instance : StrictTotalOrder Nat where
  irrefl := Nat.lt_irrefl
  trans _ _ _ := Nat.lt_trans
  connected := Nat.lt_trichotomy

/-- A finite set, listed in strictly ascending order. -/
structure OrderedSet (α : Type) [LT α] where
  toList : List α
  ascending : toList.Pairwise (· < ·)

namespace OrderedSet

variable {α : Type} [LT α]

instance : EmptyCollection (OrderedSet α) := ⟨⟨[], List.Pairwise.nil⟩⟩

instance : Inhabited (OrderedSet α) := ⟨∅⟩

instance : Membership α (OrderedSet α) := ⟨fun s a => a ∈ s.toList⟩

theorem mem_toList {s : OrderedSet α} {a : α} : a ∈ s.toList ↔ a ∈ s := Iff.rfl

theorem toList_injective {s t : OrderedSet α} (h : s.toList = t.toList) : s = t := by
  cases s
  cases t
  cases h
  rfl

instance [DecidableEq α] (a : α) (s : OrderedSet α) : Decidable (a ∈ s) :=
  inferInstanceAs (Decidable (a ∈ s.toList))

instance [DecidableEq α] : DecidableEq (OrderedSet α) := fun s t =>
  decidable_of_iff (s.toList = t.toList) ⟨toList_injective, fun h => h ▸ rfl⟩

/-- The number of members. -/
def size (s : OrderedSet α) : Nat := s.toList.length

/-- Whether there is no member. -/
def isEmpty (s : OrderedSet α) : Bool := s.toList.isEmpty

@[simp] theorem toList_empty : (∅ : OrderedSet α).toList = [] := rfl

@[simp] theorem not_mem_empty (a : α) : a ∉ (∅ : OrderedSet α) := List.not_mem_nil

theorem isEmpty_iff {s : OrderedSet α} : s.isEmpty = true ↔ s = ∅ :=
  ⟨fun h => toList_injective (List.isEmpty_iff.mp h), fun h => h ▸ rfl⟩

/-- No member is listed twice. -/
theorem nodup [StrictTotalOrder α] (s : OrderedSet α) : s.toList.Nodup :=
  List.nodup_iff_pairwise_ne.mpr <| s.ascending.imp fun {a b} (hlt : a < b) (heq : a = b) =>
    StrictTotalOrder.irrefl b (heq ▸ hlt)

/-- The set with one member. -/
def singleton (a : α) : OrderedSet α := ⟨[a], List.pairwise_singleton _ a⟩

@[simp] theorem mem_singleton {a b : α} : a ∈ singleton b ↔ a = b := List.mem_singleton

section Insertion

variable [DecidableLT α]

/-- Inserts a value into an ascending list, at its place and at most once. -/
def place (a : α) : List α → List α
  | [] => [a]
  | b :: l => if a < b then a :: b :: l else if b < a then b :: place a l else b :: l

variable [StrictTotalOrder α]

theorem mem_place {a x : α} {l : List α} : x ∈ place a l ↔ x = a ∨ x ∈ l := by
  induction l with
  | nil => simp [place]
  | cons b l ih =>
    by_cases hab : a < b
    · rw [place, if_pos hab, List.mem_cons]
    · rw [place, if_neg hab]
      by_cases hba : b < a
      · rw [if_pos hba, List.mem_cons, List.mem_cons, ih, or_left_comm]
      · obtain rfl : a = b :=
          ((StrictTotalOrder.connected a b).resolve_left hab).resolve_right hba
        rw [if_neg hba, List.mem_cons, or_self_left]

theorem pairwise_place {a : α} {l : List α} (h : l.Pairwise (· < ·)) :
    (place a l).Pairwise (· < ·) := by
  induction l with
  | nil => exact List.pairwise_singleton _ a
  | cons b l ih =>
    obtain ⟨hb, hl⟩ := List.pairwise_cons.mp h
    by_cases hab : a < b
    · rw [place, if_pos hab]
      refine List.pairwise_cons.mpr ⟨fun x hx => ?_, h⟩
      rcases List.mem_cons.mp hx with rfl | hx
      · exact hab
      · exact StrictTotalOrder.trans _ _ _ hab (hb x hx)
    · rw [place, if_neg hab]
      by_cases hba : b < a
      · rw [if_pos hba]
        refine List.pairwise_cons.mpr ⟨fun x hx => ?_, ih hl⟩
        rcases mem_place.mp hx with rfl | hx
        · exact hba
        · exact hb x hx
      · rw [if_neg hba]
        exact h

/-- Adds a member. -/
def insert (a : α) (s : OrderedSet α) : OrderedSet α :=
  ⟨place a s.toList, pairwise_place s.ascending⟩

@[simp] theorem mem_insert {a x : α} {s : OrderedSet α} : x ∈ s.insert a ↔ x = a ∨ x ∈ s :=
  mem_place

/-- The union of two sets. -/
def union (s t : OrderedSet α) : OrderedSet α := t.toList.foldl (fun u a => u.insert a) s

instance : Union (OrderedSet α) := ⟨union⟩

/-- The set of the values of a list, in any order and with any repetition. -/
def ofList (l : List α) : OrderedSet α := l.foldl (fun u a => u.insert a) ∅

theorem mem_foldl_insert {x : α} {l : List α} {s : OrderedSet α} :
    x ∈ l.foldl (fun u a => u.insert a) s ↔ x ∈ s ∨ x ∈ l := by
  induction l generalizing s with
  | nil => simp
  | cons b l ih =>
    rw [List.foldl_cons, ih, mem_insert, List.mem_cons, or_assoc, or_left_comm]

@[simp] theorem mem_union {x : α} {s t : OrderedSet α} : x ∈ s ∪ t ↔ x ∈ s ∨ x ∈ t :=
  mem_foldl_insert

@[simp] theorem mem_ofList {x : α} {l : List α} : x ∈ ofList l ↔ x ∈ l := by
  rw [ofList, mem_foldl_insert, or_iff_right (not_mem_empty x)]

omit [DecidableLT α] in
theorem not_mem_of_lt_all {a : α} {l : List α} (h : ∀ x ∈ l, a < x) : a ∉ l := fun ha =>
  StrictTotalOrder.irrefl a (h a ha)

omit [DecidableLT α] in
/-- Two strictly ascending lists with the same members are the same list. -/
theorem eq_of_pairwise_of_mem_iff {l m : List α} (hl : l.Pairwise (· < ·))
    (hm : m.Pairwise (· < ·)) (h : ∀ x, x ∈ l ↔ x ∈ m) : l = m := by
  induction l generalizing m with
  | nil =>
    cases m with
    | nil => rfl
    | cons b m => exact absurd ((h b).mpr List.mem_cons_self) List.not_mem_nil
  | cons a l ih =>
    cases m with
    | nil => exact absurd ((h a).mp List.mem_cons_self) List.not_mem_nil
    | cons b m =>
      have ha := List.pairwise_cons.mp hl
      have hb := List.pairwise_cons.mp hm
      have hab : a = b := by
        rcases List.mem_cons.mp ((h a).mp List.mem_cons_self) with hab | hab
        · exact hab
        · rcases List.mem_cons.mp ((h b).mpr List.mem_cons_self) with hba | hba
          · exact hba.symm
          · exact absurd (StrictTotalOrder.trans _ _ _ (hb.1 a hab) (ha.1 b hba))
              (StrictTotalOrder.irrefl b)
      subst hab
      have hal := not_mem_of_lt_all ha.1
      have ham := not_mem_of_lt_all hb.1
      refine congrArg (a :: ·) (ih ha.2 hb.2 fun x => ⟨fun hx => ?_, fun hx => ?_⟩)
      · rcases List.mem_cons.mp ((h x).mp (List.mem_cons_of_mem _ hx)) with rfl | hx'
        · exact absurd hx hal
        · exact hx'
      · rcases List.mem_cons.mp ((h x).mpr (List.mem_cons_of_mem _ hx)) with rfl | hx'
        · exact absurd hx ham
        · exact hx'

omit [DecidableLT α] in
/-- A set is determined by its members. -/
theorem ext_mem {s t : OrderedSet α} (h : ∀ x, x ∈ s ↔ x ∈ t) : s = t :=
  toList_injective (eq_of_pairwise_of_mem_iff s.ascending t.ascending h)

end Insertion

end OrderedSet

end PatternAutomata
