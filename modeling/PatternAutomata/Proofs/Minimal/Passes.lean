import Mathlib.Algebra.BigOperators.Group.List.Basic
import Mathlib.Algebra.GroupWithZero.Nat
import Mathlib.Data.Set.Function
import Mathlib.Data.Sym.Sym2
import PatternAutomata.Proofs.Minimal.Equivalence

/-!
# The passes come to an end

The table is filled by a loop that ends when a pass has marked nothing.  `Repeats` is this loop
without a budget.  With more budget than there are unmarked cells the loop comes to its end
(`repeats_passes`).  Every pass but the last marks a pair, so there are no more of them than cells
(`Repeats.length_le`).

A pass changes the table that it reads.  What it has checked before its last mark was checked on an
older table, so a pass that marks something says little about the pairs it leaves alone.  The last
one marks nothing.  It has checked all pairs on one and the same table, and therefore two states that
are not told apart in the end are `Alike`.

`table_settles` puts this together with what the table itself contributes: each unordered pair of
distinct numbers has a cell of its own, and no cell is left over.
-/

namespace PatternAutomata

/-! ## One cell for each pair -/

namespace PairMarks

variable {t : PairMarks} {n i j : Nat}

/-- The cell of an unordered pair. -/
def cell : Sym2 Nat → Nat := Sym2.lift ⟨offset, offset_comm⟩

theorem exists_larger {z : Sym2 Nat} (hz : ¬ z.IsDiag) : ∃ i j, j < i ∧ z = s(i, j) := by
  induction z using Sym2.ind with
  | _ i j =>
    rw [Sym2.mk_isDiag_iff] at hz
    rcases Nat.lt_or_gt_of_ne hz with h | h
    · exact ⟨j, i, h, Sym2.eq_swap⟩
    · exact ⟨i, j, h, rfl⟩

theorem bijOn_cell (n : Nat) :
    Set.BijOn cell {z | ¬ z.IsDiag ∧ ∀ i ∈ z, i < n} (Set.Iio (pairCount n)) := by
  refine ⟨?_, ?_, ?_⟩
  · rintro z ⟨hz, hbelow⟩
    obtain ⟨i, j, hj, rfl⟩ := exists_larger hz
    exact offset_lt hj (hbelow i (Sym2.mem_mk_left i j))
  · rintro z ⟨hz, -⟩ z' ⟨hz', -⟩ h
    obtain ⟨i, j, hj, rfl⟩ := exists_larger hz
    obtain ⟨i', j', hj', rfl⟩ := exists_larger hz'
    obtain ⟨rfl, rfl⟩ := offset_injective hj hj' h
    rfl
  · intro c hc
    obtain ⟨i, j, hj, hi, rfl⟩ := exists_offset_eq hc
    refine ⟨s(i, j), ⟨?_, fun k hk => ?_⟩, rfl⟩
    · rw [Sym2.mk_isDiag_iff]
      exact hj.ne'
    · rcases Sym2.mem_iff.mp hk with rfl | rfl
      · exact hi
      · exact hj.trans hi

theorem mark_comm (t : PairMarks) (i j : Nat) : t.mark i j = t.mark j i := by
  rw [mark, mark, offset_comm]
  simp only [eq_comm]

/-- Marking a pair marks this pair only, in whatever order numbers are given. -/
theorem isMarked_mark_iff (ht : t.Fits n) (hi : i < n) (hj : j < n) (hne : i ≠ j) (i' j' : Nat) :
    (t.mark i j).isMarked i' j' = true ↔ t.isMarked i' j' = true ∨ s(i', j') = s(i, j) := by
  have hordered : ∀ {i j}, j < i → i < n →
      ((t.mark i j).isMarked i' j' = true ↔ t.isMarked i' j' = true ∨ s(i', j') = s(i, j)) := by
    intro i j hj hi
    rw [Sym2.eq_iff]
    rcases Nat.lt_trichotomy j' i' with h | rfl | h
    · have hswap : ¬ (i' = j ∧ j' = i) := by omega
      rw [isMarked_mark ht hj hi h, or_iff_left hswap]
    · have hpair : ¬ ((j' = i ∧ j' = j) ∨ (j' = j ∧ j' = i)) := by omega
      rw [isMarked_self, isMarked_self, or_iff_left hpair]
    · have hsame : ¬ (i' = i ∧ j' = j) := by omega
      rw [isMarked_comm, isMarked_mark ht hj hi h, isMarked_comm t, or_iff_right hsame, and_comm]
  rcases Nat.lt_or_gt_of_ne hne with h | h
  · rw [mark_comm, Sym2.eq_swap (a := i)]
    exact hordered h hj
  · exact hordered h hi

/-- A table for the numbers below `n` has one cell for each unordered pair of distinct ones. -/
structure OneCellEach (n : Nat) : Prop where
  /-- The number of a row that is read is not zero, so that it has a predecessor. -/
  larger_pos : ∀ i j, i ≠ j → 0 < max i j
  cell_mk : ∀ i j, cell s(i, j) = max i j * (max i j - 1) / 2 + min i j
  bijOn_cell : Set.BijOn cell {z | ¬ z.IsDiag ∧ ∀ i ∈ z, i < n} (Set.Iio (n * (n - 1) / 2))
  size_blank : (blank n).cells.size = n * (n - 1) / 2
  size_mark : ∀ t : PairMarks, ∀ i j, (t.mark i j).cells.size = t.cells.size
  isMarked_mark_iff : ∀ t : PairMarks, t.cells.size = n * (n - 1) / 2 →
    ∀ i < n, ∀ j < n, i ≠ j → ∀ i' j', (t.mark i j).isMarked i' j' = true ↔
      t.isMarked i' j' = true ∨ s(i', j') = s(i, j)
  /-- A number and itself are no pair. -/
  isMarked_self : ∀ t : PairMarks, ∀ i, t.isMarked i i = false ∧ t.mark i i = t

theorem oneCellEach (n : Nat) : OneCellEach n where
  larger_pos i j h := by omega
  cell_mk i j := rfl
  bijOn_cell := bijOn_cell n
  size_blank := fits_blank n
  size_mark t i j := by
    rw [mark]
    split
    · rfl
    · exact Array.size_setIfInBounds
  isMarked_mark_iff t ht i hi j hj hne := isMarked_mark_iff ht hi hj hne
  isMarked_self t i := ⟨t.isMarked_self i, by rw [mark, if_pos rfl]⟩

end PairMarks

/-! ## The loop -/

namespace Profile

variable {β : Type} [DecidableEq β] {S : System β} {items : List β} {letters : List Letter}
  {t t' : PairMarks} {counts : List Nat}

/-- Passes are repeated until one marks nothing: what they make of a table, and how many pairs each of
them marks. -/
inductive Repeats (profiles : Array Profile) : PairMarks → PairMarks → List Nat → Prop where
  | last {t : PairMarks} : (pass profiles t).2 = 0 → Repeats profiles t (pass profiles t).1 [0]
  | next {t t' : PairMarks} {counts : List Nat} : (pass profiles t).2 ≠ 0 →
      Repeats profiles (pass profiles t).1 t' counts →
      Repeats profiles t t' ((pass profiles t).2 :: counts)

/-- **With more budget than unmarked cells, the loop comes to its end.** -/
theorem repeats_passes {budget : Nat} (ht : t.Fits items.length) (hbudget : t.unmarked < budget) :
    Repeats (ofItems S items letters) t (passes (ofItems S items letters) budget t).1
      (passes (ofItems S items letters) budget t).2 := by
  induction budget generalizing t with
  | zero => exact absurd hbudget (Nat.not_lt_zero _)
  | succ budget ih =>
    obtain ⟨hfits, hcount⟩ := pass_spec S letters ht
    rw [passes]
    dsimp only
    split_ifs with hzero
    · exact .last hzero
    · exact .next hzero (ih hfits (by omega))

namespace Repeats

/-- All passes but the last mark something. -/
theorem exists_counts_eq {profiles : Array Profile} (h : Repeats profiles t t' counts) :
    ∃ marking, counts = marking ++ [0] ∧ ∀ k ∈ marking, 0 < k := by
  induction h with
  | last _ => exact ⟨[], rfl, fun k hk => absurd hk List.not_mem_nil⟩
  | next hne _ ih =>
    obtain ⟨marking, rfl, hpos⟩ := ih
    exact ⟨_ :: marking, rfl, List.forall_mem_cons.mpr ⟨Nat.pos_of_ne_zero hne, hpos⟩⟩

/-- The passes count the pairs they mark. -/
theorem unmarked_add_sum (h : Repeats (ofItems S items letters) t t' counts)
    (ht : t.Fits items.length) : t'.Fits items.length ∧ t'.unmarked + counts.sum = t.unmarked := by
  induction h with
  | last hzero =>
    obtain ⟨hfits, hcount⟩ := pass_spec S letters ht
    rw [hzero] at hcount
    exact ⟨hfits, hcount⟩
  | next _ _ ih =>
    obtain ⟨hfits, hcount⟩ := pass_spec S letters ht
    obtain ⟨hfits', hsum⟩ := ih hfits
    rw [List.sum_cons]
    exact ⟨hfits', by omega⟩

/-- **There are no more passes that mark something than there are cells.** -/
theorem length_le (h : Repeats (ofItems S items letters) t t' counts) (ht : t.Fits items.length) :
    counts.length ≤ PairMarks.pairCount items.length + 1 := by
  obtain ⟨marking, rfl, hpos⟩ := h.exists_counts_eq
  obtain ⟨-, hsum⟩ := h.unmarked_add_sum ht
  have hlength := List.length_le_sum_of_one_le marking hpos
  have hcells := ht.unmarked_le
  rw [List.sum_append] at hsum
  rw [List.length_append, List.length_singleton]
  omega

end Repeats

end Profile

/-! ## States that are not told apart -/

namespace Automaton

variable {a : Automaton} {p q r : StateId} {states : List StateId} {t : PairMarks} {i j : Nat}

/-- A table has no reason to tell two states apart. -/
structure Alike (a : Automaton) (states : List StateId) (t : PairMarks) (q r : StateId) : Prop where
  isExit_iff : a.IsExit q ↔ a.IsExit r
  /-- Each letter leads from both nowhere, or to states that are not told apart.  These may be the
  same state, since a number and itself are never marked. -/
  targets : ∀ l, ((∀ q', ¬ a.HasArc q l q') ∧ ∀ r', ¬ a.HasArc r l r') ∨
    ∃ i j q' r', a.HasArc q l q' ∧ a.HasArc r l r' ∧ states[i]? = some q' ∧ states[j]? = some r' ∧
      t.isMarked i j = false

/-- States with equal outcomes are alike. -/
theorem alike_of_outcome_eq (hq : a.FunctionalAt q) (hr : a.FunctionalAt r)
    (hclosed : ∀ {q l r}, q ∈ states → a.system.step q l = some r → r ∈ states)
    (ht : ∀ i j q r, states[i]? = some q → states[j]? = some r →
      a.system.outcome q = a.system.outcome r → t.isMarked i j = false)
    (hq_mem : q ∈ states) (hr_mem : r ∈ states)
    (houtcome : a.system.outcome q = a.system.outcome r) : a.Alike states t q r := by
  constructor
  · rw [← system_isExit_iff, ← system_isExit_iff, ← System.isExit_outcome, houtcome,
      System.isExit_outcome]
  · intro l
    have hstep : (a.system.step q l).map a.system.outcome =
        (a.system.step r l).map a.system.outcome := by
      rw [← System.step_outcome, houtcome, System.step_outcome]
    cases hq' : a.system.step q l with
    | none =>
      cases hr' : a.system.step r l with
      | none =>
        refine Or.inl ⟨fun q' harc => ?_, fun r' harc => ?_⟩
        · rw [← system_step_iff hq, hq'] at harc
          cases harc
        · rw [← system_step_iff hr, hr'] at harc
          cases harc
      | some r' =>
        rw [hq', hr'] at hstep
        cases hstep
    | some q' =>
      cases hr' : a.system.step r l with
      | none =>
        rw [hq', hr'] at hstep
        cases hstep
      | some r' =>
        rw [hq', hr', Option.map_some, Option.map_some, Option.some.injEq] at hstep
        have hi := List.getElem?_idxOf (hclosed hq_mem hq')
        have hj := List.getElem?_idxOf (hclosed hr_mem hr')
        exact Or.inr ⟨_, _, q', r', (system_step_iff hq).mp hq', (system_step_iff hr).mp hr', hi, hj,
          ht _ _ q' r' hi hj hstep⟩

/-- What the loop of passes leaves of the table of some states, with the number of pairs that each
pass marked. -/
structure Settled (a : Automaton) (states : List StateId) (profiles : Array Profile) (t : PairMarks)
    (counts : List Nat) : Prop where
  size_eq : profiles.size = states.length
  /-- Every target that is looked up is one of the numbers that the table is for. -/
  targets : ∀ x ∈ profiles, x.targets.length = a.alphabet.size ∧
    ∀ k, some k ∈ x.targets → k < states.length
  repeats : Profile.Repeats profiles (Profile.exitTable profiles) t counts
  fits : t.Fits states.length
  length_le : counts.length ≤ states.length * (states.length - 1) / 2 + 1
  exists_counts_eq : ∃ marking, counts = marking ++ [0] ∧ ∀ k ∈ marking, 0 < k
  unmarked_add_sum : t.unmarked + counts.sum = (Profile.exitTable profiles).unmarked
  alike : ∀ i j q r, states[i]? = some q → states[j]? = some r → t.isMarked i j = false →
    a.Alike states t q r

/-- **Filling the table of states settles it.** -/
theorem settled_fillTable (hfun : ∀ q ∈ states, a.FunctionalAt q)
    (hstep : ∀ {q l r}, q ∈ states → a.system.step q l = some r →
      r ∈ states ∧ l ∈ a.alphabet.toList) :
    a.Settled states (Profile.ofItems a.system states a.alphabet.toList)
      (Profile.fillTable (Profile.ofItems a.system states a.alphabet.toList)).1
      (Profile.fillTable (Profile.ofItems a.system states a.alphabet.toList)).2 := by
  have hsize := Profile.size_ofItems a.system states a.alphabet.toList
  obtain ⟨hfirst, -⟩ := Profile.exitTable_spec a.system states a.alphabet.toList
  have hrepeats : Profile.Repeats (Profile.ofItems a.system states a.alphabet.toList)
      (Profile.exitTable (Profile.ofItems a.system states a.alphabet.toList))
      (Profile.fillTable (Profile.ofItems a.system states a.alphabet.toList)).1
      (Profile.fillTable (Profile.ofItems a.system states a.alphabet.toList)).2 := by
    refine Profile.repeats_passes hfirst ?_
    rw [hsize]
    exact Nat.lt_succ_of_le hfirst.unmarked_le
  obtain ⟨hfits, hsum⟩ := hrepeats.unmarked_add_sum hfirst
  have hmarks : ∀ i j q r, states[i]? = some q → states[j]? = some r →
      ((Profile.fillTable (Profile.ofItems a.system states a.alphabet.toList)).1.isMarked i j = false ↔
        a.system.outcome q = a.system.outcome r) := fun i j q r hq hr =>
    Profile.fillTable_spec (fun hq hr => (hstep hq hr).1) (fun hq hr => (hstep hq hr).2) hq hr
  refine ⟨hsize, fun x hx => ?_, hrepeats, hfits, hrepeats.length_le hfirst,
    hrepeats.exists_counts_eq, hsum, fun i j q r hq hr hmarked => ?_⟩
  · obtain ⟨q, hq, rfl⟩ : ∃ q ∈ states,
        Profile.ofItem a.system states a.alphabet.toList q = x := by
      simpa [Profile.ofItems] using hx
    refine ⟨List.length_map _, fun k hk => ?_⟩
    obtain ⟨l, -, hl⟩ := List.mem_map.mp hk
    obtain ⟨r, hr, rfl⟩ := Option.map_eq_some_iff.mp hl
    exact List.idxOf_lt_length_of_mem (hstep hq hr).1
  · have hq_mem := List.mem_of_getElem? hq
    have hr_mem := List.mem_of_getElem? hr
    exact alike_of_outcome_eq (hfun q hq_mem) (hfun r hr_mem) (fun hq hr => (hstep hq hr).1)
      (fun i j q r hq hr => (hmarks i j q r hq hr).mpr) hq_mem hr_mem
      ((hmarks i j q r hq hr).mp hmarked)

/-- **The table has one cell for each pair, and filling it comes to an end.**  For all numbers, the
unordered pairs of distinct ones below it and the cells of a table correspond one to one, and marking
a pair marks no other one.  For an automaton whose reachable states have one target at most on each
letter, the loop of passes ends, after one pass more than there are cells at most, and all passes but
the last mark something.  Two states that are not told apart then are both exits or none, and on each
letter they lead nowhere, or to states that are not told apart either.  From this table the partition
is made, if there are at least two states. -/
theorem table_settles :
    (∀ n, PairMarks.OneCellEach n) ∧
    ∀ (a : Automaton) (p : StateId), a.Built → a.entry = some p →
      (∀ q, a.Reachable q → a.FunctionalAt q) →
      ∃ reached profiles, a.soleReachable = .ok reached ∧ (∀ q, q ∈ reached ↔ a.Reachable q) ∧
        a.profiles reached.toList reached.toList = .ok profiles ∧
        a.Settled reached.toList profiles.toArray (Profile.fillTable profiles.toArray).1
          (Profile.fillTable profiles.toArray).2 ∧
        (2 ≤ reached.size → a.partition =
          .ok ⟨unmarkedClasses reached.toList (Profile.fillTable profiles.toArray).1,
            (Profile.fillTable profiles.toArray).2⟩) := by
  refine ⟨PairMarks.oneCellEach, fun a p ha hentry hfun => ?_⟩
  have hwf := ha.wellFormed
  obtain ⟨reached, hreached, hmem⟩ := exists_soleReachable hwf hentry hfun
  obtain ⟨hprofiles, hstep⟩ := profiles_reached hwf hfun hmem
  refine ⟨reached, _, hreached, hmem, hprofiles,
    settled_fillTable (fun q hq => hfun q ((hmem q).mp hq)) hstep, fun hsize => ?_⟩
  simp only [partition, hreached, if_neg (Nat.not_lt.mpr hsize), hprofiles, Except.map]

/-- One letter leads along four states to the only exit. -/
def straightLine : Automaton where
  origin := 0
  alphabet := .singleton (.char 'a')
  states := #[
    ⟨⟨0, 0⟩, true, false, .singleton ⟨.char 'a', ⟨1, 0⟩⟩⟩,
    ⟨⟨1, 0⟩, false, false, .singleton ⟨.char 'a', ⟨2, 0⟩⟩⟩,
    ⟨⟨2, 0⟩, false, false, .singleton ⟨.char 'a', ⟨3, 0⟩⟩⟩,
    ⟨⟨3, 0⟩, false, true, ∅⟩]
  entry := some ⟨0, 0⟩

theorem built_straightLine : straightLine.Built := by
  have h : (empty 0 (.singleton (.char 'a'))).addState.addState.addState.addState.Built :=
    .addState (.addState (.addState (.addState (.empty _ _))))
  have h₁ := Built.addArc (p := ⟨0, 0⟩) (l := .char 'a') (q := ⟨1, 0⟩) h rfl
  have h₂ := Built.addArc (p := ⟨1, 0⟩) (l := .char 'a') (q := ⟨2, 0⟩) h₁ rfl
  have h₃ := Built.addArc (p := ⟨2, 0⟩) (l := .char 'a') (q := ⟨3, 0⟩) h₂ rfl
  have h₄ := Built.setExit (q := ⟨3, 0⟩) h₃ rfl
  exact .setEntry (q := ⟨0, 0⟩) h₄ rfl

/-- In the first pass the entry and the state after it cannot be told apart yet, as the next two states
are only told apart later in this pass. -/
theorem table_settles_straightLine :
    ∃ P, straightLine.partition = .ok P ∧ P.passes = [2, 1, 0] ∧
      ∃ (reached : OrderedSet StateId) (profiles : List Profile),
        straightLine.profiles reached.toList reached.toList = .ok profiles ∧
        straightLine.Settled reached.toList profiles.toArray
          (Profile.fillTable profiles.toArray).1 [2, 1, 0] := by
  have hP : straightLine.partition = .ok ⟨[.singleton ⟨0, 0⟩, .singleton ⟨1, 0⟩, .singleton ⟨2, 0⟩,
      .singleton ⟨3, 0⟩], [2, 1, 0]⟩ := by rfl
  obtain ⟨p, hentry, hfun, -⟩ := outcomeClasses_of_partition built_straightLine.wellFormed hP
  obtain ⟨reached, profiles, hreached, -, hprofiles, hsettled, hpartition⟩ :=
    table_settles.2 straightLine p built_straightLine hentry hfun
  have hreachable : straightLine.soleReachable =
      .ok (.ofList [⟨0, 0⟩, ⟨1, 0⟩, ⟨2, 0⟩, ⟨3, 0⟩]) := by rfl
  rw [hreachable] at hreached
  cases hreached
  have hpasses := hpartition (by decide)
  rw [hP, Except.ok.injEq, Partition.mk.injEq] at hpasses
  rw [← hpasses.2] at hsettled
  exact ⟨_, hP, rfl, _, profiles, hprofiles, hsettled⟩

end Automaton

end PatternAutomata
