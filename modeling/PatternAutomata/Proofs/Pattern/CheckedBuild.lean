import PatternAutomata.Proofs.Pattern.BuildErrors

/-!
# Building a tree stays within the tokens

Whatever the tokens are, building a tree reads none that is not there, asks for no range that is
empty or ends behind the tokens, subtracts one from no number that is zero, and always goes on with
less than it had.

`Checked` builds trees in the same way, but `require`s all this of every operation with indices, and
refuses an operation otherwise.  Nothing goes on after a refusal, so a result that is none shows that
whatever was done was as required.  The checks also are what makes these functions come to an end:
that less is left is not known in advance, but found out before going on.

* `agrees_build`: within the tokens nothing is refused, and the results are the same.
* `ofTokens_stays_within`: so this holds of all lists of tokens, balanced or not.
-/

namespace PatternAutomata

namespace Checked

variable {α : Type} {tokens : Array Token} {start stop i index close depth : Nat}
  {t : Token} {o : Operator} {chosen : Option (Nat × Operator)}

/-! ## Operations -/

/-- What is done with indices. -/
inductive Operation where
  /-- The tree of a range is asked for. -/
  | call (start stop : Nat)
  /-- The range inside of a group takes the place of the group. -/
  | restart (start stop : Nat)
  /-- From `before` tokens, the construction goes on to `after` tokens. -/
  | descend (before after : Nat)
  | read (i : Nat)
  /-- All tokens of a range are taken. -/
  | slice (start stop : Nat)
  /-- One is subtracted from a number. -/
  | decrement (n : Nat)
  deriving DecidableEq

/-- Why a checked construction ends without a tree. -/
inductive Halt where
  /-- The tokens are malformed. -/
  | rejected (e : PatternError)
  /-- What an operation requires does not hold. -/
  | refused (op : Operation)
  deriving DecidableEq

/-- Goes on if what an operation requires holds. -/
def require (p : Prop) [Decidable p] (op : Operation) (next : p → Except Halt α) : Except Halt α :=
  if h : p then next h else .error (.refused op)

theorem require_of {p : Prop} [Decidable p] {op : Operation} {next : p → Except Halt α} (h : p) :
    require p op next = next h := dif_pos h

/-- Subtracts one. -/
def decrement (n : Nat) (next : Nat → Except Halt α) : Except Halt α :=
  require (0 < n) (.decrement n) fun _ => next (n - 1)

/-- Reads the token at an index. -/
def read (tokens : Array Token) (i : Nat) (next : Token → Except Halt α) : Except Halt α :=
  require (i < tokens.size) (.read i) fun _ => next tokens[i]

/-- Takes the tokens of a range. -/
def slice (tokens : Array Token) (start stop : Nat) (next : List Token → Except Halt α) :
    Except Halt α :=
  require (start ≤ stop ∧ stop ≤ tokens.size) (.slice start stop) fun _ =>
    next (tokens.extract start stop).toList

/-- Goes on from `before` tokens to fewer. -/
def descend (before after : Nat) (next : after < before → Except Halt α) : Except Halt α :=
  require (after < before) (.descend before after) next

/-- Calls for the tree of a range. -/
def call (tokens : Array Token) (start stop : Nat) (next : Except Halt α) : Except Halt α :=
  require (start < stop ∧ stop ≤ tokens.size) (.call start stop) fun _ => next

/-- Starts over with a range, which may be empty. -/
def restart (tokens : Array Token) (start stop : Nat) (next : Except Halt α) : Except Halt α :=
  require (start ≤ stop ∧ stop ≤ tokens.size) (.restart start stop) fun _ => next

theorem read_of_getElem? {next : Token → Except Halt α} (ht : tokens[i]? = some t) :
    read tokens i next = next t := by
  obtain ⟨hi, rfl⟩ := Array.getElem?_eq_some_iff.mp ht
  exact require_of hi

/-- Rejects a range at the token with an index, if there is one. -/
def reject (tokens : Array Token) (cause : PatternError.Cause) (index : Nat) : Halt :=
  .rejected ⟨cause, (tokens[index]?.map Token.position).getD 0⟩

/-! ## Building -/

/-- The index, from `i` on and before `stop`, of the parenthesis that closes the last of the groups
that are open, of which there are `depth` before `i`. -/
def closingIndex (tokens : Array Token) (stop i depth : Nat) : Except Halt (Option Nat) :=
  if i < stop then
    read tokens i fun t =>
      match t.symbol with
      | .opening => closingIndex tokens stop (i + 1) (depth + 1)
      | .closing =>
        decrement depth fun depth =>
          if depth = 0 then .ok (some i) else closingIndex tokens stop (i + 1) depth
      | .operator _ | .literal _ => closingIndex tokens stop (i + 1) depth
  else
    .ok none
termination_by stop - i

/-- Whether an index is the last one before `stop`, looked into only if it is `relevant`. -/
def isLast (relevant : Bool) (index stop : Nat) : Except Halt Bool :=
  if relevant then decrement stop fun last => .ok (index == last) else .ok false

/-- Walks over the top level of the range `start..stop`, from `i` on. -/
def scan (tokens : Array Token) (start stop i : Nat) (chosen : Option (Nat × Operator)) :
    Except Halt Shape :=
  if i < stop then
    read tokens i fun t =>
      match t.symbol with
      | .opening =>
        -- the search begins at the opening parenthesis itself
        match closingIndex tokens stop i 0 with
        | .error e => .error e
        | .ok none => .error (reject tokens .unmatchedParenthesis i)
        | .ok (some close) =>
          match isLast (i == start) close stop with
          | .error e => .error e
          | .ok true => .ok (.group close)
          | .ok false =>
            descend (stop - i) (stop - (close + 1)) fun _ =>
              scan tokens start stop (close + 1) chosen
      | .closing => .error (reject tokens .unmatchedParenthesis i)
      | .operator o =>
        scan tokens start stop (i + 1)
          (if o.outranks (chosen.map Prod.snd) then some (i, o) else chosen)
      | .literal _ => scan tokens start stop (i + 1) chosen
  else
    match chosen with
    | some (index, o) => .ok (.split index o)
    | none => .ok .operand
termination_by stop - i

/-- Reads a range without an operator. -/
def operand (tokens : Array Token) (start stop : Nat) : Except Halt SyntaxTree :=
  slice tokens start stop fun
    | [t] =>
      match t.symbol with
      | .literal c => .ok (.leaf c)
      | .operator o => .error (reject tokens (.missingOperand o) start)
      | .opening | .closing => .error (reject tokens .unmatchedParenthesis start)
    | _ => .error (reject tokens .unconnected start)

/-- Builds the tree of the range `start..stop`. -/
def build (tokens : Array Token) (start stop : Nat) : Except Halt SyntaxTree :=
  match scan tokens start stop start none with
  | .error e => .error e
  | .ok (.group _) =>
    decrement stop fun last =>
      restart tokens (start + 1) last <| descend (stop - start) (last - (start + 1)) fun _ =>
        build tokens (start + 1) last
  | .ok .operand => operand tokens start stop
  | .ok (.split index o) =>
    match isLast o.isUnary index stop with
    | .error e => .error e
    | .ok last =>
      if o.isUnary && !last then .error (reject tokens (.misplacedPostfix o) index)
      else if index = start then .error (reject tokens (.missingOperand o) index)
      else
        call tokens start index <| descend (stop - start) (index - start) fun _ =>
          match build tokens start index with
          | .error e => .error e
          | .ok left =>
            if o.isUnary then .ok (.node o [left])
            else if index + 1 = stop then .error (reject tokens (.missingOperand o) index)
            else
              call tokens (index + 1) stop <| descend (stop - start) (stop - (index + 1)) fun _ =>
                match build tokens (index + 1) stop with
                | .error e => .error e
                | .ok right => .ok (.node o [left, right])
termination_by stop - start

/-- Builds the tree of a list of tokens. -/
def ofTokens (tokens : List Token) : Except Halt SyntaxTree :=
  if tokens = [] then .ok .empty
  else call tokens.toArray 0 tokens.length (build tokens.toArray 0 tokens.length)

/-! ## Nothing is refused -/

/-- A checked construction has the result of the construction without checks, and neither of them
leaves the tokens. -/
inductive Agrees : Except Halt α → Except BuildError α → Prop
  | ok (x : α) : Agrees (.ok x) (.ok x)
  | rejected (e : PatternError) : Agrees (.error (.rejected e)) (.error (.rejected e))

theorem Agrees.of_ok {r : Except Halt α} {s : Except BuildError α} {x : α} (h : Agrees r s)
    (hs : s = .ok x) : r = .ok x := by
  subst hs
  cases h
  rfl

theorem Agrees.of_error {r : Except Halt α} {s : Except BuildError α} {e : BuildError}
    (h : Agrees r s) (hs : s = .error e) : ∃ e', e = .rejected e' ∧ r = .error (.rejected e') := by
  subst hs
  cases h
  exact ⟨_, rfl, rfl⟩

theorem agrees_reject (cause : PatternError.Cause) (index : Nat) :
    Agrees (.error (reject tokens cause index) : Except Halt α)
      (.error (PatternAutomata.reject tokens cause index)) :=
  .rejected _

/-- The search begins at the parenthesis that opens the group, so that one more group is open. -/
theorem agrees_closingIndex {n : Nat} (hi : i ≤ stop) (hstop : stop ≤ tokens.size) :
    Agrees (closingIndex tokens stop i (n + 1))
      (PatternAutomata.closingIndex tokens stop i n) := by
  fun_induction PatternAutomata.closingIndex tokens stop i n with
  | case1 i depth hlt hnone =>
    have := Array.getElem?_eq_none_iff.mp hnone
    omega
  | case2 i depth hlt t ht hsymbol ih =>
    rw [closingIndex, if_pos hlt, read_of_getElem? ht, hsymbol]
    exact ih hlt
  | case3 i hlt t ht hsymbol =>
    rw [closingIndex, if_pos hlt, read_of_getElem? ht, hsymbol]
    exact .ok _
  | case4 i hlt t ht hsymbol depth ih =>
    rw [closingIndex, if_pos hlt, read_of_getElem? ht, hsymbol]
    exact ih hlt
  | case5 i depth hlt t ht _ hsymbol ih | case6 i depth hlt t ht _ hsymbol ih =>
    rw [closingIndex, if_pos hlt, read_of_getElem? ht, hsymbol]
    exact ih hlt
  | case7 i depth hge =>
    rw [closingIndex, if_neg hge]
    exact .ok _

theorem closingIndex_opening (hi : i < stop) (ht : tokens[i]? = some t)
    (hsymbol : t.symbol = .opening) :
    closingIndex tokens stop i 0 = closingIndex tokens stop (i + 1) 1 := by
  rw [closingIndex, if_pos hi, read_of_getElem? ht, hsymbol]

theorem isLast_eq (relevant : Bool) (index : Nat) (hstop : 0 < stop) :
    isLast relevant index stop = .ok (relevant && decide (index + 1 = stop)) := by
  cases relevant with
  | false => rfl
  | true =>
    have hlast : (index == stop - 1) = decide (index + 1 = stop) := by
      rw [Bool.eq_iff_iff, beq_iff_eq, decide_eq_true_iff]
      omega
    rw [isLast, if_pos rfl, decrement, require_of hstop, hlast, Bool.true_and]

theorem agrees_scan (hi : i ≤ stop) (hstop : stop ≤ tokens.size) :
    Agrees (scan tokens start stop i chosen)
      (PatternAutomata.scan tokens start stop i chosen) := by
  have hclosing := fun i (hi : i < stop) => agrees_closingIndex (i := i + 1) (n := 0) hi hstop
  fun_induction PatternAutomata.scan tokens start stop i chosen with
    unfold scan
  | case1 i chosen hlt hnone =>
    have := Array.getElem?_eq_none_iff.mp hnone
    omega
  | case2 i chosen hlt t ht hsymbol e hclose =>
    obtain ⟨e', rfl, he⟩ := (hclosing i hlt).of_error hclose
    rw [if_pos hlt, read_of_getElem? ht, hsymbol]
    simp only [closingIndex_opening hlt ht hsymbol, he]
    exact .rejected e'
  | case3 i chosen hlt t ht hsymbol hclose =>
    rw [if_pos hlt, read_of_getElem? ht, hsymbol]
    simp only [closingIndex_opening hlt ht hsymbol, (hclosing i hlt).of_ok hclose]
    rw [reject, ht]
    exact .rejected _
  | case4 i chosen hlt t ht hsymbol close hclose hgroup =>
    obtain ⟨rfl, rfl⟩ := hgroup
    rw [if_pos hlt, read_of_getElem? ht, hsymbol]
    simp only [closingIndex_opening hlt ht hsymbol, (hclosing i hlt).of_ok hclose,
      isLast_eq _ close (Nat.succ_pos close), BEq.rfl, decide_true, Bool.and_self]
    exact .ok _
  | case5 i chosen hlt t ht hsymbol close hclose hgroup hadvance ih =>
    have hlast : (i == start && decide (close + 1 = stop)) = false := by
      simpa using hgroup
    have hbounds := bounds_of_closingIndex hclose
    have hless : stop - (close + 1) < stop - i := by omega
    rw [if_pos hlt, read_of_getElem? ht, hsymbol]
    simp only [closingIndex_opening hlt ht hsymbol, (hclosing i hlt).of_ok hclose,
      isLast_eq _ close (Nat.zero_lt_of_lt hlt), hlast]
    rw [descend, require_of hless]
    exact ih hbounds.2
  | case6 i chosen hlt t ht hsymbol =>
    rw [if_pos hlt, read_of_getElem? ht, hsymbol]
    simp only [reject, ht]
    exact .rejected _
  | case7 i chosen hlt t ht _ hsymbol ih | case8 i chosen hlt t ht _ hsymbol ih =>
    rw [if_pos hlt, read_of_getElem? ht, hsymbol]
    exact ih hlt
  | case9 i hge | case10 i hge =>
    rw [if_neg hge]
    exact .ok _

theorem scan_of_ok {shape : Shape} (hstart : start ≤ stop) (hstop : stop ≤ tokens.size)
    (h : PatternAutomata.scan tokens start stop start none = .ok shape) :
    scan tokens start stop start none = .ok shape := (agrees_scan hstart hstop).of_ok h

theorem agrees_operand (hstart : start ≤ stop) (hstop : stop ≤ tokens.size) :
    Agrees (operand tokens start stop) (PatternAutomata.operand tokens start stop) := by
  rw [operand, slice, require_of ⟨hstart, hstop⟩]
  by_cases hone : start + 1 = stop
  · subst hone
    obtain ⟨t, ht⟩ : ∃ t, tokens[start]? = some t := ⟨_, Array.getElem?_eq_getElem hstop⟩
    have hextract : (tokens.extract start (start + 1)).toList = [t] := by
      obtain ⟨h, rfl⟩ := Array.getElem?_eq_some_iff.mp ht
      rw [Array.toList_extract, List.extract_eq_take_drop, Nat.add_sub_cancel_left,
        List.take_one_drop_eq_of_lt_length]
      rfl
    rw [hextract, PatternAutomata.operand, if_pos rfl, ht]
    simp only
    cases t.symbol with
    | literal c => exact .ok _
    | operator o => exact agrees_reject _ _
    | opening | closing => exact agrees_reject _ _
  · rw [PatternAutomata.operand, if_neg hone]
    have hlength : (tokens.extract start stop).toList.length ≠ 1 := by
      rw [Array.length_toList, Array.size_extract]
      omega
    generalize (tokens.extract start stop).toList = taken at hlength ⊢
    rcases taken with _ | ⟨t, _ | ⟨t', rest⟩⟩
    · exact agrees_reject _ _
    · exact absurd rfl hlength
    · exact agrees_reject _ _

theorem misplaced_iff :
    (o.isUnary && !(o.isUnary && decide (index + 1 = stop))) = true ↔
      o.isUnary = true ∧ index + 1 ≠ stop := by
  cases o.isUnary <;> simp

/-- A range that is split at an operator inside of it, or at its end. -/
theorem build_split (hscan : PatternAutomata.scan tokens start stop start none = .ok (.split index o))
    (hplaced : ¬ (o.isUnary = true ∧ index + 1 ≠ stop)) (hne : index ≠ start)
    (hstart : start ≤ stop) (hstop : stop ≤ tokens.size) :
    build tokens start stop =
      match build tokens start index with
      | .error e => .error e
      | .ok left =>
        if o.isUnary then .ok (.node o [left])
        else if index + 1 = stop then .error (reject tokens (.missingOperand o) index)
        else
          match build tokens (index + 1) stop with
          | .error e => .error e
          | .ok right => .ok (.node o [left, right]) := by
  obtain ⟨hle, hlt⟩ := bounds_of_scan_split (Nat.le_refl start) (by simp) hscan
  have hleft : start < index ∧ index ≤ tokens.size := by omega
  have hless : index - start < stop - start := by omega
  conv_lhs => unfold build
  simp only [scan_of_ok hstart hstop hscan, isLast_eq _ index (Nat.zero_lt_of_lt hlt)]
  rw [if_neg (misplaced_iff.not.mpr hplaced), if_neg hne, call, require_of hleft, descend,
    require_of hless]
  by_cases hend : index + 1 = stop
  · simp only [if_pos hend]
  · have hright : index + 1 < stop ∧ stop ≤ tokens.size := by omega
    have hless' : stop - (index + 1) < stop - start := by omega
    simp only [if_neg hend, call, require_of hright, descend, require_of hless']

/-- **Within the tokens nothing is refused.** -/
theorem agrees_build (hstart : start ≤ stop) (hstop : stop ≤ tokens.size) :
    Agrees (build tokens start stop) (PatternAutomata.build tokens start stop) := by
  fun_induction PatternAutomata.build tokens start stop with
  | case1 start stop e hscan =>
    obtain ⟨e', rfl, he⟩ := (agrees_scan hstart hstop).of_error hscan
    unfold build
    simp only [he]
    exact .rejected e'
  | case2 start stop close hscan hbounds ih =>
    obtain rfl := close_of_scan_group hscan
    have hinside : start + 1 ≤ close ∧ close ≤ tokens.size := by omega
    have hless : close - (start + 1) < close + 1 - start := by omega
    unfold build
    simp only [scan_of_ok hstart hstop hscan]
    rw [decrement, require_of (Nat.succ_pos close), Nat.add_sub_cancel, restart,
      require_of hinside, descend, require_of hless]
    exact ih hinside.1 hinside.2
  | case3 start stop hscan =>
    unfold build
    simp only [scan_of_ok hstart hstop hscan]
    exact agrees_operand hstart hstop
  | case4 start stop index o hscan hbounds hmisplaced =>
    unfold build
    simp only [scan_of_ok hstart hstop hscan, isLast_eq _ index (Nat.zero_lt_of_lt hbounds.2)]
    rw [if_pos (misplaced_iff.mpr hmisplaced)]
    exact agrees_reject _ _
  | case5 stop start o hplaced hscan hbounds =>
    unfold build
    simp only [scan_of_ok hstart hstop hscan, isLast_eq _ start (Nat.zero_lt_of_lt hbounds.2),
      if_true]
    rw [if_neg (misplaced_iff.not.mpr hplaced)]
    exact agrees_reject _ _
  | case6 start stop index o hscan hbounds hplaced hne e hleft ihl =>
    obtain ⟨e', rfl, he⟩ := (ihl hbounds.1 (by omega)).of_error hleft
    rw [build_split hscan hplaced hne hstart hstop, he]
    exact .rejected e'
  | case7 start stop index o hscan hbounds hplaced hne left hleft hunary ihl =>
    rw [build_split hscan hplaced hne hstart hstop, (ihl hbounds.1 (by omega)).of_ok hleft]
    simp only [if_pos hunary]
    exact .ok _
  | case8 start index o hne left hleft hunary hscan hbounds hplaced ihl =>
    rw [build_split hscan hplaced hne hstart hstop, (ihl hbounds.1 (by omega)).of_ok hleft]
    simp only [if_neg hunary, if_true]
    exact agrees_reject _ _
  | case9 start stop index o hscan hbounds hplaced hne left hleft hunary hne' e hright ihl ihr =>
    obtain ⟨e', rfl, he⟩ := (ihr hbounds.2 hstop).of_error hright
    rw [build_split hscan hplaced hne hstart hstop, (ihl hbounds.1 (by omega)).of_ok hleft]
    simp only [if_neg hunary, if_neg hne', he]
    exact .rejected e'
  | case10 start stop index o hscan hbounds hplaced hne left hleft hunary hne' right hright ihl ihr =>
    rw [build_split hscan hplaced hne hstart hstop, (ihl hbounds.1 (by omega)).of_ok hleft]
    simp only [if_neg hunary, if_neg hne', (ihr hbounds.2 hstop).of_ok hright]
    exact .ok _

/-- Behind the tokens, what is read is refused. -/
example : build #[] 0 1 = .error (.refused (.read 0)) := by cbv

/-- **Building the tree of any tokens stays within them.**  With all checks, it ends as it does
without them: with a tree or a rejection, and no operation refused. -/
theorem ofTokens_stays_within (tokens : List Token) :
    ofTokens tokens = (SyntaxTree.ofTokens tokens).mapError Halt.rejected ∧
    (∀ op, ofTokens tokens ≠ .error (.refused op)) ∧
    ∀ i, PatternAutomata.build tokens.toArray 0 tokens.length ≠ .error (.outside i) := by
  have hsize : tokens.length ≤ tokens.toArray.size := List.size_toArray.ge
  have hagrees := agrees_build (Nat.zero_le tokens.length) hsize
  by_cases hnil : tokens = []
  · rw [ofTokens, SyntaxTree.ofTokens, if_pos hnil, if_pos hnil]
    refine ⟨rfl, by simp, fun i hi => ?_⟩
    obtain ⟨e, he, -⟩ := hagrees.of_error hi
    cases he
  · have hcall : 0 < tokens.length ∧ tokens.length ≤ tokens.toArray.size :=
      ⟨List.length_pos_of_ne_nil hnil, hsize⟩
    rw [ofTokens, SyntaxTree.ofTokens, if_neg hnil, if_neg hnil, call, require_of hcall]
    generalize build tokens.toArray 0 tokens.length = r at hagrees ⊢
    generalize PatternAutomata.build tokens.toArray 0 tokens.length = s at hagrees ⊢
    cases hagrees with
    | ok x => exact ⟨rfl, by simp, by simp⟩
    | rejected e => exact ⟨rfl, by simp, by simp⟩

end Checked

end PatternAutomata
