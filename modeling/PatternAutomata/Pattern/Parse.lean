import PatternAutomata.Pattern.Concatenation
import PatternAutomata.Pattern.Tree

/-!
# From tokens to a tree

The tree of a list of tokens is found by splitting ranges of it.  A range `start..stop` holds the
tokens from `start` up to, not including, `stop`.  `scan` walks over its top level, skipping every
group as a whole:

* a range that is one group from end to end is the range inside the group;
* otherwise the operator that is applied last splits the range: union before concatenation before
  star, the leftmost of several unions or concatenations, the last of several stars;
* a range without an operator on its top level has to be a single literal.

Tokens are read by index.  A read outside the tokens would be the outcome `BuildError.outside`,
kept apart from the rejections so that its absence can be stated.
-/

namespace PatternAutomata

/-- Why no tree is built. -/
inductive BuildError where
  /-- The tokens are malformed. -/
  | rejected (e : PatternError)
  /-- A token was asked for that is not there. -/
  | outside (index : Nat)
  deriving DecidableEq, Repr

namespace BuildError

/-- The rejection to report.  Reads outside of the tokens do not occur. -/
def toPatternError : BuildError → PatternError
  | .rejected e => e
  | .outside index => ⟨.unconnected, index⟩

end BuildError

/-- What the top level of a range turns out to be. -/
inductive Shape where
  /-- One group, which the token at `close` closes just before the end of the range. -/
  | group (close : Nat)
  /-- The operator at an index is applied last. -/
  | split (index : Nat) (o : Operator)
  /-- No operator. -/
  | operand
  deriving DecidableEq, Repr

/-- Whether an operator met later is applied after the one chosen so far.  Of equal operators the
first one is, except that of several stars the last one is. -/
def Operator.outranks (o : Operator) : Option Operator → Bool
  | none => true
  | some current =>
    if o.rank = current.rank then o.isUnary else o.rank > current.rank

/-- The index, from `i` on and before `stop`, of the closing parenthesis that closes a group in
which `depth` further groups are open at `i`. -/
def closingIndex (tokens : Array Token) (stop i depth : Nat) : Except BuildError (Option Nat) :=
  if i < stop then
    match tokens[i]? with
    | none => .error (.outside i)
    | some t =>
      match t.symbol with
      | .opening => closingIndex tokens stop (i + 1) (depth + 1)
      | .closing =>
        match depth with
        | 0 => .ok (some i)
        | depth + 1 => closingIndex tokens stop (i + 1) depth
      | .operator _ | .literal _ => closingIndex tokens stop (i + 1) depth
  else
    .ok none
termination_by stop - i

theorem bounds_of_closingIndex {tokens : Array Token} {stop i depth close : Nat}
    (h : closingIndex tokens stop i depth = .ok (some close)) : i ≤ close ∧ close < stop := by
  fun_induction closingIndex tokens stop i depth with
  | case1 | case7 => cases h
  -- the token that closes the group
  | case3 _ hlt =>
    cases h
    exact ⟨Nat.le_refl _, hlt⟩
  -- all others, whatever they do to the depth
  | case2 _ _ _ _ _ _ ih | case4 _ _ _ _ _ _ ih | case5 _ _ _ _ _ _ _ ih
  | case6 _ _ _ _ _ _ _ ih =>
    obtain ⟨hle, hstop⟩ := ih h
    exact ⟨Nat.le_of_succ_le hle, hstop⟩

/-- Walks over the top level of the range `start..stop`, from `i` on.  `chosen` is the operator that
is applied last among those met before `i`. -/
def scan (tokens : Array Token) (start stop i : Nat) (chosen : Option (Nat × Operator)) :
    Except BuildError Shape :=
  if i < stop then
    match tokens[i]? with
    | none => .error (.outside i)
    | some t =>
      match t.symbol with
      | .opening =>
        match h : closingIndex tokens stop (i + 1) 0 with
        | .error e => .error e
        | .ok none => .error (.rejected ⟨.unmatchedParenthesis, t.position⟩)
        | .ok (some close) =>
          if i = start ∧ close + 1 = stop then .ok (.group close)
          else
            have : i + 1 ≤ close := (bounds_of_closingIndex h).1
            scan tokens start stop (close + 1) chosen
      | .closing => .error (.rejected ⟨.unmatchedParenthesis, t.position⟩)
      | .operator o =>
        scan tokens start stop (i + 1)
          (if o.outranks (chosen.map Prod.snd) then some (i, o) else chosen)
      | .literal _ => scan tokens start stop (i + 1) chosen
  else
    match chosen with
    | some (index, o) => .ok (.split index o)
    | none => .ok .operand
termination_by stop - i

theorem bounds_of_scan_group {tokens : Array Token} {start stop i close : Nat}
    {chosen : Option (Nat × Operator)}
    (h : scan tokens start stop i chosen = .ok (.group close)) :
    start < close ∧ close < stop := by
  fun_induction scan tokens start stop i chosen with
  | case4 i chosen hi t _ _ close' hclose hgroup =>
    cases h
    obtain ⟨rfl, -⟩ := hgroup
    exact bounds_of_closingIndex hclose
  | case5 _ _ _ _ _ _ _ _ _ _ ih | case7 _ _ _ _ _ _ _ ih | case8 _ _ _ _ _ _ _ ih => exact ih h
  | _ => cases h

theorem bounds_of_scan_split {tokens : Array Token} {start stop i index : Nat} {o : Operator}
    {chosen : Option (Nat × Operator)} (hi : start ≤ i)
    (hchosen : ∀ c, chosen = some c → start ≤ c.1 ∧ c.1 < stop)
    (h : scan tokens start stop i chosen = .ok (.split index o)) :
    start ≤ index ∧ index < stop := by
  fun_induction scan tokens start stop i chosen with
  | case5 _ _ _ _ _ _ _ _ _ hle ih => exact ih (by omega) hchosen h
  -- an operator is chosen itself or leaves the choice as it is
  | case7 i chosen hlt _ _ o' _ ih =>
    refine ih (Nat.le_succ_of_le hi) (fun c hc => ?_) h
    by_cases houtranks : o'.outranks (chosen.map Prod.snd) = true
    · rw [dif_pos houtranks] at hc
      cases hc
      exact ⟨hi, hlt⟩
    · rw [dif_neg houtranks] at hc
      exact hchosen c hc
  | case8 _ _ _ _ _ _ _ ih => exact ih (Nat.le_succ_of_le hi) hchosen h
  | case9 =>
    cases h
    exact hchosen _ rfl
  | _ => cases h

/-- Rejects a range at the token with an index. -/
def reject (tokens : Array Token) (cause : PatternError.Cause) (index : Nat) : BuildError :=
  .rejected ⟨cause, (tokens[index]?.map Token.position).getD 0⟩

/-- Reads a range without an operator: a single literal is a leaf. -/
def operand (tokens : Array Token) (start stop : Nat) : Except BuildError SyntaxTree :=
  if start + 1 = stop then
    match tokens[start]? with
    | none => .error (.outside start)
    | some t =>
      match t.symbol with
      | .literal c => .ok (.leaf c)
      | .operator o => .error (reject tokens (.missingOperand o) start)
      | .opening | .closing => .error (reject tokens .unmatchedParenthesis start)
  else
    .error (reject tokens .unconnected start)

/-- Builds the tree of the range `start..stop`. -/
def build (tokens : Array Token) (start stop : Nat) : Except BuildError SyntaxTree :=
  match h : scan tokens start stop start none with
  | .error e => .error e
  | .ok (.group close) =>
    have := bounds_of_scan_group h
    build tokens (start + 1) close
  | .ok .operand => operand tokens start stop
  | .ok (.split index o) =>
    have := bounds_of_scan_split (Nat.le_refl start) (by simp) h
    if o.isUnary ∧ index + 1 ≠ stop then
      .error (reject tokens (.misplacedPostfix o) index)
    else if index = start then
      .error (reject tokens (.missingOperand o) index)
    else
      match build tokens start index with
      | .error e => .error e
      | .ok left =>
        if o.isUnary then .ok (.node o [left])
        else if index + 1 = stop then .error (reject tokens (.missingOperand o) index)
        else
          match build tokens (index + 1) stop with
          | .error e => .error e
          | .ok right => .ok (.node o [left, right])
termination_by stop - start

/-- The tree of a list of tokens.  No tokens at all are the empty pattern. -/
def SyntaxTree.ofTokens (tokens : List Token) : Except PatternError SyntaxTree :=
  if tokens = [] then .ok .empty
  else (build tokens.toArray 0 tokens.length).mapError BuildError.toPatternError

/-- Reads a pattern into the tokens its tree is built from. -/
def readTokens (pattern : List Char) : Except PatternError (List Token) :=
  if pattern = [] then .ok []
  else
    match tokenize pattern with
    | .error e => .error e
    | .ok tokens =>
      match prepare tokens with
      | .error e => .error e
      | .ok [] => .error ⟨.onlyEmptyGroups, 0⟩
      | .ok prepared => .ok prepared

/-- Reads a pattern into its tree. -/
def parse (pattern : List Char) : Except PatternError SyntaxTree :=
  match readTokens pattern with
  | .error e => .error e
  | .ok tokens => SyntaxTree.ofTokens tokens

end PatternAutomata
