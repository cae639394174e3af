import PatternAutomata.Pattern.Token

/-!
# Erasing empty groups

An empty group `()` means nothing and is erased, which may empty the group around it: `a(())` is
`a`.  The erasure is a single scan.  After an erasure it goes on behind the erased group, or
with the token before it if a closing parenthesis follows, because the group that closes there may
be empty now.

**Too little before a group.**  Unless nothing follows the empty group, one token has to stand
before it, and two if a closing parenthesis follows.  Otherwise the pattern is rejected: `()a` opens
with an empty group, `(())` with a group that becomes empty, and `a())` has only one token before
its empty group.
-/

namespace PatternAutomata

/-- Erases empty groups.  `before` holds the tokens already scanned, last one first; `after` those
still to be scanned. -/
def eraseEmptyGroups (before after : List Token) : Except PatternError (List Token) :=
  match after with
  | [] => .ok before.reverse
  | [t] => .ok (before.reverse ++ [t])
  | t :: u :: rest =>
    if t.symbol = .opening ∧ u.symbol = .closing then
      match rest, before with
      | [], _ => .ok before.reverse
      | _ :: _, [] => .error ⟨.openingEmptyGroup, t.position⟩
      | v :: rest, b :: before =>
        if v.symbol = .closing then
          if before = [] then .error ⟨.openingEmptyGroup, t.position⟩
          else eraseEmptyGroups before (b :: v :: rest)
        else eraseEmptyGroups (b :: before) (v :: rest)
    else
      eraseEmptyGroups (t :: before) (u :: rest)
termination_by 3 * after.length + 2 * before.length
decreasing_by
  all_goals
    simp only [List.length_cons]
    omega

/-- The tokens without empty groups, or the position of an empty group that opens them. -/
def withoutEmptyGroups (tokens : List Token) : Except PatternError (List Token) :=
  eraseEmptyGroups [] tokens

end PatternAutomata
