import PatternAutomata.Proofs.Pattern.Parse

/-!
# Positions do not decide anything

The tree builder looks at the symbols of its tokens.  Where these were read is only reported.  So
tokens with the same symbols have the same tree, or both have none for the same reason
(`mapError_cause_ofTokens`).  Each of the functions the builder is made of is followed on one list
of tokens, and takes the same branches on the other one.
-/

namespace PatternAutomata

variable {a b : Array Token} {w v : List Token} {t : Token} {start stop i depth : Nat}
  {chosen : Option (Nat × Operator)}

/-- The same symbols stand at the same places. -/
def SameSymbols (a b : Array Token) : Prop :=
  ∀ i : Nat, a[i]?.map Token.symbol = b[i]?.map Token.symbol

theorem SameSymbols.getElem?_eq_some (h : SameSymbols a b) (ht : a[i]? = some t) :
    ∃ s, b[i]? = some s ∧ s.symbol = t.symbol := by
  have hi := h i
  rw [ht] at hi
  exact Option.map_eq_some_iff.mp hi.symm

theorem SameSymbols.getElem?_eq_none (h : SameSymbols a b) (ht : a[i]? = none) : b[i]? = none := by
  have hi := h i
  rw [ht] at hi
  exact Option.map_eq_none_iff.mp hi.symm

theorem sameSymbols_toArray (h : w.map Token.symbol = v.map Token.symbol) :
    SameSymbols w.toArray v.toArray := by
  intro i
  rw [List.getElem?_toArray, List.getElem?_toArray, ← List.getElem?_map, ← List.getElem?_map, h]

/-- What a failure to build a tree is reported as, but for the position. -/
def BuildError.cause (e : BuildError) : PatternError.Cause := e.toPatternError.cause

theorem closingIndex_congr (h : SameSymbols a b) :
    closingIndex a stop i depth = closingIndex b stop i depth := by
  fun_induction closingIndex a stop i depth with
  | case1 i depth hlt hnone =>
    rw [closingIndex.eq_def, if_pos hlt, h.getElem?_eq_none hnone]
  | case2 i depth hlt t ht hsymbol ih | case4 i hlt t ht hsymbol depth ih
    | case5 i depth hlt t ht o hsymbol ih | case6 i depth hlt t ht c hsymbol ih =>
    obtain ⟨s, hs, hst⟩ := h.getElem?_eq_some ht
    rw [ih, closingIndex.eq_def b stop i, if_pos hlt, hs]
    simp only [hst, hsymbol]
  | case3 i hlt t ht hsymbol =>
    obtain ⟨s, hs, hst⟩ := h.getElem?_eq_some ht
    rw [closingIndex.eq_def, if_pos hlt, hs]
    simp only [hst, hsymbol]
  | case7 i depth hge => rw [closingIndex.eq_def, if_neg hge]

/-- A walk goes past a group as a whole. -/
theorem scan_opening (hi : i < stop) (ht : a[i]? = some t) (hsymbol : t.symbol = .opening) :
    scan a start stop i chosen =
      match closingIndex a stop (i + 1) 0 with
      | .error e => .error e
      | .ok none => .error (.rejected ⟨.unmatchedParenthesis, t.position⟩)
      | .ok (some close) =>
        if i = start ∧ close + 1 = stop then .ok (.group close)
        else scan a start stop (close + 1) chosen := by
  rw [scan.eq_def, if_pos hi, ht]
  simp only [hsymbol]
  split <;> simp only [*]

theorem mapError_cause_scan (h : SameSymbols a b) :
    (scan a start stop i chosen).mapError BuildError.cause =
      (scan b start stop i chosen).mapError BuildError.cause := by
  fun_induction scan a start stop i chosen with
  | case1 i chosen hlt hnone =>
    rw [scan.eq_def, if_pos hlt, h.getElem?_eq_none hnone]
  | case2 i chosen hlt t ht hsymbol e hclose =>
    obtain ⟨s, hs, hst⟩ := h.getElem?_eq_some ht
    rw [scan_opening hlt hs (hst.trans hsymbol), ← closingIndex_congr h, hclose]
  | case3 i chosen hlt t ht hsymbol hclose =>
    obtain ⟨s, hs, hst⟩ := h.getElem?_eq_some ht
    rw [scan_opening hlt hs (hst.trans hsymbol), ← closingIndex_congr h, hclose]
    rfl
  | case4 i chosen hlt t ht hsymbol close hclose hgroup =>
    obtain ⟨s, hs, hst⟩ := h.getElem?_eq_some ht
    rw [scan_opening hlt hs (hst.trans hsymbol), ← closingIndex_congr h, hclose]
    simp only [if_pos hgroup]
  | case5 i chosen hlt t ht hsymbol close hclose hgroup _ ih =>
    obtain ⟨s, hs, hst⟩ := h.getElem?_eq_some ht
    rw [ih, scan_opening hlt hs (hst.trans hsymbol), ← closingIndex_congr h, hclose]
    simp only [if_neg hgroup]
  | case6 i chosen hlt t ht hsymbol =>
    obtain ⟨s, hs, hst⟩ := h.getElem?_eq_some ht
    rw [scan.eq_def, if_pos hlt, hs]
    simp only [hst, hsymbol]
    rfl
  | case7 i chosen hlt t ht o hsymbol ih =>
    obtain ⟨s, hs, hst⟩ := h.getElem?_eq_some ht
    refine Eq.trans ih ?_
    rw [scan.eq_def b start stop i, if_pos hlt, hs]
    simp only [hst, hsymbol]
    rfl
  | case8 i chosen hlt t ht c hsymbol ih =>
    obtain ⟨s, hs, hst⟩ := h.getElem?_eq_some ht
    rw [ih, scan.eq_def b start stop i, if_pos hlt, hs]
    simp only [hst, hsymbol]
  | case9 i hge index o | case10 i hge => rw [scan.eq_def, if_neg hge]

theorem mapError_cause_operand (h : SameSymbols a b) :
    (operand a start stop).mapError BuildError.cause =
      (operand b start stop).mapError BuildError.cause := by
  unfold operand
  split
  · cases ht : a[start]? with
    | none => rw [h.getElem?_eq_none ht]
    | some t =>
      obtain ⟨s, hs, hst⟩ := h.getElem?_eq_some ht
      rw [hs]
      simp only [hst]
      split <;> rfl
  · rfl

/-- A tree is built of what a walk over the top level finds. -/
theorem build_eq (a : Array Token) (start stop : Nat) : build a start stop =
    match scan a start stop start none with
    | .error e => .error e
    | .ok (.group close) => build a (start + 1) close
    | .ok .operand => operand a start stop
    | .ok (.split index o) =>
      if o.isUnary ∧ index + 1 ≠ stop then .error (reject a (.misplacedPostfix o) index)
      else if index = start then .error (reject a (.missingOperand o) index)
      else
        match build a start index with
        | .error e => .error e
        | .ok left =>
          if o.isUnary then .ok (.node o [left])
          else if index + 1 = stop then .error (reject a (.missingOperand o) index)
          else
            match build a (index + 1) stop with
            | .error e => .error e
            | .ok right => .ok (.node o [left, right]) := by
  rw [build.eq_def]
  split
  case h_4 index o hscan =>
    cases hleft : build a start index <;> cases hright : build a (index + 1) stop <;>
      simp only [hscan, hleft, hright]
  all_goals simp only [*]

theorem eq_ok_of_mapError_eq {α ε δ : Type} {f : ε → δ} {r s : Except ε α} {x : α}
    (h : r.mapError f = s.mapError f) (hr : r = .ok x) : s = .ok x := by
  rw [hr] at h
  cases s with
  | ok y => cases h; rfl
  | error e => cases h

theorem exists_eq_error_of_mapError_eq {α ε δ : Type} {f : ε → δ} {r s : Except ε α} {e : ε}
    (h : r.mapError f = s.mapError f) (hr : r = .error e) : ∃ e', s = .error e' ∧ f e = f e' := by
  rw [hr] at h
  cases s with
  | ok y => cases h
  | error e' => exact ⟨e', rfl, Except.error.inj h⟩

theorem mapError_cause_build (h : SameSymbols a b) :
    (build a start stop).mapError BuildError.cause =
      (build b start stop).mapError BuildError.cause := by
  have hscan : ∀ start stop, (scan a start stop start none).mapError BuildError.cause =
      (scan b start stop start none).mapError BuildError.cause := fun _ _ => mapError_cause_scan h
  fun_induction build a start stop with
  | case1 start stop e hshape =>
    obtain ⟨e', hb, he⟩ := exists_eq_error_of_mapError_eq (hscan start stop) hshape
    rw [build_eq b, hb]
    exact congrArg Except.error he
  | case2 start stop close hshape hbounds ih =>
    rw [ih, build_eq b start, eq_ok_of_mapError_eq (hscan start stop) hshape]
  | case3 start stop hshape =>
    rw [build_eq b, eq_ok_of_mapError_eq (hscan start stop) hshape]
    exact mapError_cause_operand h
  | case4 start stop index o hshape hbounds hpostfix =>
    rw [build_eq b, eq_ok_of_mapError_eq (hscan start stop) hshape]
    simp only [if_pos hpostfix]
    rfl
  | case5 stop start o hpostfix hshape hbounds =>
    rw [build_eq b, eq_ok_of_mapError_eq (hscan start stop) hshape]
    simp only [if_neg hpostfix]
    rfl
  | case6 start stop index o hshape hbounds hpostfix hne e hleft ihl =>
    obtain ⟨e', hb, he⟩ := exists_eq_error_of_mapError_eq ihl hleft
    rw [build_eq b, eq_ok_of_mapError_eq (hscan start stop) hshape]
    simp only [if_neg hpostfix, if_neg hne, hb]
    exact congrArg Except.error he
  | case7 start stop index o hshape hbounds hpostfix hne left hleft hunary ihl =>
    rw [build_eq b, eq_ok_of_mapError_eq (hscan start stop) hshape]
    simp only [if_neg hpostfix, if_neg hne, eq_ok_of_mapError_eq ihl hleft, if_pos hunary]
  | case8 start index o hne left hleft hunary hshape hbounds hpostfix ihl =>
    rw [build_eq b, eq_ok_of_mapError_eq (hscan start (index + 1)) hshape]
    simp only [if_neg hpostfix, if_neg hne, eq_ok_of_mapError_eq ihl hleft, if_neg hunary]
    rfl
  | case9 start stop index o hshape hbounds hpostfix hne left hleft hunary hne' e hright ihl ihr =>
    obtain ⟨e', hb, he⟩ := exists_eq_error_of_mapError_eq ihr hright
    rw [build_eq b, eq_ok_of_mapError_eq (hscan start stop) hshape]
    simp only [if_neg hpostfix, if_neg hne, eq_ok_of_mapError_eq ihl hleft, if_neg hunary,
      if_neg hne', hb]
    exact congrArg Except.error he
  | case10 start stop index o hshape hbounds hpostfix hne left hleft hunary hne' right hright ihl
      ihr =>
    rw [build_eq b, eq_ok_of_mapError_eq (hscan start stop) hshape]
    simp only [if_neg hpostfix, if_neg hne, eq_ok_of_mapError_eq ihl hleft, if_neg hunary,
      if_neg hne', eq_ok_of_mapError_eq ihr hright]

/-- **Tokens with the same symbols have the same tree**, or there is none for the same reason. -/
theorem mapError_cause_ofTokens (h : w.map Token.symbol = v.map Token.symbol) :
    (SyntaxTree.ofTokens w).mapError PatternError.cause =
      (SyntaxTree.ofTokens v).mapError PatternError.cause := by
  have hlength : w.length = v.length := by
    rw [← List.length_map Token.symbol, h, List.length_map]
  have hnil : w = [] ↔ v = [] := by
    rw [← List.length_eq_zero_iff, hlength, List.length_eq_zero_iff]
  have hbuild : (build w.toArray 0 w.length).mapError BuildError.cause =
      (build v.toArray 0 v.length).mapError BuildError.cause := by
    rw [hlength]
    exact mapError_cause_build (sameSymbols_toArray h)
  have hcause : ∀ r : Except BuildError SyntaxTree,
      (r.mapError BuildError.toPatternError).mapError PatternError.cause =
        r.mapError BuildError.cause := by
    rintro (e | t) <;> rfl
  unfold SyntaxTree.ofTokens
  by_cases hw : w = []
  · rw [if_pos hw, if_pos (hnil.mp hw)]
  · rw [if_neg hw, if_neg (hnil.not.mp hw), hcause, hcause, hbuild]

end PatternAutomata
