import PatternAutomata.Proofs.Pattern.Positions
import PatternAutomata.Proofs.Pattern.Tidy

/-!
# Why no tree is built

Two things can be wrong with tidy tokens.

* A parenthesis has no partner.  Then the walk over the top level of the whole range gets stuck at
  one, whatever else is wrong (`build_eq_error_of_not_balanced`).
* An operator lacks an operand.  The ranges that are split off at operators, and inside groups, are
  balanced again, so this is the only error in what is balanced (`exists_of_build_eq_error`).  Every
  range begins where no operand has ended, and ends where none begins.  At an operator that is blamed
  there is therefore no operand on one of its sides, so that it was not put between two operands.
-/

namespace PatternAutomata

variable {tokens : Array Token} {start stop i index : Nat} {t : Token} {o : Operator}
  {chosen : Option (Nat × Operator)} {e : BuildError}

/-! ## Parentheses -/

/-- What the outcome of a walk over the top level says about the parentheses of a range. -/
def Balances (tokens : Array Token) (start stop : Nat) : Except BuildError Shape → Prop
  | .error e => ∃ k t, start ≤ k ∧ k < stop ∧ tokens[k]? = some t ∧
      Breaks (slice tokens start k) t.symbol (slice tokens (k + 1) stop) ∧
      e = .rejected ⟨.unmatchedParenthesis, t.position⟩
  | .ok _ => Balanced (slice tokens start stop)

/-- **A walk gets to the end of what is balanced**, and gets stuck where this breaks off. -/
theorem scan_balances (hstop : stop ≤ tokens.size) (hstart : start ≤ i) (hi : i ≤ stop)
    (hb : Balanced (slice tokens start i)) :
    Balances tokens start stop (scan tokens start stop i chosen) := by
  have hclosing := fun i (hi : i ≤ stop) => closingIndex_spec 0 hi hstop
  fun_induction scan tokens start stop i chosen with
  | case1 i chosen hlt hnone =>
    have := Array.getElem?_eq_none_iff.mp hnone
    omega
  | case2 i chosen hlt t ht hsymbol e hclose =>
    have h := hclosing (i + 1) hlt
    rw [hclose] at h
    exact h.elim
  | case3 i chosen hlt t ht hsymbol hclose =>
    have h := hclosing (i + 1) hlt
    rw [hclose] at h
    exact ⟨i, t, hstart, hlt, ht, ⟨hb, Or.inr ⟨hsymbol, h⟩⟩, rfl⟩
  | case4 i chosen hlt t ht hsymbol close hclose hgroup =>
    have h := hclosing (i + 1) hlt
    rw [hclose] at h
    obtain ⟨hle, -, ⟨s, hs, hs_symbol⟩, he⟩ := h
    obtain ⟨rfl, rfl⟩ := hgroup
    rw [Balances, slice_group ht hsymbol hs hs_symbol hle]
    exact balanced_group he
  | case5 i chosen hlt t ht hsymbol close hclose hgroup _ ih =>
    have h := hclosing (i + 1) hlt
    rw [hclose] at h
    obtain ⟨hle, hclose_lt, ⟨s, hs, hs_symbol⟩, he⟩ := h
    refine ih (by omega) (by omega) ?_
    rw [← slice_append hstart (by omega : i ≤ close + 1) (by omega), balanced_append_iff hb,
      slice_group ht hsymbol hs hs_symbol hle]
    exact balanced_group he
  | case6 i chosen hlt t ht hsymbol =>
    exact ⟨i, t, hstart, hlt, ht, ⟨hb, Or.inl hsymbol⟩, rfl⟩
  | case7 i chosen hlt t ht o hsymbol ih =>
    refine ih (by omega) hlt ?_
    rw [slice_snoc ht hstart, balanced_append_iff hb, hsymbol]
    exact balanced_operator o
  | case8 i chosen hlt t ht c hsymbol ih =>
    refine ih (by omega) hlt ?_
    rw [slice_snoc ht hstart, balanced_append_iff hb, hsymbol]
    exact balanced_literal c
  | case9 i hge index o | case10 i hge =>
    obtain rfl : i = stop := by omega
    exact hb

/-- **Where a parenthesis has no partner, this is what is wrong.** -/
theorem build_eq_error_of_not_balanced (hstart : start ≤ stop) (hstop : stop ≤ tokens.size)
    (h : ¬ Balanced (slice tokens start stop)) : ∃ k t, start ≤ k ∧ k < stop ∧
      tokens[k]? = some t ∧ Breaks (slice tokens start k) t.symbol (slice tokens (k + 1) stop) ∧
      build tokens start stop = .error (.rejected ⟨.unmatchedParenthesis, t.position⟩) := by
  have hscan : Balances tokens start stop (scan tokens start stop start none) :=
    scan_balances hstop (Nat.le_refl start) hstart (by rw [slice_self]; exact balanced_nil)
  cases hresult : scan tokens start stop start none with
  | ok shape =>
    rw [hresult] at hscan
    exact absurd hscan h
  | error e =>
    rw [hresult] at hscan
    obtain ⟨k, t, hk, hlt, ht, hbreaks, rfl⟩ := hscan
    refine ⟨k, t, hk, hlt, ht, hbreaks, ?_⟩
    rw [build_eq, hresult]

/-! ## Operators -/

/-- No operand ends right before an index. -/
def NoOperandBefore (tokens : Array Token) (i : Nat) : Prop :=
  ∀ j t, i = j + 1 → tokens[j]? = some t → t.symbol.endsOperand = false

/-- No operand begins at an index. -/
def NoOperandAt (tokens : Array Token) (i : Nat) : Prop :=
  ∀ t, tokens[i]? = some t → t.symbol.beginsOperand = false

theorem noOperandBefore_succ (ht : tokens[i]? = some t) (hsymbol : t.symbol.endsOperand = false) :
    NoOperandBefore tokens (i + 1) := by
  rintro j s hj hs
  obtain rfl : i = j := Nat.succ.inj hj
  rw [ht] at hs
  cases hs
  exact hsymbol

theorem noOperandAt (ht : tokens[i]? = some t) (hsymbol : t.symbol.beginsOperand = false) :
    NoOperandAt tokens i := by
  rintro s hs
  rw [ht] at hs
  cases hs
  exact hsymbol

/-- The parentheses around a range that is one group. -/
theorem exists_parentheses (hstart : start ≤ stop) (hstop : stop ≤ tokens.size) {close : Nat}
    (hscan : scan tokens start stop start none = .ok (.group close)) :
    (∃ t, tokens[start]? = some t ∧ t.symbol = .opening) ∧
      ∃ s, tokens[close]? = some s ∧ s.symbol = .closing := by
  have h := scan_start_spec hstart hstop
  rw [hscan] at h
  obtain ⟨-, hgroup⟩ := h
  obtain ⟨hlt, hclose⟩ := bounds_of_scan_group hscan
  obtain rfl := close_of_scan_group hscan
  obtain ⟨t, ht⟩ : ∃ t, tokens[start]? = some t := ⟨_, Array.getElem?_eq_getElem (by omega)⟩
  obtain ⟨s, hs⟩ : ∃ s, tokens[close]? = some s := ⟨_, Array.getElem?_eq_getElem (by omega)⟩
  rw [slice_cons ht (by omega) hstop, slice_snoc hs hlt] at hgroup
  obtain ⟨hopening, hrest⟩ := List.cons.inj hgroup
  exact ⟨⟨t, ht, hopening⟩, s, hs, (List.cons.inj (List.append_inj' hrest rfl).2).1⟩

/-- The operator that a range is split at. -/
theorem exists_operator (hstart : start ≤ stop) (hstop : stop ≤ tokens.size)
    (hscan : scan tokens start stop start none = .ok (.split index o)) :
    (∃ t, tokens[index]? = some t ∧ t.symbol = .operator o) ∧
      slice tokens start stop =
        slice tokens start index ++ .operator o :: slice tokens (index + 1) stop ∧
      AppliedLast o (slice tokens start index) (slice tokens (index + 1) stop) := by
  have h := scan_start_spec hstart hstop
  rw [hscan] at h
  obtain ⟨hle, hlt, hsplit, happlied⟩ := h
  obtain ⟨t, ht⟩ : ∃ t, tokens[index]? = some t := ⟨_, Array.getElem?_eq_getElem (by omega)⟩
  have hsplit' := slice_split ht hle hlt hstop
  rw [hsplit] at hsplit'
  exact ⟨⟨t, ht, (List.cons.inj (List.append_cancel_left hsplit')).1.symm⟩, hsplit, happlied⟩

/-- Behind a unary operator that is applied last there are no operators. -/
theorem AppliedLast.noneAtTop {u v : List Symbol} (h : AppliedLast o u v)
    (ho : o.isUnary = true) (o' : Operator) : NoneAtTop o' v := by
  cases o with
  | union | concatenation => cases ho
  | star =>
    cases o' with
    | union | concatenation => exact (h.higher _ (by decide)).2
    | star => exact h.last rfl

/-- An operator that is blamed for a missing operand: on one of its sides there is none. -/
def BlamedOperator (tokens : Array Token) (e : BuildError) : Prop :=
  ∃ index t o, tokens[index]? = some t ∧ t.symbol = .operator o ∧
    (NoOperandBefore tokens index ∨ NoOperandAt tokens (index + 1)) ∧
    e = .rejected ⟨.missingOperand o, t.position⟩

theorem blamedOperator_reject (ht : tokens[index]? = some t) (ho : t.symbol = .operator o)
    (h : NoOperandBefore tokens index ∨ NoOperandAt tokens (index + 1)) :
    BlamedOperator tokens (reject tokens (.missingOperand o) index) :=
  ⟨index, t, o, ht, ho, h, by rw [reject, ht]; rfl⟩

/-- **In tidy and balanced tokens nothing but an operand can be missing.** -/
theorem blamedOperator_of_build_eq_error (hstart : start < stop) (hstop : stop ≤ tokens.size)
    (htidy : Tidy (slice tokens start stop)) (hb : Balanced (slice tokens start stop))
    (hbefore : NoOperandBefore tokens start) (hbehind : NoOperandAt tokens stop)
    (h : build tokens start stop = .error e) : BlamedOperator tokens e := by
  fun_induction build tokens start stop with
  | case1 start stop e hscan =>
    have hspec := scan_start_spec hstart.le hstop
    rw [hscan] at hspec
    exact absurd hb hspec
  | case2 start stop close hscan hbounds ih =>
    have hspec := scan_start_spec hstart.le hstop
    rw [hscan] at hspec
    obtain ⟨hinside, hgroup⟩ := hspec
    obtain ⟨⟨t, ht, hopening⟩, s, hs, hclosing⟩ := exists_parentheses hstart.le hstop hscan
    rw [hgroup] at htidy
    have hne : slice tokens (start + 1) close ≠ [] := by
      intro hnil
      rw [hnil] at htidy
      exact (List.isChain_cons_cons.mp htidy).1.2 ⟨rfl, rfl⟩
    rw [Ne, slice_eq_nil_iff (by omega), not_le] at hne
    exact ih hne (by omega) htidy.left_of_append.tail hinside
      (noOperandBefore_succ ht (by rw [hopening]; rfl)) (noOperandAt hs (by rw [hclosing]; rfl)) h
  | case3 start stop hscan =>
    have hspec := scan_start_spec hstart.le hstop
    rw [hscan] at hspec
    have hne : slice tokens start stop ≠ [] := by
      rw [Ne, slice_eq_nil_iff hstop]
      omega
    obtain ⟨c, hc⟩ := htidy.exists_literal hb hne hspec fun u hu hgroup => by
      obtain ⟨close, hclose⟩ := scan_group hstart.le hstop hu hgroup
      rw [hscan] at hclose
      cases hclose
    rw [(operand_eq_ok_iff hstop).mpr ⟨c, hc, rfl⟩] at h
    cases h
  | case4 start stop index o hscan hbounds hpostfix =>
    obtain ⟨-, hsplit, happlied⟩ := exists_operator hstart.le hstop hscan
    rw [hsplit] at htidy hb
    have hnil := htidy.eq_nil_of_endsOperand hb
      ((balanced_append_iff happlied.balanced).mpr (balanced_operator o))
      (by rw [endsOperand_operator, hpostfix.1])
      (happlied.noneAtTop hpostfix.1)
    rw [slice_eq_nil_iff hstop] at hnil
    omega
  | case5 stop start o hpostfix hscan hbounds =>
    cases h
    obtain ⟨⟨t, ht, ho⟩, -⟩ := exists_operator hstart.le hstop hscan
    exact blamedOperator_reject ht ho (Or.inl hbefore)
  | case6 start stop index o hscan hbounds hpostfix hne e hleft ihl =>
    obtain ⟨⟨t, ht, ho⟩, hsplit, happlied⟩ := exists_operator hstart.le hstop hscan
    cases h
    rw [hsplit] at htidy
    exact ihl (by omega) (by omega) htidy.left_of_append happlied.balanced hbefore
      (noOperandAt ht (by rw [ho]; rfl)) hleft
  | case7 start stop index o hscan hbounds hpostfix hne left hleft hunary ihl => cases h
  | case8 start index o hne left hleft hunary hscan hbounds hpostfix ihl =>
    cases h
    obtain ⟨⟨t, ht, ho⟩, -⟩ := exists_operator hstart.le hstop hscan
    exact blamedOperator_reject ht ho (Or.inr hbehind)
  | case9 start stop index o hscan hbounds hpostfix hne left hleft hunary hne' e hright ihl ihr =>
    obtain ⟨⟨t, ht, ho⟩, hsplit, happlied⟩ := exists_operator hstart.le hstop hscan
    cases h
    rw [hsplit] at htidy hb
    rw [balanced_append_iff happlied.balanced] at hb
    refine ihr (by omega) hstop htidy.right_of_append.tail
      ((balanced_append_iff (balanced_operator o)).mp hb) (noOperandBefore_succ ht ?_) hbehind hright
    rw [ho, endsOperand_operator, Bool.eq_false_iff.mpr hunary]
  | case10 => cases h

end PatternAutomata
