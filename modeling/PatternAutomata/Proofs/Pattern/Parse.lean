import PatternAutomata.Proofs.Pattern.Grammar

/-!
# Parsing follows the grammar

`build` yields a tree for a range of tokens exactly if the symbols of the range derive it
(`build_eq_ok_iff`).  The proof follows the three functions it is made of.  `closingIndex` finds the
parenthesis that closes a group, `scan` finds the shape of a range (`scan_spec`), and for each shape
the grammar says which trees the parts of the range have to derive.

No tokens are read outside of the range, so the outcome `BuildError.outside` does not occur.
-/

namespace PatternAutomata

variable {tokens : Array Token} {start stop i j k index depth : Nat} {t : Token} {o : Operator}
  {chosen : Option (Nat × Operator)}

/-! ## Ranges -/

/-- The symbols of a range of tokens. -/
def slice (tokens : Array Token) (i j : Nat) : List Symbol :=
  ((tokens.toList.take j).drop i).map Token.symbol

theorem slice_self (tokens : Array Token) (i : Nat) : slice tokens i i = [] := by
  rw [slice, List.drop_eq_nil_of_le (List.length_take_le _ _), List.map_nil]

theorem slice_append (hij : i ≤ j) (hjk : j ≤ k) (hk : k ≤ tokens.size) :
    slice tokens i j ++ slice tokens j k = slice tokens i k := by
  have htake : tokens.toList.take k = tokens.toList.take j ++ (tokens.toList.take k).drop j := by
    have h := (List.take_append_drop j (tokens.toList.take k)).symm
    rwa [List.take_take, Nat.min_eq_left hjk] at h
  have hlength : i ≤ (tokens.toList.take j).length := by
    rw [List.length_take, Array.length_toList]
    omega
  rw [slice, slice, slice, ← List.map_append]
  conv_rhs => rw [htake]
  rw [List.drop_append_of_le_length hlength]

theorem slice_singleton (ht : tokens[i]? = some t) : slice tokens i (i + 1) = [t.symbol] := by
  obtain ⟨hi, rfl⟩ := Array.getElem?_eq_some_iff.mp ht
  have hget : tokens.toList[i]? = some tokens[i] := by
    rw [Array.getElem?_toList, ht]
  rw [slice, List.take_add_one, hget, List.drop_append_of_le_length (by simp; omega),
    List.drop_eq_nil_of_le (List.length_take_le _ _)]
  rfl

theorem slice_cons (ht : tokens[i]? = some t) (hij : i < j) (hj : j ≤ tokens.size) :
    slice tokens i j = t.symbol :: slice tokens (i + 1) j := by
  rw [← slice_append (Nat.le_succ i) hij hj, slice_singleton ht]
  rfl

theorem slice_snoc (ht : tokens[j]? = some t) (hij : i ≤ j) :
    slice tokens i (j + 1) = slice tokens i j ++ [t.symbol] := by
  have hj : j < tokens.size := (Array.getElem?_eq_some_iff.mp ht).1
  rw [← slice_append hij (Nat.le_succ j) hj, slice_singleton ht]

theorem slice_split (ht : tokens[index]? = some t) (hi : i ≤ index) (hj : index < j)
    (hsize : j ≤ tokens.size) :
    slice tokens i j = slice tokens i index ++ t.symbol :: slice tokens (index + 1) j := by
  rw [← slice_append hi hj.le hsize, slice_cons ht hj hsize]

/-- A range that is one group. -/
theorem slice_group {s : Token} (ht : tokens[i]? = some t) (hsymbol : t.symbol = .opening)
    (hs : tokens[j]? = some s) (hs_symbol : s.symbol = .closing) (hij : i + 1 ≤ j) :
    slice tokens i (j + 1) = .opening :: slice tokens (i + 1) j ++ [.closing] := by
  have hj : j < tokens.size := (Array.getElem?_eq_some_iff.mp hs).1
  rw [slice_cons ht (by omega) hj, hsymbol, slice_snoc hs hij, hs_symbol]
  rfl

theorem length_slice (hj : j ≤ tokens.size) : (slice tokens i j).length = j - i := by
  rw [slice, List.length_map, List.length_drop, List.length_take, Array.length_toList,
    Nat.min_eq_left hj]

theorem slice_eq_nil_iff (hj : j ≤ tokens.size) : slice tokens i j = [] ↔ j ≤ i := by
  rw [← List.length_eq_zero_iff, length_slice hj, Nat.sub_eq_zero_iff_le]

/-! ## Groups -/

/-- What the answer to the search for the end of a group says: where the first parenthesis is that
closes more than was opened, or that there is none. -/
def Closes (tokens : Array Token) (stop i depth : Nat) : Except BuildError (Option Nat) → Prop
  | .error _ => False
  | .ok none => ∃ e, level depth (slice tokens i stop) = some e
  | .ok (some close) => i ≤ close ∧ close < stop ∧
    (∃ t, tokens[close]? = some t ∧ t.symbol = .closing) ∧
    level depth (slice tokens i close) = some 0

/-- The answer for the symbols after the first one is the answer for all of them. -/
theorem Closes.step {depth' : Nat} {r : Except BuildError (Option Nat)}
    (h : Closes tokens stop (i + 1) depth' r) (ht : tokens[i]? = some t) (hi : i < stop)
    (hstop : stop ≤ tokens.size) (hlevel : ∀ w, level depth (t.symbol :: w) = level depth' w) :
    Closes tokens stop i depth r := by
  rcases r with e | _ | close
  · exact h
  · obtain ⟨e, he⟩ := h
    exact ⟨e, by rw [slice_cons ht hi hstop, hlevel, he]⟩
  · obtain ⟨hle, hlt, hclosing, he⟩ := h
    exact ⟨by omega, hlt, hclosing, by rw [slice_cons ht hle (by omega), hlevel, he]⟩

theorem closingIndex_spec (depth : Nat) (hi : i ≤ stop) (hstop : stop ≤ tokens.size) :
    Closes tokens stop i depth (closingIndex tokens stop i depth) := by
  fun_induction closingIndex tokens stop i depth with
  | case1 i depth hlt hnone =>
    have := Array.getElem?_eq_none_iff.mp hnone
    omega
  | case2 i depth hlt t ht hsymbol ih =>
    exact (ih hlt).step ht hlt hstop fun w => by rw [hsymbol]; rfl
  | case3 i hlt t ht hsymbol =>
    exact ⟨Nat.le_refl i, hlt, ⟨t, ht, hsymbol⟩, by rw [slice_self]; rfl⟩
  | case4 i hlt t ht hsymbol depth ih =>
    exact (ih hlt).step ht hlt hstop fun w => by rw [hsymbol]; rfl
  | case5 i depth hlt t ht o hsymbol ih =>
    exact (ih hlt).step ht hlt hstop fun w => by rw [hsymbol]; cases depth <;> rfl
  | case6 i depth hlt t ht c hsymbol ih =>
    exact (ih hlt).step ht hlt hstop fun w => by rw [hsymbol]; cases depth <;> rfl
  | case7 i depth hge =>
    obtain rfl : i = stop := by omega
    exact ⟨depth, by rw [slice_self]; rfl⟩

/-! ## The shape of a range -/

/-- The operator chosen in a range is the one that is applied last, if there is one on the top level
at all. -/
def Chosen (tokens : Array Token) (start i : Nat) : Option (Nat × Operator) → Prop
  | none => ∀ o, NoneAtTop o (slice tokens start i)
  | some (index, o) => start ≤ index ∧ index < i ∧
    slice tokens start i = slice tokens start index ++ .operator o :: slice tokens (index + 1) i ∧
    AppliedLast o (slice tokens start index) (slice tokens (index + 1) i)

/-- Walking on over what has no operators on its top level keeps the choice. -/
theorem Chosen.extend (h : Chosen tokens start i chosen) (hb : Balanced (slice tokens start i))
    (hstart : start ≤ i) (hij : i ≤ j) (hj : j ≤ tokens.size)
    (hnone : ∀ o, NoneAtTop o (slice tokens i j)) : Chosen tokens start j chosen := by
  have hrange := slice_append hstart hij hj
  cases chosen with
  | none =>
    intro o
    rw [← hrange]
    exact (noneAtTop_append hb).mpr ⟨h o, hnone o⟩
  | some c =>
    obtain ⟨index, o⟩ := c
    obtain ⟨hle, hlt, hsplit, happlied⟩ := h
    have hright : slice tokens (index + 1) i ++ slice tokens i j = slice tokens (index + 1) j :=
      slice_append hlt hij hj
    rw [hsplit, balanced_append_iff happlied.balanced] at hb
    have hb' : Balanced (slice tokens (index + 1) i) :=
      (balanced_append_iff (balanced_operator o)).mp hb
    refine ⟨hle, by omega, ?_, ?_⟩
    · rw [← hrange, hsplit, List.append_assoc, List.cons_append, hright]
    · rw [← hright]
      exact happlied.append hb' hnone

/-- Walking over an operator chooses between it and the one chosen before. -/
theorem Chosen.operator (h : Chosen tokens start i chosen) (hb : Balanced (slice tokens start i))
    (hstart : start ≤ i) (ht : tokens[i]? = some t) (ho : t.symbol = .operator o) :
    Chosen tokens start (i + 1)
      (if o.outranks (chosen.map Prod.snd) then some (i, o) else chosen) := by
  have hrange : slice tokens start (i + 1) = slice tokens start i ++ [.operator o] := by
    rw [slice_snoc ht hstart, ho]
  have hself : slice tokens start (i + 1) =
      slice tokens start i ++ .operator o :: slice tokens (i + 1) (i + 1) := by
    rw [hrange, slice_self]
  cases chosen with
  | none =>
    refine ⟨hstart, Nat.lt_succ_self i, hself, ?_⟩
    rw [slice_self]
    exact .of_none hb h o
  | some c =>
    obtain ⟨index, o'⟩ := c
    obtain ⟨hle, hlt, hsplit, happlied⟩ := h
    by_cases hrank : o.outranks (some o') = true
    · rw [Option.map_some, if_pos hrank]
      refine ⟨hstart, Nat.lt_succ_self i, hself, ?_⟩
      rw [slice_self, hsplit]
      exact happlied.of_outranks (hsplit ▸ hb) hrank
    · rw [Option.map_some, if_neg hrank]
      have hright : slice tokens (index + 1) (i + 1) =
          slice tokens (index + 1) i ++ [.operator o] := by
        rw [slice_snoc ht hlt, ho]
      rw [hsplit, balanced_append_iff happlied.balanced] at hb
      have hb' : Balanced (slice tokens (index + 1) i) :=
        (balanced_append_iff (balanced_operator o')).mp hb
      refine ⟨hle, by omega, ?_, ?_⟩
      · rw [hrange, hsplit, hright, List.append_assoc, List.cons_append]
      · rw [hright]
        exact happlied.append_operator hb' (Bool.eq_false_iff.mpr hrank)

/-- What the shape found for a range says about it. -/
def Describes (tokens : Array Token) (start stop : Nat) : Except BuildError Shape → Prop
  | .error _ => ¬ Balanced (slice tokens start stop)
  | .ok (.group close) => Balanced (slice tokens (start + 1) close) ∧
    slice tokens start stop = .opening :: slice tokens (start + 1) close ++ [.closing]
  | .ok (.split index o) => Chosen tokens start stop (some (index, o))
  | .ok .operand => Chosen tokens start stop none

/-- **The shape found for a range is right.** -/
theorem scan_spec (hstop : stop ≤ tokens.size) (hstart : start ≤ i) (hi : i ≤ stop)
    (hb : Balanced (slice tokens start i)) (hchosen : Chosen tokens start i chosen) :
    Describes tokens start stop (scan tokens start stop i chosen) := by
  have hclosing := fun i (hi : i ≤ stop) => closingIndex_spec 0 hi hstop
  fun_induction scan tokens start stop i chosen with
  | case1 i chosen hlt hnone =>
    have := Array.getElem?_eq_none_iff.mp hnone
    omega
  | case2 i chosen hlt t ht hsymbol e hclose =>
    have h := hclosing (i + 1) hlt
    rw [hclose] at h
    exact h.elim
  | case3 i chosen hlt t ht hsymbol hclose =>
    -- the group stays open up to the end
    have h := hclosing (i + 1) hlt
    rw [hclose] at h
    obtain ⟨e, he⟩ := h
    intro hbalanced
    rw [slice_split ht hstart hlt hstop, balanced_append_iff hb, hsymbol, Balanced, level,
      level_succ he] at hbalanced
    cases hbalanced
  | case4 i chosen hlt t ht hsymbol close hclose hgroup =>
    have h := hclosing (i + 1) hlt
    rw [hclose] at h
    obtain ⟨hle, -, ⟨s, hs, hs_symbol⟩, he⟩ := h
    obtain ⟨rfl, rfl⟩ := hgroup
    exact ⟨he, slice_group ht hsymbol hs hs_symbol hle⟩
  | case5 i chosen hlt t ht hsymbol close hclose hgroup _ ih =>
    have h := hclosing (i + 1) hlt
    rw [hclose] at h
    obtain ⟨hle, hclose_lt, ⟨s, hs, hs_symbol⟩, he⟩ := h
    have hskip := slice_group ht hsymbol hs hs_symbol hle
    refine ih (by omega) (by omega) ?_ (hchosen.extend hb hstart (by omega) (by omega) fun o => ?_)
    · rw [← slice_append hstart (by omega : i ≤ close + 1) (by omega), balanced_append_iff hb, hskip]
      exact balanced_group he
    · rw [hskip]
      exact noneAtTop_group he
  | case6 i chosen hlt t ht hsymbol =>
    intro hbalanced
    rw [slice_split ht hstart hlt hstop, balanced_append_iff hb, hsymbol] at hbalanced
    cases hbalanced
  | case7 i chosen hlt t ht o hsymbol ih =>
    refine ih (by omega) hlt ?_ (hchosen.operator hb hstart ht hsymbol)
    rw [slice_snoc ht hstart, balanced_append_iff hb, hsymbol]
    exact balanced_operator o
  | case8 i chosen hlt t ht c hsymbol ih =>
    refine ih (by omega) hlt ?_
      (hchosen.extend hb hstart (Nat.le_succ i) (by omega) fun o => ?_)
    · rw [slice_snoc ht hstart, balanced_append_iff hb, hsymbol]
      exact balanced_literal c
    · rw [slice_singleton ht, hsymbol, noneAtTop_singleton]
      exact Symbol.noConfusion
  | case9 i hge index o =>
    obtain rfl : i = stop := by omega
    exact hchosen
  | case10 i hge =>
    obtain rfl : i = stop := by omega
    exact hchosen

theorem scan_start_spec (hstart : start ≤ stop) (hstop : stop ≤ tokens.size) :
    Describes tokens start stop (scan tokens start stop start none) := by
  have hnil := slice_self tokens start
  refine scan_spec hstop (Nat.le_refl start) hstart ?_ fun o => ?_
  · rw [hnil]
    exact balanced_nil
  · rw [hnil]
    exact noneAtTop_nil

/-- The parenthesis that closes a group is the last one of its range. -/
theorem close_of_scan_group {close : Nat}
    (h : scan tokens start stop i chosen = .ok (.group close)) : close + 1 = stop := by
  fun_induction scan tokens start stop i chosen with
  | case4 i chosen hlt t ht hsymbol close' hclose hgroup =>
    cases h
    exact hgroup.2
  | case5 _ _ _ _ _ _ _ _ _ _ ih => exact ih h
  | case7 _ _ _ _ _ _ _ ih | case8 _ _ _ _ _ _ _ ih => exact ih h
  | _ => cases h

/-- After a balanced list, the parenthesis behind it closes the group: one that closes it earlier
would be one too many inside. -/
theorem closingIndex_of_balanced {w : List Symbol} (hi : i ≤ stop) (hstop : stop ≤ tokens.size)
    (hw : Balanced w) (hinside : slice tokens i stop = w ++ [.closing]) :
    ∃ close, closingIndex tokens stop i 0 = .ok (some close) ∧ close + 1 = stop := by
  have h := closingIndex_spec 0 hi hstop
  rcases hresult : closingIndex tokens stop i 0 with e | _ | close
  · rw [hresult] at h
    exact h.elim
  · rw [hresult] at h
    obtain ⟨e, he⟩ := h
    rw [hinside, level_append_of_balanced hw] at he
    cases he
  · rw [hresult] at h
    obtain ⟨hle, hlt, ⟨s, hs, hsymbol⟩, he⟩ := h
    refine ⟨close, rfl, ?_⟩
    rw [slice_split hs hle hlt hstop, hsymbol] at hinside
    rcases List.eq_nil_or_concat' (slice tokens (close + 1) stop) with hnil | ⟨y, x, hy⟩
    · rw [slice_eq_nil_iff hstop] at hnil
      omega
    · rw [hy, ← List.cons_append, ← List.append_assoc] at hinside
      obtain ⟨rfl, -⟩ := List.append_inj' hinside rfl
      rw [balanced_append_iff he] at hw
      cases hw

/-- A group is recognized as one. -/
theorem scan_group {w : List Symbol} (hstart : start ≤ stop) (hstop : stop ≤ tokens.size)
    (hw : Balanced w) (hgroup : slice tokens start stop = .opening :: w ++ [.closing]) :
    ∃ close, scan tokens start stop start none = .ok (.group close) := by
  have hlt : start < stop := by
    rcases hstart.lt_or_eq with h | rfl
    · exact h
    · rw [slice_self] at hgroup
      cases hgroup
  obtain ⟨t, ht⟩ : ∃ t, tokens[start]? = some t :=
    ⟨tokens[start], Array.getElem?_eq_getElem (by omega)⟩
  rw [slice_cons ht hlt hstop] at hgroup
  have hsymbol : t.symbol = .opening := (List.cons.inj hgroup).1
  have hinside : slice tokens (start + 1) stop = w ++ [.closing] := (List.cons.inj hgroup).2
  obtain ⟨close, hclose, hend⟩ := closingIndex_of_balanced hlt hstop hw hinside
  refine ⟨close, ?_⟩
  fun_cases scan tokens start stop start none with
  | case1 _ _ hnone =>
    rw [ht] at hnone
    cases hnone
  | case2 _ _ _ _ _ _ herror =>
    rw [hclose] at herror
    cases herror
  | case3 _ _ _ _ _ hnone =>
    rw [hclose] at hnone
    cases hnone
  | case4 _ _ _ _ _ close' hclose' =>
    rw [hclose] at hclose'
    cases hclose'
    rfl
  | case5 _ _ _ _ _ close' hclose' hgroup =>
    rw [hclose] at hclose'
    cases hclose'
    exact absurd ⟨rfl, hend⟩ hgroup
  | case6 _ _ s hs hother | case7 _ _ s hs o hother | case8 _ _ s hs c hother =>
    rw [ht] at hs
    cases hs
    rw [hsymbol] at hother
    cases hother
  | case9 | case10 => omega

/-! ## Trees -/

/-- What a range derives that is split at an operator. -/
theorem derives_split_iff (hstart : start ≤ stop) (hstop : stop ≤ tokens.size)
    (hscan : scan tokens start stop start none = .ok (.split index o)) {t : SyntaxTree} :
    Derives .expression (slice tokens start stop) t ↔
      if o.isUnary = true then slice tokens (index + 1) stop = [] ∧
        ∃ body, Derives .expression (slice tokens start index) body ∧ t = .node o [body]
      else ∃ left right, Derives .expression (slice tokens start index) left ∧
        Derives .expression (slice tokens (index + 1) stop) right ∧ t = .node o [left, right] := by
  have h := scan_start_spec hstart hstop
  rw [hscan] at h
  obtain ⟨-, -, hsplit, happlied⟩ := h
  rw [hsplit]
  exact happlied.derives_iff

theorem exists_derives_left (hstart : start ≤ stop) (hstop : stop ≤ tokens.size)
    (hscan : scan tokens start stop start none = .ok (.split index o)) {t : SyntaxTree}
    (h : Derives .expression (slice tokens start stop) t) :
    ∃ left, Derives .expression (slice tokens start index) left := by
  rw [derives_split_iff hstart hstop hscan] at h
  split at h
  · obtain ⟨-, body, hbody, -⟩ := h
    exact ⟨body, hbody⟩
  · obtain ⟨left, -, hl, -⟩ := h
    exact ⟨left, hl⟩

/-- A range read as an operand yields a leaf exactly if it holds one literal. -/
theorem operand_eq_ok_iff (hstop : stop ≤ tokens.size) {t : SyntaxTree} :
    operand tokens start stop = .ok t ↔
      ∃ c, slice tokens start stop = [.literal c] ∧ t = .leaf c := by
  by_cases hone : start + 1 = stop
  · subst hone
    obtain ⟨s, hs⟩ : ∃ s, tokens[start]? = some s := ⟨tokens[start], Array.getElem?_eq_getElem hstop⟩
    rw [slice_singleton hs]
    cases hsymbol : s.symbol <;> simp [operand, hs, hsymbol, eq_comm]
  · have hlength : (slice tokens start stop).length = stop - start := length_slice hstop
    refine ⟨fun h => (by rw [operand, if_neg hone] at h; cases h), ?_⟩
    rintro ⟨c, hslice, -⟩
    rw [hslice, List.length_singleton] at hlength
    omega

/-- **A range yields a tree exactly if its symbols derive it.** -/
theorem build_eq_ok_iff (hstart : start ≤ stop) (hstop : stop ≤ tokens.size) (t : SyntaxTree) :
    build tokens start stop = .ok t ↔ Derives .expression (slice tokens start stop) t := by
  fun_induction build tokens start stop generalizing t with
  | case1 start stop e hscan =>
    have h := scan_start_spec hstart hstop
    rw [hscan] at h
    exact ⟨fun h => (by cases h), fun hd => absurd hd.balanced h⟩
  | case2 start stop close hscan hbounds ih =>
    have h := scan_start_spec hstart hstop
    rw [hscan] at h
    obtain ⟨hbalanced, hgroup⟩ := h
    rw [hgroup, derives_group_iff hbalanced]
    exact ih (by omega) (by omega) t
  | case3 start stop hscan =>
    have h := scan_start_spec hstart hstop
    rw [hscan] at h
    rw [derives_operand_iff h fun u hu hgroup => by
      obtain ⟨close, hclose⟩ := scan_group hstart hstop hu hgroup
      rw [hscan] at hclose
      cases hclose]
    exact operand_eq_ok_iff hstop
  | case4 start stop index o hscan hbounds hpostfix =>
    rw [derives_split_iff hstart hstop hscan, if_pos hpostfix.1, slice_eq_nil_iff hstop]
    refine ⟨fun h => (by cases h), ?_⟩
    rintro ⟨hle, -⟩
    omega
  | case5 stop start o hpostfix hscan hbounds =>
    refine ⟨fun h => (by cases h), fun hd => ?_⟩
    obtain ⟨left, hl⟩ := exists_derives_left hstart hstop hscan hd
    exact absurd (slice_self tokens start) hl.ne_nil
  | case6 start stop index o hscan hbounds hpostfix hne e hleft ihl =>
    refine ⟨fun h => (by cases h), fun hd => ?_⟩
    obtain ⟨left, hl⟩ := exists_derives_left hstart hstop hscan hd
    have hok := (ihl (by omega) (by omega) left).mpr hl
    rw [hleft] at hok
    cases hok
  | case7 start stop index o hscan hbounds hpostfix hne left hleft hunary ihl =>
    rw [derives_split_iff hstart hstop hscan, if_pos hunary, slice_eq_nil_iff hstop]
    simp only [← ihl (by omega) (by omega), hleft, Except.ok.injEq]
    constructor
    · rintro rfl
      refine ⟨?_, left, rfl, rfl⟩
      by_contra hlt
      exact hpostfix ⟨hunary, by omega⟩
    · rintro ⟨-, body, rfl, rfl⟩
      rfl
  | case8 start index o hne left hleft hunary hscan hbounds hpostfix ihl =>
    rw [derives_split_iff hstart hstop hscan, if_neg hunary]
    refine ⟨fun h => (by cases h), ?_⟩
    rintro ⟨left, right, -, hr, -⟩
    exact absurd (slice_self tokens (index + 1)) hr.ne_nil
  | case9 start stop index o hscan hbounds hpostfix hne left hleft hunary hne' e hright ihl ihr =>
    rw [derives_split_iff hstart hstop hscan, if_neg hunary]
    refine ⟨fun h => (by cases h), ?_⟩
    rintro ⟨left, right, -, hr, -⟩
    have hok := (ihr (by omega) hstop right).mpr hr
    rw [hright] at hok
    cases hok
  | case10 start stop index o hscan hbounds hpostfix hne left hleft hunary hne' right hright ihl
      ihr =>
    rw [derives_split_iff hstart hstop hscan, if_neg hunary]
    simp only [← ihl (by omega) (by omega), ← ihr (by omega) hstop, hleft, hright, Except.ok.injEq]
    constructor
    · rintro rfl
      exact ⟨left, right, rfl, rfl, rfl⟩
    · rintro ⟨_, _, rfl, rfl, rfl⟩
      rfl

/-- All the symbols of a list of tokens. -/
theorem slice_toArray (tokens : List Token) :
    slice tokens.toArray 0 tokens.length = tokens.map Token.symbol := by
  rw [slice, List.drop_zero, List.take_length]

theorem ofTokens_eq_ok_iff {tokens : List Token} (hne : tokens ≠ []) (t : SyntaxTree) :
    SyntaxTree.ofTokens tokens = .ok t ↔ Derives .expression (tokens.map Token.symbol) t := by
  rw [SyntaxTree.ofTokens, if_neg hne, ← slice_toArray,
    ← build_eq_ok_iff (Nat.zero_le _) List.size_toArray.ge]
  cases build tokens.toArray 0 tokens.length with
  | error e => exact ⟨fun h => (by cases h), fun h => (by cases h)⟩
  | ok t' => exact ⟨fun h => (by cases h; rfl), fun h => (by cases h; rfl)⟩

theorem ofTokens_eq_error_iff {tokens : List Token} {e : PatternError} :
    SyntaxTree.ofTokens tokens = .error e ↔ tokens ≠ [] ∧
      ∃ e', build tokens.toArray 0 tokens.length = .error e' ∧ e'.toPatternError = e := by
  by_cases hne : tokens = []
  · simp [SyntaxTree.ofTokens, hne]
  · rw [SyntaxTree.ofTokens, if_neg hne]
    cases build tokens.toArray 0 tokens.length <;> simp [Except.mapError, hne]

/-- Parsing yields the empty tree or a well-shaped one. -/
theorem wellShaped_of_ofTokens {tokens : List Token} {t : SyntaxTree}
    (h : SyntaxTree.ofTokens tokens = .ok t) : t = .empty ∨ t.WellShaped := by
  by_cases hne : tokens = []
  · rw [SyntaxTree.ofTokens, if_pos hne] at h
    cases h
    exact Or.inl rfl
  · exact Or.inr ((ofTokens_eq_ok_iff hne t).mp h).wellShaped

/-- What the tokens of a pattern are when its tree is built. -/
theorem readTokens_eq_ok_iff {p : List Char} (hp : p ≠ []) {prepared : List Token} :
    readTokens p = .ok prepared ↔ prepared ≠ [] ∧ ∃ tokens w, tokenize p = .ok tokens ∧
      withoutEmptyGroups tokens = .ok w ∧ connectOperands w = prepared := by
  rw [readTokens, if_neg hp]
  cases htokens : tokenize p with
  | error e => simp
  | ok tokens =>
    cases hw : withoutEmptyGroups tokens with
    | error e => simp [prepare, hw, Except.map]
    | ok w => cases hprepared : connectOperands w <;> cases prepared <;>
        simp [prepare, hw, Except.map, hprepared]

/-- Why there are no tokens to build a tree from. -/
theorem readTokens_eq_error_iff {p : List Char} (hp : p ≠ []) {e : PatternError} :
    readTokens p = .error e ↔ tokenize p = .error e ∨ ∃ tokens, tokenize p = .ok tokens ∧
      (withoutEmptyGroups tokens = .error e ∨
        withoutEmptyGroups tokens = .ok [] ∧ e = ⟨.onlyEmptyGroups, 0⟩) := by
  rw [readTokens, if_neg hp]
  cases htokens : tokenize p with
  | error e => simp
  | ok tokens =>
    cases hw : withoutEmptyGroups tokens with
    | error e => simp [prepare, hw, Except.map]
    | ok w => cases w <;> simp [prepare, hw, Except.map, connectOperands, eq_comm]

/-- **A pattern that is not empty has the tree that its tokens derive** once empty groups are erased
and concatenation is written out. -/
theorem parse_eq_ok_iff {p : List Char} (hp : p ≠ []) {t : SyntaxTree} :
    parse p = .ok t ↔ ∃ tokens w, tokenize p = .ok tokens ∧ withoutEmptyGroups tokens = .ok w ∧
      Derives .expression ((connectOperands w).map Token.symbol) t := by
  constructor
  · intro h
    rw [parse] at h
    cases hprepared : readTokens p with
    | error e =>
      rw [hprepared] at h
      cases h
    | ok prepared =>
      rw [hprepared] at h
      obtain ⟨hne, tokens, w, htokens, hw, rfl⟩ := (readTokens_eq_ok_iff hp).mp hprepared
      exact ⟨tokens, w, htokens, hw, (ofTokens_eq_ok_iff hne t).mp h⟩
  · rintro ⟨tokens, w, htokens, hw, h⟩
    have hne : connectOperands w ≠ [] := fun hnil => h.ne_nil (by rw [hnil]; rfl)
    rw [parse, (readTokens_eq_ok_iff hp).mpr ⟨hne, tokens, w, htokens, hw, rfl⟩]
    exact (ofTokens_eq_ok_iff hne t).mpr h

/-- **The parser accepts exactly the grammar**, and yields the tree of the derivation, of which there
is one only.  It fails for all other lists of tokens; among them are those with a parenthesis that
has no partner, and those in which an operand begins right after another one has ended or does not
begin where one has to. -/
theorem ofTokens_grammar {tokens : List Token} (hne : tokens ≠ []) :
    (∀ t, SyntaxTree.ofTokens tokens = .ok t ↔
      Derives .expression (tokens.map Token.symbol) t) ∧
    (∀ t t', Derives .expression (tokens.map Token.symbol) t →
      Derives .expression (tokens.map Token.symbol) t' → t = t') ∧
    ((¬ ∃ t, Derives .expression (tokens.map Token.symbol) t) →
      ∃ e, SyntaxTree.ofTokens tokens = .error e) ∧
    (¬ Balanced (tokens.map Token.symbol) → ∃ e, SyntaxTree.ofTokens tokens = .error e) ∧
    ∀ x y, [x, y] <:+: tokens.map Token.symbol → x.endsOperand = y.beginsOperand →
      ∃ e, SyntaxTree.ofTokens tokens = .error e := by
  have hiff := ofTokens_eq_ok_iff hne
  have herror : (¬ ∃ t, Derives .expression (tokens.map Token.symbol) t) →
      ∃ e, SyntaxTree.ofTokens tokens = .error e := fun hnone => by
    cases hresult : SyntaxTree.ofTokens tokens with
    | error e => exact ⟨e, rfl⟩
    | ok t => exact absurd ⟨t, (hiff t).mp hresult⟩ hnone
  refine ⟨hiff, fun t t' h h' => ?_, herror, fun hunbalanced => herror ?_,
    fun x y hxy heq => herror ?_⟩
  · have hok := (hiff t).mpr h
    rw [(hiff t').mpr h'] at hok
    exact (Except.ok.inj hok).symm
  · rintro ⟨t, ht⟩
    exact hunbalanced ht.balanced
  · rintro ⟨t, ht⟩
    exact ht.endsOperand_ne hxy heq

/-- The star binds closer than the union, and two literals have to be connected. -/
theorem ofTokens_union_star :
    SyntaxTree.ofTokens [⟨.literal 'a', 0⟩, ⟨.operator .union, 1⟩, ⟨.literal 'b', 2⟩,
      ⟨.operator .star, 3⟩] = .ok (.node .union [.leaf 'a', .node .star [.leaf 'b']]) ∧
    ∃ e, SyntaxTree.ofTokens [⟨.literal 'a', 0⟩, ⟨.literal 'b', 1⟩] = .error e := by
  constructor
  · refine ((ofTokens_grammar (List.cons_ne_nil _ _)).1 _).mpr ?_
    exact .union (.factor (.atom (.literal 'a'))) (.term (.factor (.star (.atom (.literal 'b')))))
  · obtain ⟨-, -, -, -, hadjacent⟩ := ofTokens_grammar
      (List.cons_ne_nil ⟨.literal 'a', 0⟩ [⟨.literal 'b', 1⟩])
    exact hadjacent (.literal 'a') (.literal 'b') (List.infix_refl _) rfl

end PatternAutomata
