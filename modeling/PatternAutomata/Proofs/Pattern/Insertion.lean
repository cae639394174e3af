import PatternAutomata.Proofs.Pattern.Concatenation
import PatternAutomata.Proofs.Pattern.EmptyGroupScan
import PatternAutomata.Proofs.Pattern.Parse
import PatternAutomata.Proofs.Pattern.Place

/-!
# Empty groups make no difference

An empty group can be put between any two tokens of an accepted pattern, and at its end, without
changing the tree (`erasure_exact`).  Only at the very start it is rejected.

That it goes away again is one half of this, since what is left when empty groups are erased does not
depend on the order.  The other half is that the scan still does not reject the tokens
(`OpensEmpty.of_insert`).  A pattern that opens with something empty only because of the new group
would have begun with an unmatched parenthesis.
-/

namespace PatternAutomata

variable {p : List Char} {w u v x y : List Token} {b c t s : Token} {k : Nat} {tree : SyntaxTree}

/-- What vanishes does not end with an opening parenthesis. -/
theorem symbol_ne_opening_of_vanishes (h : ErasesTo (w ++ [t]) []) : t.symbol ≠ .opening := by
  have hbalanced : Balanced (w.map Token.symbol ++ [t.symbol]) := by
    have hlevel := h.level_eq 0
    rwa [List.map_append] at hlevel
  exact hbalanced.last_ne

/-- Where every parenthesis has its partner, a closing one in the second place is the partner of the
first token. -/
theorem symbol_eq_opening_of_balanced (h : Balanced ((b :: c :: w).map Token.symbol))
    (hc : c.symbol = .closing) : b.symbol = .opening := by
  rw [List.map_cons, List.map_cons, hc] at h
  cases hb : b.symbol with
  | opening => rfl
  | closing => exact absurd hb h.head_ne
  | operator o | literal d =>
    rw [hb] at h
    cases h

/-- What vanishes does not cut an empty group in two. -/
theorem exists_cut_of_vanishes (hcut : x ++ t :: s :: y = u ++ v) (hpair : EmptyPair t s)
    (hu : ErasesTo u []) :
    (∃ z, x = u ++ z ∧ v = z ++ t :: s :: y) ∨ ∃ z, u = x ++ t :: s :: z ∧ y = z ++ v := by
  rcases List.append_eq_append_iff.mp hcut with ⟨z, rfl, hz⟩ | ⟨z, rfl, rfl⟩
  · rcases z with _ | ⟨t', _ | ⟨s', z⟩⟩
    · exact Or.inl ⟨[], by simp, hz.symm⟩
    · obtain ⟨rfl, -⟩ := List.cons.inj hz
      exact absurd hpair.1 (symbol_ne_opening_of_vanishes hu)
    · simp only [List.cons_append, List.cons.injEq] at hz
      obtain ⟨rfl, rfl, rfl⟩ := hz
      exact Or.inr ⟨z, rfl, rfl⟩
  · exact Or.inl ⟨z, rfl, rfl⟩

/-- **An inserted empty group does not make tokens open with something empty.** -/
theorem OpensEmpty.of_insert (h : OpensEmpty (x ++ t :: s :: y)) (hpair : EmptyPair t s)
    (hx : x ≠ []) (hbalanced : Balanced ((x ++ y).map Token.symbol))
    (hmore : (x ++ y).map Token.symbol ≠ [.opening, .closing]) : OpensEmpty (x ++ y) := by
  have hwithout : ∀ {x z : List Token}, NormalForm (x ++ t :: s :: z) [] →
      NormalForm (x ++ z) [] := by
    intro x z hz
    rw [normalForm_nil_iff, erasesTo_nil_iff] at hz ⊢
    rwa [remainder_append_pair hpair] at hz
  generalize hw : x ++ t :: s :: y = w at h
  cases h with
  | @beginning u v hne hempty _ =>
    rcases exists_cut_of_vanishes hw hpair hempty.erased with ⟨z, rfl, -⟩ | ⟨z, rfl, rfl⟩
    · rw [List.append_assoc] at hmore ⊢
      exact .beginning hne hempty hmore
    · rw [← List.append_assoc] at hmore ⊢
      exact .beginning (List.append_ne_nil_of_left_ne_nil hx z) (hwithout hempty) hmore
  | @behindFirst b c u v hb hne hempty hc =>
    obtain ⟨x, rfl, hcut⟩ := (List.append_eq_cons_iff.mp hw).resolve_left fun h => hx h.1
    rcases exists_cut_of_vanishes hcut.symm hpair hempty.erased with ⟨z, rfl, hz⟩ | ⟨z, rfl, rfl⟩
    · rcases z with _ | ⟨c', z⟩
      · obtain ⟨rfl, -⟩ := List.cons.inj hz
        exact absurd (hpair.1.symm.trans hc) Symbol.noConfusion
      · obtain ⟨rfl, -⟩ := List.cons.inj hz
        rw [List.cons_append, List.append_assoc]
        exact .behindFirst hb hne hempty hc
    · by_cases hnil : x ++ z = []
      · -- the closing parenthesis would be the second token
        obtain ⟨rfl, rfl⟩ := List.append_eq_nil_iff.mp hnil
        exact absurd (symbol_eq_opening_of_balanced hbalanced hc) hb
      · rw [List.cons_append, ← List.append_assoc]
        exact .behindFirst hb hnil (hwithout hempty) hc

/-- The tokens of a pattern with an empty group in it. -/
theorem tokenize_insert {p₁ p₂ : List Char} (hx : tokenize p₁ = .ok x)
    (hy : tokenizeFrom p₁.length p₂ = .ok y) : tokenize (p₁ ++ '(' :: ')' :: p₂) =
      .ok (x ++ ⟨.opening, p₁.length⟩ :: ⟨.closing, p₁.length + 1⟩ :: y.map (Token.shift 2)) := by
  rw [tokenize, tokenizeFrom_append hx, Nat.zero_add, tokenizeFrom_cons (by decide),
    tokenizeFrom_cons (by decide), tokenizeFrom_add hy 2]
  rfl

/-- **Empty groups make no difference** anywhere but at the start of a pattern. -/
theorem parse_insert (hp : p ≠ []) (h : parse p = .ok tree) (hk : TokenBoundary p k)
    (hpos : 0 < k) : parse (p.take k ++ '(' :: ')' :: p.drop k) = .ok tree := by
  obtain ⟨tokens, n, htokens, hn, hderives⟩ := (parse_eq_ok_iff hp).mp h
  obtain ⟨p₁, p₂, x, y, rfl, rfl, hx, hy⟩ := hk.exists_append
  have hxy : tokens = x ++ y := by
    rw [tokenize, tokenizeFrom_append hx, Nat.zero_add, hy] at htokens
    exact (Except.ok.inj htokens).symm
  subst hxy
  obtain ⟨hopen, rfl⟩ := withoutEmptyGroups_eq_ok_iff.mp hn
  have hbalanced : Balanced ((x ++ y).map Token.symbol) := by
    rw [← balanced_withoutEmptyGroups hn, Balanced, ← level_connectOperands]
    exact hderives.balanced
  have hmore : (x ++ y).map Token.symbol ≠ [.opening, .closing] := by
    intro hsymbols
    have hleft : (remainder (x ++ y)).map Token.symbol =
        (remainder [⟨.opening, 0⟩, ⟨.closing, 1⟩]).map Token.symbol :=
      map_symbol_remainder (hsymbols.trans rfl)
    exact hderives.ne_nil (map_symbol_connectOperands hleft)
  have hxne : x ≠ [] := by
    rintro rfl
    rw [eq_nil_of_tokenizeFrom_eq_nil hx] at hpos
    exact Nat.lt_irrefl 0 hpos
  have hsymbols : (x ++ y.map (Token.shift 2)).map Token.symbol = (x ++ y).map Token.symbol := by
    rw [List.map_append, Token.map_symbol_shift, List.map_append]
  have hopen' : ¬ OpensEmpty (x ++ ⟨.opening, p₁.length⟩ :: ⟨.closing, p₁.length + 1⟩ ::
      y.map (Token.shift 2)) := fun h => by
    have hwithout := h.of_insert ⟨rfl, rfl⟩ hxne (hsymbols ▸ hbalanced) (hsymbols ▸ hmore)
    exact hopen (hwithout.congr hsymbols)
  rw [List.take_left, List.drop_left]
  refine (parse_eq_ok_iff (List.append_ne_nil_of_right_ne_nil _ (List.cons_ne_nil _ _))).mpr
    ⟨_, _, tokenize_insert hx hy, withoutEmptyGroups_eq_ok_iff.mpr ⟨hopen', rfl⟩, ?_⟩
  rwa [remainder_append_pair ⟨rfl, rfl⟩,
    map_symbol_connectOperands (map_symbol_remainder hsymbols)]

/-- **Erasing empty groups is exact.**  Whatever is erased first, the same tokens are left.  The scan
rejects the tokens that open with something empty and leaves this of all others, in their order and
at their positions.  So an empty group anywhere but at the start of an accepted pattern does not
change its tree. -/
theorem erasure_exact :
    (∀ w : List Token, (∃! n, NormalForm w n) ∧
      ((∃ k, withoutEmptyGroups w = .error ⟨.openingEmptyGroup, k⟩) ↔ OpensEmpty w) ∧
      (¬ OpensEmpty w → ∃ n, withoutEmptyGroups w = .ok n ∧ NormalForm w n ∧ n.Sublist w)) ∧
    ∀ p tree k, p ≠ [] → parse p = .ok tree → TokenBoundary p k → 0 < k →
      parse (p.take k ++ '(' :: ')' :: p.drop k) = .ok tree := by
  refine ⟨fun w => ⟨existsUnique_normalForm w, exists_error_iff_opensEmpty, fun hopen => ?_⟩,
    fun p tree k hp h hk hpos => parse_insert hp h hk hpos⟩
  have hleft := normalForm_remainder w
  exact ⟨remainder w, withoutEmptyGroups_eq_ok_iff.mpr ⟨hopen, rfl⟩, hleft, hleft.erased.sublist⟩

/-- `a())` opens with something empty, but the empty group in `(a())*` makes no difference. -/
theorem erasure_exact_group :
    (∃ k, withoutEmptyGroups [⟨.literal 'a', 0⟩, ⟨.opening, 1⟩, ⟨.closing, 2⟩, ⟨.closing, 3⟩] =
      .error ⟨.openingEmptyGroup, k⟩) ∧
    parse ['(', 'a', ')', '*'] = .ok (.node .star [.leaf 'a']) ∧
    TokenBoundary ['(', 'a', ')', '*'] 2 ∧
    parse ['(', 'a', '(', ')', ')', '*'] = .ok (.node .star [.leaf 'a']) := by
  obtain ⟨hexact, hinsert⟩ := erasure_exact
  have htokens : tokenize ['(', 'a', ')', '*'] =
      .ok [⟨.opening, 0⟩, ⟨.literal 'a', 1⟩, ⟨.closing, 2⟩, ⟨.operator .star, 3⟩] := by cbv
  have htree : parse ['(', 'a', ')', '*'] = .ok (.node .star [.leaf 'a']) := by
    have hderives : Derives .expression (.opening :: [.literal 'a'] ++ [.closing] ++
        [.operator .star]) (.node .star [.leaf 'a']) :=
      .term (.factor (.star (.atom (.group (.term (.factor (.atom (.literal 'a'))))))))
    have hread : readTokens ['(', 'a', ')', '*'] =
        .ok [⟨.opening, 0⟩, ⟨.literal 'a', 1⟩, ⟨.closing, 2⟩, ⟨.operator .star, 3⟩] := by cbv
    rw [parse, hread]
    exact (ofTokens_eq_ok_iff (List.cons_ne_nil _ _) _).mpr hderives
  have hboundary : TokenBoundary ['(', 'a', ')', '*'] 2 :=
    ⟨_, htokens, Or.inr ⟨⟨.closing, 2⟩, by simp, rfl⟩⟩
  refine ⟨(hexact _).2.1.mpr ?_, htree, hboundary,
    hinsert _ _ 2 (List.cons_ne_nil _ _) htree hboundary (by decide)⟩
  have hempty : NormalForm [⟨.opening, 1⟩, ⟨.closing, 2⟩] [] :=
    normalForm_nil_iff.mpr (erasesTo_nil_iff.mpr rfl)
  exact .behindFirst (b := ⟨.literal 'a', 0⟩) (c := ⟨.closing, 3⟩) (v := []) Symbol.noConfusion
    (List.cons_ne_nil _ _) hempty rfl

end PatternAutomata
