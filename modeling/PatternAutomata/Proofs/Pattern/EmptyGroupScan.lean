import PatternAutomata.Proofs.Pattern.EmptyGroup

/-!
# What the scan for empty groups finds

The scan that erases empty groups either arrives at the normal form or rejects the tokens.

* What it leaves is the normal form (`normalForm_of_withoutEmptyGroups`), because no empty group is
  ever among the tokens it has passed.
* It rejects the tokens that open with something empty (`exists_error_iff_opensEmpty`), for lack of
  tokens to go on from: one behind the other, and a second one if a closing parenthesis follows.

If the scan stops at an empty group near the front of what it has made of the tokens, whatever was
erased before it was empty too, and so the tokens already opened with something empty.  In the other
direction, whatever vanishes is scanned down to a single empty group
(`exists_emptyPair_of_nested`), which then stands too near to the front.
-/

namespace PatternAutomata

open Relation (ReflTransGen)

variable {tokens w n u v before after rest : List Token} {b c t s : Token} {e : PatternError}

/-! ## What is left -/

/-- **No empty group is among the tokens that the scan has passed**, together with the one it has
reached. -/
theorem clean_of_eraseEmptyGroups (h : eraseEmptyGroups before after = .ok w)
    (hclean : (after.take 1 ++ before).IsChain fun u t => ¬ EmptyPair t u) : Clean w := by
  fun_induction eraseEmptyGroups before after with
  | case1 before =>
    cases h
    exact List.isChain_reverse.mpr hclean
  | case2 before t =>
    cases h
    rw [← List.reverse_cons]
    exact List.isChain_reverse.mpr hclean
  | case3 before t u hpair =>
    cases h
    exact List.isChain_reverse.mpr hclean.tail
  | case4 t u hpair | case5 t u hpair v rest b hv => cases h
  | case6 t u hpair v rest b before hv hbefore ih => exact ih h hclean.tail
  | case7 t u hpair v rest b before hv ih =>
    exact ih h (List.isChain_cons_cons.mpr ⟨fun hbv => hv hbv.2, hclean.tail⟩)
  | case8 before t u rest hpair ih =>
    exact ih h (List.isChain_cons_cons.mpr ⟨hpair, hclean⟩)

/-- **What the scan leaves is the normal form.** -/
theorem normalForm_of_withoutEmptyGroups (h : withoutEmptyGroups tokens = .ok w) :
    NormalForm tokens w := by
  refine ⟨erasesTo_of_eraseEmptyGroups h, clean_iff.mp (clean_of_eraseEmptyGroups h ?_)⟩
  rcases tokens with _ | ⟨t, tokens⟩
  · exact List.isChain_nil
  · exact List.isChain_singleton t

/-! ## What is rejected -/

/-- Tokens that open with something empty: at their beginning, unless nothing else is written, or
behind a first token and before a closing parenthesis. -/
inductive OpensEmpty : List Token → Prop where
  | beginning {u v : List Token} (hne : u ≠ []) (hempty : NormalForm u [])
      (hmore : (u ++ v).map Token.symbol ≠ [.opening, .closing]) : OpensEmpty (u ++ v)
  | behindFirst {b c : Token} {u v : List Token} (hb : b.symbol ≠ .opening) (hne : u ≠ [])
      (hempty : NormalForm u []) (hc : c.symbol = .closing) : OpensEmpty (b :: (u ++ c :: v))

/-- The symbols decide whether tokens open with something empty. -/
theorem OpensEmpty.congr (h : OpensEmpty w) (hw : w.map Token.symbol = n.map Token.symbol) :
    OpensEmpty n := by
  have hvanish : ∀ {u u' : List Token}, u'.map Token.symbol = u.map Token.symbol →
      u ≠ [] → NormalForm u [] → u' ≠ [] ∧ NormalForm u' [] := by
    intro u u' hsymbols hne hempty
    rw [normalForm_nil_iff, erasesTo_nil_iff] at hempty ⊢
    have hleft := map_symbol_remainder hsymbols
    rw [hempty] at hleft
    refine ⟨?_, List.map_eq_nil_iff.mp hleft⟩
    rintro rfl
    exact hne (List.map_eq_nil_iff.mp hsymbols.symm)
  cases h with
  | @beginning u v hne hempty hmore =>
    have hcut := hw.symm
    rw [List.map_append] at hcut
    obtain ⟨u', v', rfl, hu, hv⟩ := List.map_eq_append_iff.mp hcut
    obtain ⟨hne', hempty'⟩ := hvanish hu hne hempty
    exact .beginning hne' hempty' (hw ▸ hmore)
  | @behindFirst b c u v hb hne hempty hc =>
    obtain ⟨b', n, rfl, hb', hcut⟩ := List.map_eq_cons_iff.mp hw.symm
    rw [List.map_append] at hcut
    obtain ⟨u', n, rfl, hu, hcut⟩ := List.map_eq_append_iff.mp hcut
    obtain ⟨c', v', rfl, hc', -⟩ := List.map_eq_cons_iff.mp hcut
    obtain ⟨hne', hempty'⟩ := hvanish hu hne hempty
    exact .behindFirst (hb' ▸ hb) hne' hempty' (hc'.trans hc)

/-- Tokens that come to open with something empty opened with something empty before. -/
theorem OpensEmpty.of_erasesTo (hw : ErasesTo w (u ++ v)) (hne : u ≠ []) (hu : ErasesTo u [])
    (hlength : 2 < (u ++ v).length) : OpensEmpty w := by
  have hmore : 2 < w.length := hlength.trans_le hw.sublist.length_le
  obtain ⟨u', v', rfl, hu', -⟩ := exists_of_erasesTo_append hw
  refine .beginning ?_ (normalForm_nil_iff.mpr (hu'.trans hu)) fun hsymbols => ?_
  · rintro rfl
    exact hne (List.sublist_nil.mp hu'.sublist)
  · have hlength' := congrArg List.length hsymbols
    rw [List.length_map] at hlength'
    exact hmore.ne hlength'.symm

/-- The same with something empty behind a first token.  If that token is an opening parenthesis, it
closes in front of what follows, and all of this is empty. -/
theorem OpensEmpty.of_erasesTo_cons (hw : ErasesTo w (b :: (u ++ c :: v))) (hne : u ≠ [])
    (hu : ErasesTo u []) (hc : c.symbol = .closing) : OpensEmpty w := by
  have hlength : 0 < u.length := List.length_pos_iff.mpr hne
  by_cases hb : b.symbol = .opening
  · have hfront : ErasesTo (b :: (u ++ [c])) [] :=
      ((hu.append (.refl [c])).cons b).trans (ReflTransGen.single (.pair [] [] ⟨hb, hc⟩))
    refine .of_erasesTo (v := v) (by simpa using hw) (List.cons_ne_nil b _) hfront ?_
    simp
    omega
  · obtain ⟨x, y, rfl, hx, hy⟩ := exists_of_erasesTo_append_cons (x := []) hw
    rcases x with _ | ⟨s, x⟩
    · obtain ⟨u', v', rfl, hu', -⟩ := exists_of_erasesTo_append_cons hy
      refine .behindFirst hb ?_ (normalForm_nil_iff.mpr (hu'.trans hu)) hc
      rintro rfl
      exact hne (List.sublist_nil.mp hu'.sublist)
    · -- what stood before the first token was empty already
      refine .beginning (List.cons_ne_nil s x) (normalForm_nil_iff.mpr hx) fun hsymbols => ?_
      have hmore : (u ++ c :: v).length ≤ y.length := hy.sublist.length_le
      have htwo := congrArg List.length hsymbols
      simp only [List.map_append, List.map_cons, List.length_append, List.length_cons,
        List.length_map, List.length_nil] at hmore htwo
      omega

theorem opensEmpty_of_eq_error (h : eraseEmptyGroups before after = .error e)
    (hw : ErasesTo w (before.reverse ++ after)) : OpensEmpty w := by
  fun_induction eraseEmptyGroups before after with
  | case1 before | case2 before t | case3 before t u hpair => cases h
  | case4 t u hpair v rest =>
    exact .of_erasesTo (u := [t, u]) hw (List.cons_ne_nil t [u])
      (ReflTransGen.single (.pair [] [] hpair)) (by simp)
  | case5 t u hpair v rest b hv =>
    exact .of_erasesTo_cons (u := [t, u]) hw (List.cons_ne_nil t [u])
      (ReflTransGen.single (.pair [] [] hpair)) hv
  | case6 t u hpair v rest b before hv hbefore ih =>
    refine ih h (hw.trans (.of_pair hpair ?_))
    rw [List.reverse_cons, List.append_assoc]
    exact .refl _
  | case7 t u hpair v rest b before hv ih => exact ih h (hw.trans (.of_pair hpair (.refl _)))
  | case8 before t u rest hpair ih =>
    refine ih h ?_
    rwa [List.reverse_cons, List.append_assoc]

/-- The scan rejects tokens at an empty group only. -/
theorem exists_of_eraseEmptyGroups_eq_error (h : eraseEmptyGroups before after = .error e) :
    ∃ t ∈ before ++ after, t.symbol = .opening ∧ e = ⟨.openingEmptyGroup, t.position⟩ := by
  fun_induction eraseEmptyGroups before after with
  | case1 before | case2 before t | case3 before t u hpair => cases h
  | case4 t u hpair | case5 t u hpair v rest b hv =>
    cases h
    exact ⟨t, by simp, hpair.1, rfl⟩
  | case6 t u hpair v rest b before hv hbefore ih | case7 t u hpair v rest b before hv ih
    | case8 before t u rest hpair ih =>
    obtain ⟨s, hs, hsymbol, he⟩ := ih h
    refine ⟨s, ?_, hsymbol, he⟩
    simp only [List.mem_append, List.mem_cons] at hs ⊢
    tauto

/-- A token before what vanishes is passed. -/
theorem eraseEmptyGroups_pass_nested (h : Nested u) (hne : u ≠ []) (before rest : List Token)
    (t : Token) :
    eraseEmptyGroups before (t :: (u ++ rest)) = eraseEmptyGroups (t :: before) (u ++ rest) := by
  rcases u with _ | ⟨s, u⟩
  · exact absurd rfl hne
  · exact eraseEmptyGroups_pass fun hts => Symbol.noConfusion (h.head_symbol.symm.trans hts.2)

/-- **What vanishes is scanned down to one empty group**, whatever stands before it. -/
theorem exists_emptyPair_of_nested (h : Nested u) (hne : u ≠ []) (before : List Token) (c : Token)
    (rest : List Token) : ∃ t s, EmptyPair t s ∧
      eraseEmptyGroups before (u ++ c :: rest) = eraseEmptyGroups before (t :: s :: c :: rest) := by
  induction h generalizing before c rest with
  | nil => exact absurd rfl hne
  | @group o p inside behind hpair hinside hbehind ihinside ihbehind =>
    -- the group, with one token behind it
    have hgroup : ∀ d tail, ∃ t s, EmptyPair t s ∧
        eraseEmptyGroups before (o :: (inside ++ p :: d :: tail)) =
          eraseEmptyGroups before (t :: s :: d :: tail) := by
      intro d tail
      by_cases hne' : inside = []
      · subst hne'
        exact ⟨o, p, hpair, rfl⟩
      · obtain ⟨t, s, hts, hscan⟩ := ihinside hne' (o :: before) p (d :: tail)
        rw [eraseEmptyGroups_pass_nested hinside hne', hscan]
        rcases before with _ | ⟨b, before⟩
        · exact ⟨t, s, hts, by rw [eraseEmptyGroups_second hts hpair.2, eraseEmptyGroups_first hts]⟩
        · exact ⟨o, p, hpair, eraseEmptyGroups_back hts hpair.2 (List.cons_ne_nil b before)⟩
    rcases behind with _ | ⟨d, behind⟩
    · rw [List.cons_append, List.append_assoc]
      exact hgroup c rest
    · obtain ⟨t, s, hts, hscan⟩ := hgroup d (behind ++ c :: rest)
      have hcut : o :: (inside ++ p :: d :: behind) ++ c :: rest =
          o :: (inside ++ p :: d :: (behind ++ c :: rest)) := by simp
      rw [hcut, hscan]
      rcases before with _ | ⟨b, before⟩
      · exact ⟨t, s, hts, by rw [eraseEmptyGroups_first hts, eraseEmptyGroups_first hts]⟩
      · have hd : d.symbol ≠ .closing := fun h =>
          Symbol.noConfusion (hbehind.head_symbol.symm.trans h)
        rw [eraseEmptyGroups_skip hts hd]
        exact ihbehind (List.cons_ne_nil d behind) (b :: before) c rest

theorem eq_error_of_opensEmpty (h : OpensEmpty w) :
    ∃ k, withoutEmptyGroups w = .error ⟨.openingEmptyGroup, k⟩ := by
  cases h with
  | @beginning u v hne hempty hmore =>
    have hnested := nested_of_erasesTo hempty.erased
    have hfront : ∀ {x : List Token}, Nested x → x ≠ [] → ∀ c rest,
        ∃ k, withoutEmptyGroups (x ++ c :: rest) = .error ⟨.openingEmptyGroup, k⟩ := by
      intro x hx hne c rest
      obtain ⟨t, s, hts, hscan⟩ := exists_emptyPair_of_nested hx hne [] c rest
      exact ⟨t.position, by rw [withoutEmptyGroups, hscan, eraseEmptyGroups_first hts]⟩
    rcases v with _ | ⟨c, rest⟩
    · rw [List.append_nil] at hmore ⊢
      cases hnested with
      | nil => exact absurd rfl hne
      | @group o p inside behind hpair hinside hbehind =>
        rcases behind with _ | ⟨d, behind⟩
        · -- something empty in one pair of parentheses
          have hne' : inside ≠ [] := by
            rintro rfl
            refine hmore ?_
            rw [List.nil_append, List.map_cons, List.map_cons, hpair.1, hpair.2, List.map_nil]
          obtain ⟨t, s, hts, hscan⟩ := exists_emptyPair_of_nested hinside hne' [o] p []
          exact ⟨t.position, by rw [withoutEmptyGroups, eraseEmptyGroups_pass_nested hinside hne',
            hscan, eraseEmptyGroups_second hts hpair.2]⟩
        · have hcut : o :: (inside ++ p :: d :: behind) = o :: (inside ++ [p]) ++ d :: behind := by
            simp
          rw [hcut]
          exact hfront (.group hpair hinside .nil) (List.cons_ne_nil o _) d behind
    · exact hfront hnested hne c rest
  | @behindFirst b c u v hb hne hempty hc =>
    obtain ⟨t, s, hts, hscan⟩ :=
      exists_emptyPair_of_nested (nested_of_erasesTo hempty.erased) hne [b] c v
    exact ⟨t.position, by
      rw [withoutEmptyGroups, eraseEmptyGroups_cons hb, hscan, eraseEmptyGroups_second hts hc]⟩

/-- **The scan rejects exactly the tokens that open with something empty.** -/
theorem exists_error_iff_opensEmpty :
    (∃ k, withoutEmptyGroups w = .error ⟨.openingEmptyGroup, k⟩) ↔ OpensEmpty w :=
  ⟨fun ⟨_, h⟩ => opensEmpty_of_eq_error h (.refl w), eq_error_of_opensEmpty⟩

/-- All other tokens are brought to their normal form. -/
theorem withoutEmptyGroups_eq_ok_iff : withoutEmptyGroups w = .ok n ↔
    ¬ OpensEmpty w ∧ n = remainder w := by
  constructor
  · intro h
    refine ⟨fun hopen => ?_, (normalForm_of_withoutEmptyGroups h).eq_remainder⟩
    obtain ⟨k, hk⟩ := exists_error_iff_opensEmpty.mpr hopen
    rw [h] at hk
    cases hk
  · rintro ⟨hopen, rfl⟩
    cases h : withoutEmptyGroups w with
    | error e => exact absurd (opensEmpty_of_eq_error h (.refl w)) hopen
    | ok n => rw [(normalForm_of_withoutEmptyGroups h).eq_remainder]

end PatternAutomata
