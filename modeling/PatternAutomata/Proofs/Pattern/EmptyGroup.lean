import PatternAutomata.Proofs.Pattern.Erasure
import PatternAutomata.Proofs.Pattern.Token

/-!
# Erasing empty groups in parts of a text

The scan that erases empty groups keeps the tokens it has passed, and goes back over them when a
group has become empty.  It never goes further back than to the token before that group.  So if a
part of a text can be scanned on its own and leaves something, it is scanned in the same way behind
other tokens (`eraseEmptyGroups_append`), and a part in parentheses is scanned on its own whatever
stands around it (`eraseEmptyGroups_enclose`).

Erasing an empty group changes nothing about which groups are open (`level_eraseEmptyGroups`).  This
is why the parentheses around a part do not come to form an empty group with its own.
-/

namespace PatternAutomata

variable {before after tokens w rest : List Token} {b t u v : Token}

/-! ## Steps of the scan -/

theorem eraseEmptyGroups_nil (before : List Token) :
    eraseEmptyGroups before [] = .ok before.reverse := by
  rw [eraseEmptyGroups]

theorem eraseEmptyGroups_singleton (before : List Token) (t : Token) :
    eraseEmptyGroups before [t] = .ok (before.reverse ++ [t]) := by
  rw [eraseEmptyGroups]

/-- Tokens that are no empty group are passed. -/
theorem eraseEmptyGroups_pass (h : ¬ (t.symbol = .opening ∧ u.symbol = .closing)) :
    eraseEmptyGroups before (t :: u :: rest) = eraseEmptyGroups (t :: before) (u :: rest) := by
  rw [eraseEmptyGroups.eq_def]
  simp only [if_neg h]

/-- The scan ends with an empty group that nothing follows. -/
theorem eraseEmptyGroups_last (h : t.symbol = .opening ∧ u.symbol = .closing) :
    eraseEmptyGroups before [t, u] = .ok before.reverse := by
  rw [eraseEmptyGroups.eq_def]
  simp only [if_pos h]

/-- Nothing stands before an empty group to go on from. -/
theorem eraseEmptyGroups_first (h : t.symbol = .opening ∧ u.symbol = .closing) :
    eraseEmptyGroups [] (t :: u :: v :: rest) = .error ⟨.openingEmptyGroup, t.position⟩ := by
  rw [eraseEmptyGroups.eq_def]
  simp only [if_pos h]

/-- Nothing stands before the token to go back to. -/
theorem eraseEmptyGroups_second (h : t.symbol = .opening ∧ u.symbol = .closing)
    (hv : v.symbol = .closing) :
    eraseEmptyGroups [b] (t :: u :: v :: rest) = .error ⟨.openingEmptyGroup, t.position⟩ := by
  rw [eraseEmptyGroups.eq_def]
  simp only [if_pos h, if_pos hv, if_true]

/-- A closing parenthesis behind an empty group takes the scan back by one token. -/
theorem eraseEmptyGroups_back (h : t.symbol = .opening ∧ u.symbol = .closing)
    (hv : v.symbol = .closing) (hbefore : before ≠ []) :
    eraseEmptyGroups (b :: before) (t :: u :: v :: rest) =
      eraseEmptyGroups before (b :: v :: rest) := by
  rw [eraseEmptyGroups.eq_def]
  simp only [if_pos h, if_pos hv, if_neg hbefore]

/-- Behind other empty groups the scan goes on. -/
theorem eraseEmptyGroups_skip (h : t.symbol = .opening ∧ u.symbol = .closing)
    (hv : v.symbol ≠ .closing) :
    eraseEmptyGroups (b :: before) (t :: u :: v :: rest) =
      eraseEmptyGroups (b :: before) (v :: rest) := by
  rw [eraseEmptyGroups.eq_def]
  simp only [if_pos h, if_neg hv]

/-- Only an opening parenthesis can begin an empty group. -/
theorem eraseEmptyGroups_cons (ht : t.symbol ≠ .opening) :
    eraseEmptyGroups before (t :: rest) = eraseEmptyGroups (t :: before) rest := by
  cases rest with
  | nil => rw [eraseEmptyGroups_singleton, eraseEmptyGroups_nil, List.reverse_cons]
  | cons u rest => exact eraseEmptyGroups_pass fun h => ht h.1

/-- Going back to a token that opens no group makes no difference. -/
theorem eraseEmptyGroups_pair (h : t.symbol = .opening ∧ u.symbol = .closing)
    (hb : b.symbol ≠ .opening) (hbefore : before ≠ []) :
    eraseEmptyGroups (b :: before) (t :: u :: v :: rest) =
      eraseEmptyGroups (b :: before) (v :: rest) := by
  by_cases hv : v.symbol = .closing
  · rw [eraseEmptyGroups_back h hv hbefore, eraseEmptyGroups_cons hb]
  · exact eraseEmptyGroups_skip h hv

/-! ## What the scan keeps -/

/-- The scan looks at symbols only, and takes the tokens along wherever they stand. -/
theorem eraseEmptyGroups_shift (h : eraseEmptyGroups before after = .ok w) (k : Nat) :
    eraseEmptyGroups (before.map (Token.shift k)) (after.map (Token.shift k)) =
      .ok (w.map (Token.shift k)) := by
  fun_induction eraseEmptyGroups before after with
  | case1 before =>
    cases h
    rw [List.map_nil, eraseEmptyGroups_nil, List.map_reverse]
  | case2 before t =>
    cases h
    rw [List.map_singleton, eraseEmptyGroups_singleton, List.map_append, List.map_reverse,
      List.map_singleton]
  | case3 before t u hpair =>
    cases h
    rw [List.map_reverse]
    exact eraseEmptyGroups_last hpair
  | case4 t u hpair | case5 t u hpair v rest b hv => cases h
  | case6 t u hpair v rest b before hv hbefore ih =>
    rw [← ih h]
    exact eraseEmptyGroups_back hpair hv (List.map_eq_nil_iff.not.mpr hbefore)
  | case7 t u hpair v rest b before hv ih =>
    rw [← ih h]
    exact eraseEmptyGroups_skip hpair hv
  | case8 before t u rest hpair ih =>
    rw [← ih h]
    exact eraseEmptyGroups_pass hpair

/-- A step of the scan erases an empty group or none. -/
theorem erasesTo_of_eraseEmptyGroups (h : eraseEmptyGroups before after = .ok w) :
    ErasesTo (before.reverse ++ after) w := by
  fun_induction eraseEmptyGroups before after with
  | case1 before =>
    cases h
    rw [List.append_nil]
    exact .refl _
  | case2 before t =>
    cases h
    exact .refl _
  | case3 before t u hpair =>
    cases h
    exact .of_pair hpair (by rw [List.append_nil]; exact .refl _)
  | case4 t u hpair | case5 t u hpair v rest b hv => cases h
  | case6 t u hpair v rest b before hv hbefore ih =>
    refine .of_pair hpair ?_
    rw [List.reverse_cons, List.append_assoc]
    exact ih h
  | case7 t u hpair v rest b before hv ih => exact .of_pair hpair (ih h)
  | case8 before t u rest hpair ih =>
    have hrest := ih h
    rwa [List.reverse_cons, List.append_assoc] at hrest

/-- **Erasing keeps what is open.** -/
theorem level_eraseEmptyGroups (h : eraseEmptyGroups before after = .ok w) (d : Nat) :
    level d (w.map Token.symbol) = level d ((before.reverse ++ after).map Token.symbol) :=
  ((erasesTo_of_eraseEmptyGroups h).level_eq d).symm

theorem balanced_withoutEmptyGroups (h : withoutEmptyGroups tokens = .ok w) :
    Balanced (w.map Token.symbol) ↔ Balanced (tokens.map Token.symbol) := by
  rw [Balanced, level_eraseEmptyGroups h 0, Balanced]
  rfl

/-! ## Parts of a text -/

/-- **A part is scanned behind other tokens as it is on its own**, up to its end.  It has to leave
something there that does not open a group. -/
theorem eraseEmptyGroups_append (h : eraseEmptyGroups before after = .ok (w ++ [t]))
    (ht : t.symbol ≠ .opening) {context : List Token} (hcontext : context ≠ []) (v : Token)
    (rest : List Token) :
    eraseEmptyGroups (before ++ context) (after ++ v :: rest) =
      eraseEmptyGroups (t :: w.reverse ++ context) (v :: rest) := by
  have hend : ∀ before : List Token, before.reverse = w ++ [t] → before = t :: w.reverse :=
    fun before h => by rw [← List.reverse_reverse before, h, List.reverse_append]; rfl
  fun_induction eraseEmptyGroups before after with
  | case1 before =>
    rw [hend before (Except.ok.inj h)]
    rfl
  | case2 before u =>
    obtain ⟨rfl, hu⟩ := List.append_inj' (Except.ok.inj h) rfl
    cases hu
    rw [List.reverse_reverse]
    exact eraseEmptyGroups_cons ht
  | case3 before u u' hpair =>
    -- the group ends the part but not the text
    rw [hend before (Except.ok.inj h)]
    exact eraseEmptyGroups_pair hpair ht (List.append_ne_nil_of_right_ne_nil _ hcontext)
  | case4 u u' hpair | case5 u u' hpair v' rest' b hv => cases h
  | case6 u u' hpair v' rest' b before hv hbefore ih =>
    rw [← ih h]
    exact eraseEmptyGroups_back hpair hv (List.append_ne_nil_of_left_ne_nil hbefore _)
  | case7 u u' hpair v' rest' b before hv ih =>
    rw [← ih h]
    exact eraseEmptyGroups_skip hpair hv
  | case8 before u u' rest' hpair ih =>
    rw [← ih h]
    exact eraseEmptyGroups_pass hpair

/-- **A part in parentheses is scanned on its own.** -/
theorem eraseEmptyGroups_enclose (h : withoutEmptyGroups tokens = .ok w) (hw : w ≠ [])
    (hbalanced : Balanced (w.map Token.symbol)) (k length : Nat) (before rest : List Token) :
    eraseEmptyGroups before (Token.enclose k length tokens ++ rest) =
      eraseEmptyGroups ((Token.enclose k length w).reverse ++ before) rest := by
  have hbalanced' := (balanced_withoutEmptyGroups h).mp hbalanced
  have hshift := eraseEmptyGroups_shift h (k + 1)
  obtain rfl | ⟨w, t, rfl⟩ := List.eq_nil_or_concat' w
  · exact absurd rfl hw
  cases tokens with
  | nil =>
    rw [withoutEmptyGroups, eraseEmptyGroups_nil] at h
    cases w <;> cases h
  | cons u tokens =>
    rw [List.map_append] at hbalanced hshift
    have hopening : ¬ ((⟨.opening, k⟩ : Token).symbol = .opening ∧
        (u.shift (k + 1)).symbol = .closing) := fun h => hbalanced'.head_ne h.2
    have hinside := eraseEmptyGroups_append hshift hbalanced.last_ne
      (List.cons_ne_nil ⟨.opening, k⟩ before) ⟨.closing, k + 1 + length⟩ rest
    calc eraseEmptyGroups before (Token.enclose k length (u :: tokens) ++ rest)
      _ = eraseEmptyGroups (⟨.opening, k⟩ :: before)
          ((u :: tokens).map (Token.shift (k + 1)) ++ ⟨.closing, k + 1 + length⟩ :: rest) := by
        rw [Token.enclose, List.append_assoc]
        exact eraseEmptyGroups_pass hopening
      _ = eraseEmptyGroups (t.shift (k + 1) :: (w.map (Token.shift (k + 1))).reverse ++
          ⟨.opening, k⟩ :: before) (⟨.closing, k + 1 + length⟩ :: rest) := hinside
      _ = eraseEmptyGroups ((Token.enclose k length (w ++ [t])).reverse ++ before) rest := by
        rw [eraseEmptyGroups_cons Symbol.noConfusion]
        simp [Token.enclose]

end PatternAutomata
