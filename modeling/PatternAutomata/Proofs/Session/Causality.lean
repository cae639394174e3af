import PatternAutomata.Proofs.Session.Dialogue

/-!
# What a session has written does not depend on what is still to come

A session reads line by line and answers every line before it reads the next one.  So if an input is
continued, everything is written that was written before, as far as the session got: up to the line
that told it to exit, or else up to the end of the input, where it has asked for another line and
has found none.  A line that is not text ends the session at this very place.

`Reads` tells what a session writes while it reads some lines, and what it is waiting for then.  The
lines of an input that are text are read in this sense, unless one of them exits (`exits_or_reads`).
This is also why such an input never makes a session fail: every pattern that compiles can be asked
about every word, and a session waits for words of such patterns only (`Phase.Faithful`).

* `respond_cases`: what a session makes of a line that is text.
* `Exits.runLines_append`: lines after the command to exit are not read.
* `Reads.runLines_append`: lines that were read are followed by whatever comes next.
* `run_causal`: inputs and their continuations.
-/

namespace PatternAutomata

namespace Session

variable {quiet : Bool} {phase next : Phase} {line input : List UInt8}
  {typed rest : List (List UInt8)} {output : String}

/-! ## Continued inputs -/

/-- An input that does not stop in the middle of a line. -/
def EndsLine (input : List UInt8) : Prop := input = [] ∨ input.getLast? = some 10

instance (input : List UInt8) : Decidable (EndsLine input) :=
  inferInstanceAs (Decidable (_ ∨ _))

theorem lines_ne_nil (h : input ≠ []) : lines input ≠ [] := by
  obtain ⟨b, rest, rfl⟩ := List.exists_cons_of_ne_nil h
  unfold lines
  split
  · exact List.cons_ne_nil _ _
  · split <;> exact List.cons_ne_nil _ _

/-- What comes after a whole number of lines is cut by itself. -/
theorem lines_append (h : EndsLine input) (more : List UInt8) :
    lines (input ++ more) = lines input ++ lines more := by
  induction input with
  | nil => rfl
  | cons b input ih =>
    rw [List.cons_append, lines, lines]
    by_cases hnil : input = []
    · subst hnil
      have hb : b = 10 := by simpa [EndsLine] using h
      rw [if_pos hb, if_pos hb]
      rfl
    · have hrest : EndsLine input := by
        unfold EndsLine at h ⊢
        rw [List.getLast?_cons_of_ne_nil hnil] at h
        exact Or.inr (h.resolve_left (List.cons_ne_nil _ _))
      rw [ih hrest]
      split
      · rfl
      · -- the line that is begun goes on in the input
        obtain ⟨l, ls, hlines⟩ := List.exists_cons_of_ne_nil (lines_ne_nil hnil)
        rw [hlines]
        rfl

/-- The bytes of a line are the encoding of a text. -/
def IsText (line : List UInt8) : Prop := line.toByteArray.IsValidUTF8

instance (line : List UInt8) : Decidable (IsText line) :=
  inferInstanceAs (Decidable line.toByteArray.IsValidUTF8)

theorem exists_decodeLine (h : IsText line) : ∃ text, decodeLine line = some text := by
  have hvalid : line.toByteArray.IsValidUTF8 := h
  unfold decodeLine String.fromUTF8?
  rw [dif_pos hvalid]
  exact ⟨_, rfl⟩

theorem decodeLine_eq_none (h : ¬ IsText line) : decodeLine line = none := by
  have hinvalid : ¬ line.toByteArray.IsValidUTF8 := h
  unfold decodeLine String.fromUTF8?
  rw [dif_neg hinvalid]
  rfl

/-! ## Reading one line -/

/-- Words are asked for only if all of them can be answered. -/
def Phase.Faithful : Phase → Prop
  | .pattern => True
  | .word c => c.Faithful

/-- **A line that is text exits or is answered**, and then the session waits for more. -/
theorem respond_cases (hphase : phase.Faithful) (hline : IsText line) (quiet : Bool) :
    (phase = .pattern ∧ decodeLine line = some ['e'] ∧ respond quiet phase line = .finish) ∨
    ∃ output next, respond quiet phase line = .proceed output next ∧ next.Faithful := by
  obtain ⟨text, htext⟩ := exists_decodeLine hline
  simp only [respond, htext]
  cases phase with
  | pattern =>
    by_cases hexit : text = ['e']
    · left
      simp only [respondToText, hexit, if_true, and_self]
    · right
      rcases Compiled.compile_cases text with ⟨e, -, herror⟩ | ⟨c, hc, -, -, hfaithful⟩
      · exact ⟨_, .pattern, by simp only [respondToText, if_neg hexit, herror]; rfl, trivial⟩
      · exact ⟨_, .word c, by simp only [respondToText, if_neg hexit, hc]; rfl, hfaithful⟩
  | word c =>
    right
    by_cases hstop : text = ['s']
    · exact ⟨_, .pattern, by simp only [respondToText, if_pos hstop]; rfl, trivial⟩
    · obtain ⟨b, hb, -⟩ := Compiled.Faithful.isMatch_spec hphase text
      exact ⟨_, .word c, by simp only [respondToText, if_neg hstop, hb]; rfl, hphase⟩

/-! ## Reading many lines -/

/-- One of some lines is the command to exit, read while the session waits for a pattern. -/
inductive Exits (quiet : Bool) : Phase → List (List UInt8) → Prop where
  | command {line : List UInt8} {rest : List (List UInt8)} :
      decodeLine line = some ['e'] → Exits quiet .pattern (line :: rest)
  | proceed {phase next : Phase} {line : List UInt8} {rest : List (List UInt8)} {output : String} :
      respond quiet phase line = .proceed output next → Exits quiet next rest →
      Exits quiet phase (line :: rest)

/-- All of some lines are answered.  What is written meanwhile, and what the session is waiting for
after that. -/
inductive Reads (quiet : Bool) : Phase → List (List UInt8) → String → Phase → Prop where
  | nil (phase : Phase) : Reads quiet phase [] "" phase
  | cons {phase next last : Phase} {line : List UInt8} {rest : List (List UInt8)}
      {output written : String} :
      respond quiet phase line = .proceed output next → Reads quiet next rest written last →
      Reads quiet phase (line :: rest) (phase.prompt ++ output ++ written) last

/-- **Lines that are text are all answered, unless one of them exits.** -/
theorem exits_or_reads (hphase : phase.Faithful) (htyped : ∀ line ∈ typed, IsText line)
    (quiet : Bool) :
    Exits quiet phase typed ∨ ∃ output next, Reads quiet phase typed output next := by
  induction typed generalizing phase with
  | nil => exact Or.inr ⟨"", phase, .nil phase⟩
  | cons line rest ih =>
    obtain ⟨hline, hrest⟩ := List.forall_mem_cons.mp htyped
    rcases respond_cases hphase hline quiet with ⟨rfl, hcommand, -⟩ | ⟨output, next, hreply, hnext⟩
    · exact Or.inl (.command hcommand)
    · rcases ih hnext hrest with hexits | ⟨written, last, hreads⟩
      · exact Or.inl (.proceed hreply hexits)
      · exact Or.inr ⟨_, last, .cons hreply hreads⟩

theorem runLines_command (h : decodeLine line = some ['e']) (rest : List (List UInt8)) :
    runLines quiet .pattern (line :: rest) = ⟨Phase.pattern.prompt, none⟩ := by
  simp only [runLines, respond, h, respondToText, if_true]

theorem runLines_reply (h : respond quiet phase line = .proceed output next)
    (rest : List (List UInt8)) :
    runLines quiet phase (line :: rest) =
      (runLines quiet next rest).after (phase.prompt ++ output) := by
  simp only [runLines, h]

/-- A line that is not text is not answered. -/
theorem runLines_not_text (h : ¬ IsText line) (rest : List (List UInt8)) :
    runLines quiet phase (line :: rest) = ⟨phase.prompt, some .invalidEncoding⟩ := by
  simp only [runLines, respond, decodeLine_eq_none h]

/-- A session asks for a line before anything else. -/
theorem exists_output_eq (quiet : Bool) (phase : Phase) (typed : List (List UInt8)) :
    ∃ written, (runLines quiet phase typed).output = phase.prompt ++ written := by
  cases typed with
  | nil => exact ⟨"\n", rfl⟩
  | cons line rest =>
    unfold runLines
    split
    · exact ⟨_, String.append_assoc⟩
    · exact ⟨"", String.append_empty.symm⟩
    · exact ⟨"", String.append_empty.symm⟩

namespace Exits

/-- **Lines after the command to exit are not read.** -/
theorem runLines_append (h : Exits quiet phase typed) (more : List (List UInt8)) :
    runLines quiet phase (typed ++ more) = runLines quiet phase typed := by
  induction h with
  | command hcommand =>
    rw [List.cons_append, runLines_command hcommand, runLines_command hcommand]
  | proceed hreply _ ih =>
    rw [List.cons_append, runLines_reply hreply, runLines_reply hreply, ih]

theorem failure_eq_none (h : Exits quiet phase typed) :
    (runLines quiet phase typed).failure = none := by
  induction h with
  | command hcommand => rw [runLines_command hcommand]
  | proceed hreply _ ih =>
    rw [runLines_reply hreply]
    exact ih

end Exits

namespace Reads

/-- **Lines that were read are followed by whatever comes next.** -/
theorem runLines_append (h : Reads quiet phase typed output next) (more : List (List UInt8)) :
    runLines quiet phase (typed ++ more) = (runLines quiet next more).after output := by
  induction h with
  | nil phase => simp only [List.nil_append, Transcript.after, String.empty_append]
  | cons hreply _ ih =>
    rw [List.cons_append, runLines_reply hreply, ih, Transcript.after_after]

/-- After them the input is at its end. -/
theorem runLines_eq (h : Reads quiet phase typed output next) :
    runLines quiet phase typed = ⟨output ++ next.prompt ++ "\n", none⟩ := by
  have hend := h.runLines_append []
  rw [List.append_nil] at hend
  rw [hend, String.append_assoc]
  rfl

end Reads

/-- Lines that are text never make a session fail. -/
theorem failure_runLines_eq_none (hphase : phase.Faithful) (htyped : ∀ line ∈ typed, IsText line)
    (quiet : Bool) : (runLines quiet phase typed).failure = none := by
  rcases exits_or_reads hphase htyped quiet with hexits | ⟨output, next, hreads⟩
  · exact hexits.failure_eq_none
  · rw [hreads.runLines_eq]

/-- **A session is causal.**  What follows the command to exit is not read.  If there is no such
command, the session writes a line feed at the end of its input, and when the input is continued
everything that came before this line feed is written again; if the continuation starts with a line
that is not text, this is all that is written and reading the line is what fails.  An input whose
lines are text never makes a session fail. -/
theorem run_causal (quiet : Bool) :
    (∀ input, EndsLine input → (∀ line ∈ lines input, IsText line) → ∀ more,
      (Exits quiet .pattern (lines input) → run quiet (input ++ more) = run quiet input) ∧
      (¬ Exits quiet .pattern (lines input) → ∃ shown,
        run quiet input = ⟨shown ++ "\n", none⟩ ∧
        (∃ written, (run quiet (input ++ more)).output = shown ++ written) ∧
        ∀ line rest, lines more = line :: rest → ¬ IsText line →
          run quiet (input ++ more) = ⟨shown, some .invalidEncoding⟩)) ∧
    ∀ input, (∀ line ∈ lines input, IsText line) → (run quiet input).failure = none := by
  have hpattern : Phase.Faithful .pattern := trivial
  refine ⟨fun input hends htext more => ?_, fun input htext =>
    failure_runLines_eq_none hpattern htext quiet⟩
  unfold run
  rw [lines_append hends]
  refine ⟨fun hexits => hexits.runLines_append _, fun hnot => ?_⟩
  obtain ⟨output, next, hreads⟩ := (exits_or_reads hpattern htext quiet).resolve_left hnot
  obtain ⟨written, hwritten⟩ := exists_output_eq quiet next (lines more)
  refine ⟨output ++ next.prompt, hreads.runLines_eq, ⟨written, ?_⟩, fun line rest hmore hline => ?_⟩
  · rw [hreads.runLines_append, Transcript.after, hwritten, String.append_assoc]
  · rw [hreads.runLines_append, hmore, runLines_not_text hline]
    rfl

/-- The empty pattern is typed, and then the letter `e`, as a word. -/
def letterAsWord : List UInt8 := [10, 101, 10]

/-- The same, and then the line that stops, so that the letter `e` is a command when it is typed
again. -/
def letterAsCommand : List UInt8 := letterAsWord ++ [115, 10, 101, 10]

theorem exists_respond_empty (quiet : Bool) : ∃ c, c.Faithful ∧
    respond quiet .pattern [] = .proceed (c.introduction quiet) (.word c) := by
  obtain ⟨c, hc, -⟩ := Compiled.exists_compile_of_parse (p := []) (t := .empty) rfl
  have htext : decodeLine [] = some [] := decodeLine_encode []
  refine ⟨c, Compiled.faithful_of_compile hc, ?_⟩
  have hexit : ([] : List Char) ≠ ['e'] := by decide
  simp only [respond, htext, respondToText, if_neg hexit, hc]

theorem respond_letter {c : Compiled} (h : c.Faithful) (quiet : Bool) :
    respond quiet (.word c) [101] = .proceed (c.answer ['e']) (.word c) := by
  have htext : decodeLine [101] = some ['e'] := decodeLine_encode ['e']
  have hstop : ['e'] ≠ ['s'] := by decide
  obtain ⟨b, hb, hanswer⟩ := h.exists_answer ['e']
  simp only [respond, htext, respondToText, if_neg hstop, hb, hanswer]

theorem not_exits_letterAsWord : ¬ Exits true .pattern (lines letterAsWord) := by
  obtain ⟨c, hfaithful, hempty⟩ := exists_respond_empty true
  have hlines : lines letterAsWord = [[], [101]] := by decide
  have htext : decodeLine [] = some [] := decodeLine_encode []
  rw [hlines]
  intro h
  cases h with
  | command hcommand =>
    rw [htext] at hcommand
    cases hcommand
  | proceed hreply hrest =>
    rw [hempty] at hreply
    cases hreply
    cases hrest with
    | proceed hreply hrest =>
      rw [respond_letter hfaithful] at hreply
      cases hreply
      cases hrest

theorem exits_letterAsCommand : Exits true .pattern (lines letterAsCommand) := by
  obtain ⟨c, hfaithful, hempty⟩ := exists_respond_empty true
  have hlines : lines letterAsCommand = [[], [101], [115], [101]] := by decide
  have hstop : decodeLine [115] = some ['s'] := decodeLine_encode ['s']
  have hreply : respond true (.word c) [115] = .proceed "\n" .pattern := by
    simp only [respond, hstop, respondToText, if_true]
  rw [hlines]
  exact .proceed hempty (.proceed (respond_letter hfaithful true) (.proceed hreply
    (.command (decodeLine_encode ['e']))))

/-- The letter `e` ends a session as a pattern and not as a word. -/
theorem run_causal_letter :
    (∃ shown, run true letterAsWord = ⟨shown ++ "\n", none⟩ ∧
      run true (letterAsWord ++ [255]) = ⟨shown, some .invalidEncoding⟩) ∧
    run true (letterAsCommand ++ [255]) = run true letterAsCommand ∧
    (run true letterAsCommand).failure = none := by
  obtain ⟨hcontinued, hfailure⟩ := run_causal true
  obtain ⟨-, hword⟩ := hcontinued letterAsWord (by decide) (by decide) [255]
  obtain ⟨hcommand, -⟩ := hcontinued letterAsCommand (by decide) (by decide) [255]
  obtain ⟨shown, hshown, -, hread⟩ := hword not_exits_letterAsWord
  exact ⟨⟨shown, hshown, hread [255] [] (by decide) (by decide)⟩, hcommand exits_letterAsCommand,
    hfailure letterAsCommand (by decide)⟩

end Session

end PatternAutomata
