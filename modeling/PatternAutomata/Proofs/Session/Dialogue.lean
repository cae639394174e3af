import Mathlib.Data.List.DropRight
import PatternAutomata.Proofs.Compiled
import PatternAutomata.Proofs.Session.Lines

/-!
# A session is one evaluation after the other

In a session patterns and words come in line by line, and what is written about them is mixed with
prompts.  An evaluation gets a pattern and all its words at once.  What is typed for one pattern is
a `Block`: the line with the pattern and, if it compiles, lines with words and a line that stops.
What the session writes meanwhile is told by the evaluation of that pattern on these words alone
(`Block.dialogue`), so nothing is left of a pattern when the next one is typed.

The last lines that an evaluation writes are its verdicts, one for each word.  Before each of them
the session has asked for the word (`promptLast`).

* `runLines_word`: a session that matches words, up to the line that stops it.
* `runLines_block`: what is written while a block is read, whatever follows it.
* `run_eq_dialogues`: whole sessions.
-/

namespace PatternAutomata

/-! ## The lines of a text -/

/-- The lines of a text, with the line feeds that end them. -/
def textLines : List Char → List (List Char)
  | [] => []
  | c :: rest =>
    if c = '\n' then [c] :: textLines rest
    else
      match textLines rest with
      | [] => [[c]]
      | l :: ls => (c :: l) :: ls

/-- A text that ends with a line feed, unless it is empty. -/
def Terminated (text : List Char) : Prop := ∀ c, text.getLast? = some c → c = '\n'

/-- A text that is one line, with the line feed that ends it. -/
def IsLine (text : List Char) : Prop := ∃ body, '\n' ∉ body ∧ text = body ++ ['\n']

variable {u v : List Char}

theorem flatten_textLines (u : List Char) : (textLines u).flatten = u := by
  induction u with
  | nil => rfl
  | cons c u ih =>
    rw [textLines]
    split
    · rw [List.flatten_cons, ih]
      rfl
    · cases hlines : textLines u with
      | nil =>
        rw [hlines] at ih
        rw [← ih]
        rfl
      | cons l ls =>
        rw [hlines, List.flatten_cons] at ih
        rw [List.flatten_cons, List.cons_append, ih]

theorem textLines_append (hu : Terminated u) (v : List Char) :
    textLines (u ++ v) = textLines u ++ textLines v := by
  induction u with
  | nil => rfl
  | cons c u ih =>
    have hrest : Terminated u := fun x hx => hu x (by rw [List.getLast?_cons, hx]; rfl)
    rw [List.cons_append, textLines, textLines, ih hrest]
    by_cases hc : c = '\n'
    · rw [if_pos hc, if_pos hc, List.cons_append]
    · rw [if_neg hc, if_neg hc]
      -- the line goes on, so it cannot be the last one
      cases hlines : textLines u with
      | nil =>
        have hnil : u = [] := by rw [← flatten_textLines u, hlines]; rfl
        exact absurd (hu c (by rw [hnil]; rfl)) hc
      | cons l ls => rfl

theorem textLines_line_append (hu : IsLine u) (v : List Char) :
    textLines (u ++ v) = u :: textLines v := by
  obtain ⟨body, hbody, rfl⟩ := hu
  induction body with
  | nil => rfl
  | cons c body ih =>
    rw [List.mem_cons, not_or] at hbody
    rw [List.cons_append, List.cons_append, textLines, if_neg (Ne.symm hbody.1), ih hbody.2]

/-- A text in which something has been put in front of each of the last lines. -/
def promptLast (prompt : String) (n : Nat) (text : String) : String :=
  let lines := textLines text.toList
  String.ofList ((lines.rdrop n).flatten ++ (lines.rtake n).flatMap fun l => prompt.toList ++ l)

theorem textLines_join {answers : List String} (h : ∀ s ∈ answers, IsLine s.toList) :
    textLines (String.join answers).toList = answers.map String.toList := by
  induction answers with
  | nil => rfl
  | cons s answers ih =>
    obtain ⟨hs, hanswers⟩ := List.forall_mem_cons.mp h
    rw [String.join_cons, String.toList_append, textLines_line_append hs, ih hanswers,
      List.map_cons]

/-- Prompts can be put between lines that are written one by one at the end of a text. -/
theorem promptLast_append {intro : String} {answers : List String} (prompt : String)
    (hintro : Terminated intro.toList) (h : ∀ s ∈ answers, IsLine s.toList) :
    promptLast prompt answers.length (intro ++ String.join answers) =
      intro ++ String.join (answers.map fun s => prompt ++ s) := by
  have hlines : textLines (intro ++ String.join answers).toList =
      textLines intro.toList ++ answers.map String.toList := by
    rw [String.toList_append, textLines_append hintro, textLines_join h]
  have hlength : answers.length = (answers.map String.toList).length := by rw [List.length_map]
  have hlast : (textLines intro.toList ++ answers.map String.toList).rtake answers.length =
      answers.map String.toList := by
    rw [List.rtake, List.length_append, ← hlength, Nat.add_sub_cancel, List.drop_left]
  rw [promptLast, hlines, hlast, hlength, List.rdrop_append_length, flatten_textLines,
    List.flatMap_map, ← String.toList_inj, String.toList_ofList, String.toList_append,
    String.toList_join, List.flatMap_map]
  simp only [String.toList_append]

/-! ## What an evaluation writes -/

theorem Transcript.after_after (t : Transcript) (u v : String) :
    (t.after v).after u = t.after (u ++ v) := by
  rw [after, after, after, String.append_assoc]

theorem isLine_verdict (b : Bool) : IsLine (verdict b).toList := by
  cases b with
  | true => exact ⟨"# true".toList, by decide, rfl⟩
  | false => exact ⟨"# false".toList, by decide, rfl⟩

namespace Compiled

variable {p : List Char} {c : Compiled} {e : CompileError} {quiet : Bool}

theorem terminated_introduction (quiet : Bool) (c : Compiled) :
    Terminated (c.introduction quiet).toList := by
  cases quiet with
  | true => exact fun x hx => by cases hx
  | false =>
    -- the section of the last stage is followed by an empty line
    obtain ⟨text, htext⟩ : ∃ text, c.introduction false = text ++ "\n" :=
      ⟨_, String.append_assoc.symm⟩
    intro x hx
    rw [htext, String.toList_append] at hx
    exact (Option.some.inj (List.getLast?_concat.symm.trans hx)).symm

/-- The line that is written for a word. -/
def answer (c : Compiled) (word : List Char) : String :=
  match c.isMatch word with
  | .ok b => verdict b
  | .error _ => ""

theorem Faithful.exists_answer (h : c.Faithful) (word : List Char) :
    ∃ b, c.isMatch word = .ok b ∧ c.answer word = verdict b := by
  obtain ⟨b, hb, -⟩ := h.isMatch_spec word
  exact ⟨b, hb, by simp only [answer, hb]⟩

theorem Faithful.isLine_answer (h : c.Faithful) (word : List Char) :
    IsLine (c.answer word).toList := by
  obtain ⟨b, -, hb⟩ := h.exists_answer word
  exact hb ▸ isLine_verdict b

theorem Faithful.judge_eq (h : c.Faithful) (words : List (List Char)) :
    c.judge words = ⟨String.join (words.map c.answer), none⟩ := by
  induction words with
  | nil => rfl
  | cons word words ih =>
    obtain ⟨b, hmatch, hb⟩ := h.exists_answer word
    simp only [judge, hmatch, ih, Transcript.after, List.map_cons, String.join_cons, hb]

theorem evaluate_eq_of_error (h : compile p = .error e) (words : List (List Char)) (quiet : Bool) :
    evaluate p words quiet = ⟨"", some (.compile e)⟩ := by
  simp only [evaluate, h]

theorem evaluate_eq (h : compile p = .ok c) (words : List (List Char)) (quiet : Bool) :
    evaluate p words quiet =
      ⟨c.introduction quiet ++ String.join (words.map c.answer), none⟩ := by
  simp only [evaluate, h, (faithful_of_compile h).judge_eq, Transcript.after]

/-- The last lines that an evaluation writes answer the words, one line for each. -/
theorem promptLast_evaluate (h : compile p = .ok c) (prompt : String) (words : List (List Char))
    (quiet : Bool) : promptLast prompt words.length (evaluate p words quiet).output =
      c.introduction quiet ++ String.join (words.map fun word => prompt ++ c.answer word) := by
  have hanswers : ∀ s ∈ words.map c.answer, IsLine s.toList := by
    rw [List.forall_mem_map]
    exact fun word _ => (faithful_of_compile h).isLine_answer word
  have hprompted := promptLast_append prompt (terminated_introduction quiet c) hanswers
  rw [List.length_map, List.map_map] at hprompted
  rw [evaluate_eq h]
  exact hprompted

end Compiled

/-! ## What is typed -/

namespace Session

/-- What a session writes before it reads a word. -/
def wordPrompt : String := "Enter a string to be checked ('s' to stop): "

/-- What is typed for one pattern: the pattern, some words, and whether the line that stops has a
carriage return. -/
structure Block where
  pattern : Line
  words : List Line
  stopReturn : Bool

namespace Block

/-- The lines of a block.  Words are asked for only if the pattern compiles. -/
def lines (b : Block) : List Line :=
  match compile b.pattern.text with
  | .error _ => [b.pattern]
  | .ok _ => b.pattern :: (b.words ++ [⟨['s'], b.stopReturn⟩])

/-- A block that can be typed: no line is taken for two or for a command. -/
structure Valid (b : Block) : Prop where
  pattern : b.pattern.Plain
  pattern_ne : b.pattern.text ≠ ['e']
  words : ∀ l ∈ b.words, l.Plain
  words_ne : ∀ l ∈ b.words, l.text ≠ ['s']

instance (b : Block) : Decidable b.Valid :=
  decidable_of_iff (b.pattern.Plain ∧ b.pattern.text ≠ ['e'] ∧ (∀ l ∈ b.words, l.Plain) ∧
      ∀ l ∈ b.words, l.text ≠ ['s'])
    ⟨fun h => ⟨h.1, h.2.1, h.2.2.1, h.2.2.2⟩, fun h => ⟨h.1, h.2, h.3, h.4⟩⟩

/-- What the session writes while a block is typed, told by the evaluation of its pattern on its
words. -/
def dialogue (quiet : Bool) (b : Block) : String :=
  let t := evaluate b.pattern.text (b.words.map Line.text) quiet
  Phase.pattern.prompt ++ match t.failure with
    | some f => "# " ++ f.message ++ "\n\n"
    | none => promptLast wordPrompt b.words.length t.output ++ wordPrompt ++ "\n"

end Block

/-- What ends a session: the command to exit, or the end of the input. -/
inductive Closing where
  | exit (hasReturn : Bool)
  | endOfInput

namespace Closing

/-- The lines of the closing. -/
def lines : Closing → List Line
  | .exit hasReturn => [⟨['e'], hasReturn⟩]
  | .endOfInput => []

/-- What the session writes after its last prompt. -/
def output : Closing → String
  | .exit _ => ""
  | .endOfInput => "\n"

end Closing

/-! ## Running a session -/

open Compiled

variable {c : Compiled} {l : Line} {b : Block}

theorem plain_command (x : Char) (hasReturn : Bool) (hlineFeed : x ≠ '\n') (hreturn : x ≠ '\r') :
    (⟨[x], hasReturn⟩ : Line).Plain :=
  ⟨by simpa using hlineFeed.symm, by simpa using hreturn⟩

theorem respond_raw (h : l.Plain) (quiet : Bool) (phase : Phase) :
    respond quiet phase l.raw = respondToText quiet l.text phase := by
  rw [respond, Line.decodeLine_raw h]

theorem runLines_proceed {phase next : Phase} {output : String} {quiet : Bool} (h : l.Plain)
    (hreply : respondToText quiet l.text phase = .proceed output next) (rest : List (List UInt8)) :
    runLines quiet phase (l.raw :: rest) =
      (runLines quiet next rest).after (phase.prompt ++ output) := by
  rw [runLines, respond_raw h, hreply]

/-- **Words are answered one by one**, each after a prompt, up to the line that stops. -/
theorem runLines_word (h : c.Faithful) (quiet : Bool) {words : List Line}
    (hwords : ∀ l ∈ words, l.Plain) (hne : ∀ l ∈ words, l.text ≠ ['s']) (stopReturn : Bool)
    (rest : List (List UInt8)) :
    runLines quiet (.word c) (words.map Line.raw ++ (⟨['s'], stopReturn⟩ : Line).raw :: rest) =
      (runLines quiet .pattern rest).after
        (String.join (words.map fun l => wordPrompt ++ c.answer l.text) ++ wordPrompt ++ "\n") := by
  induction words with
  | nil =>
    have hstop := plain_command 's' stopReturn (by decide) (by decide)
    have hreply : respondToText quiet ['s'] (.word c) = .proceed "\n" .pattern := rfl
    exact runLines_proceed hstop hreply rest
  | cons l words ih =>
    obtain ⟨hl, hwords⟩ := List.forall_mem_cons.mp hwords
    obtain ⟨hls, hne⟩ := List.forall_mem_cons.mp hne
    obtain ⟨b, hmatch, hanswer⟩ := h.exists_answer l.text
    have hreply : respondToText quiet l.text (.word c) = .proceed (c.answer l.text) (.word c) := by
      simp only [respondToText, if_neg hls, hmatch, hanswer]
    have hprompt : (Phase.word c).prompt = wordPrompt := rfl
    rw [List.map_cons, List.cons_append, runLines_proceed hl hreply, ih hwords hne,
      Transcript.after_after, List.map_cons, String.join_cons, hprompt]
    simp only [String.append_assoc]

/-- **What is written while a block is typed** is told by the evaluation of its pattern, whatever is
typed after it. -/
theorem runLines_block (hb : b.Valid) (quiet : Bool) (rest : List (List UInt8)) :
    runLines quiet .pattern (b.lines.map Line.raw ++ rest) =
      (runLines quiet .pattern rest).after (b.dialogue quiet) := by
  rcases compile_cases b.pattern.text with ⟨e, -, herror⟩ | ⟨c, hc, -, -, hfaithful⟩
  · have hreply : respondToText quiet b.pattern.text .pattern =
        .proceed ("# " ++ e.message ++ "\n\n") .pattern := by
      simp only [respondToText, if_neg hb.pattern_ne, herror]
    have hlines : b.lines = [b.pattern] := by
      simp only [Block.lines, herror]
    have hdialogue : b.dialogue quiet = Phase.pattern.prompt ++ ("# " ++ e.message ++ "\n\n") := by
      simp only [Block.dialogue, evaluate_eq_of_error herror]
      rfl
    rw [hlines, hdialogue]
    exact runLines_proceed hb.pattern hreply rest
  · have hreply : respondToText quiet b.pattern.text .pattern =
        .proceed (c.introduction quiet) (.word c) := by
      simp only [respondToText, if_neg hb.pattern_ne, hc]
    have hlines : b.lines = b.pattern :: (b.words ++ [⟨['s'], b.stopReturn⟩]) := by
      simp only [Block.lines, hc]
    have hdialogue : b.dialogue quiet = Phase.pattern.prompt ++
        (c.introduction quiet ++ String.join (b.words.map fun l => wordPrompt ++ c.answer l.text) ++
          wordPrompt ++ "\n") := by
      have hfailure : (evaluate b.pattern.text (b.words.map Line.text) quiet).failure = none := by
        rw [evaluate_eq hc]
      have hprompted := promptLast_evaluate hc wordPrompt (b.words.map Line.text) quiet
      rw [List.length_map, List.map_map] at hprompted
      simp only [Block.dialogue, hfailure, hprompted]
      rfl
    rw [hlines, hdialogue, List.map_cons, List.map_append, List.cons_append, List.append_assoc,
      runLines_proceed hb.pattern hreply]
    have hwords := runLines_word hfaithful quiet hb.words hb.words_ne b.stopReturn rest
    rw [List.map_singleton, List.singleton_append, hwords, Transcript.after_after]
    simp only [String.append_assoc]

/-- The lines of blocks are plain, so that they can be read one by one. -/
theorem Block.Valid.plain (hb : b.Valid) : ∀ l ∈ b.lines, l.Plain := by
  have hstop := plain_command 's' b.stopReturn (by decide) (by decide)
  rw [Block.lines]
  cases compile b.pattern.text with
  | error e => simpa using hb.pattern
  | ok c =>
    intro l hl
    rcases List.mem_cons.mp hl with rfl | hl
    · exact hb.pattern
    · rcases List.mem_append.mp hl with hl | hl
      · exact hb.words l hl
      · exact List.mem_singleton.mp hl ▸ hstop

theorem Closing.plain (closing : Closing) : ∀ l ∈ closing.lines, l.Plain := by
  cases closing with
  | exit hasReturn =>
    intro l hl
    exact List.mem_singleton.mp hl ▸ plain_command 'e' hasReturn (by decide) (by decide)
  | endOfInput => exact fun l hl => by cases hl

theorem runLines_closing (closing : Closing) (quiet : Bool) :
    runLines quiet .pattern (closing.lines.map Line.raw) =
      ⟨Phase.pattern.prompt ++ closing.output, none⟩ := by
  cases closing with
  | exit hasReturn =>
    have hplain := plain_command 'e' hasReturn (by decide) (by decide)
    have hreply : respondToText quiet ['e'] .pattern = .finish := by
      rw [respondToText, if_pos rfl]
    rw [Closing.lines, List.map_singleton, runLines, respond_raw hplain, hreply, Closing.output,
      String.append_empty]
  | endOfInput => rfl

theorem runLines_blocks {blocks : List Block} (h : ∀ b ∈ blocks, b.Valid) (closing : Closing)
    (quiet : Bool) :
    runLines quiet .pattern ((blocks.flatMap Block.lines ++ closing.lines).map Line.raw) =
      ⟨String.join (blocks.map (Block.dialogue quiet)) ++ Phase.pattern.prompt ++ closing.output,
        none⟩ := by
  induction blocks with
  | nil => exact runLines_closing closing quiet
  | cons b blocks ih =>
    obtain ⟨hb, hblocks⟩ := List.forall_mem_cons.mp h
    rw [List.flatMap_cons, List.append_assoc, List.map_append, runLines_block hb, ih hblocks,
      Transcript.after, List.map_cons, String.join_cons]
    simp only [String.append_assoc]

/-- **A session is one evaluation after the other.**  It ends without a failure, and all it writes
for a pattern is told by the evaluation of that pattern: its message, if it does not compile, and
otherwise what it writes with a prompt before each verdict.  No pattern leaves anything behind. -/
theorem run_eq_dialogues (quiet : Bool) {blocks : List Block} (h : ∀ b ∈ blocks, b.Valid)
    (closing : Closing) :
    run quiet ((blocks.flatMap Block.lines ++ closing.lines).flatMap Line.bytes) =
      ⟨String.join (blocks.map (Block.dialogue quiet)) ++ Phase.pattern.prompt ++ closing.output,
        none⟩ := by
  have hplain : ∀ l ∈ blocks.flatMap Block.lines ++ closing.lines, l.Plain := by
    intro l hl
    rcases List.mem_append.mp hl with hl | hl
    · obtain ⟨b, hb, hlb⟩ := List.mem_flatMap.mp hl
      exact (h b hb).plain l hlb
    · exact closing.plain l hl
  have hlines := lines_flatMap_bytes hplain []
  rw [List.append_nil, Session.lines, List.append_nil] at hlines
  rw [run, hlines, runLines_blocks h]

/-- A pattern that does not compile, and the empty pattern with three words.  The letter that ends a
session is a word like any other while words are asked for. -/
def typedBlocks : List Block :=
  [⟨⟨['a', '|'], true⟩, [], false⟩,
    ⟨⟨[], false⟩, [⟨['a', 'b'], false⟩, ⟨[], true⟩, ⟨['e'], false⟩], true⟩]

theorem run_eq_dialogues_typedBlocks :
    (∀ b ∈ typedBlocks, b.Valid) ∧
    run true ((typedBlocks.flatMap Block.lines ++ Closing.endOfInput.lines).flatMap Line.bytes) =
      ⟨String.join (typedBlocks.map (Block.dialogue true)) ++ Phase.pattern.prompt ++ "\n",
        none⟩ := by
  have hvalid : ∀ b ∈ typedBlocks, b.Valid := by decide
  exact ⟨hvalid, run_eq_dialogues true hvalid .endOfInput⟩

end Session

end PatternAutomata
