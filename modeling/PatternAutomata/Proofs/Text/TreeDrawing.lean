import PatternAutomata.Proofs.Pattern.Defects
import PatternAutomata.Proofs.Pattern.Place
import PatternAutomata.Text.TreeDrawing

/-!
# A drawing shows one tree

A tree is handed over as a `LabelTree`, and drawn with one line for each node in pre-order: a block
of three characters for each level, a space, and the label.  Which characters the blocks consist of
does not matter.  All that is used of them is collected in `Blocks`: the block that leads to a node
tells last children from others, and it is none of the blocks that pass by a level.

## Why labels do no harm

A label can consist of the characters of a block, and it can even be a line break, so lines cannot
be told apart by looking for line breaks.  But a margin is read from the left and ends with the
first block that leads to a node.  What follows is a space and a label, and the written form of a
symbol shows where it ends.  Only the empty label has to be told from a line break, by what comes
behind it: neither a margin nor the end of the drawing is a line break.

Whether a node has children is seen from what follows its line.  Below it the margins begin with the
margin of the node, with its last block turned into one that passes by, and what follows the whole
node does not begin like this (`Behind`).

* `draw_eq_write`: `SyntaxTree.draw` is such a drawing.
* `textAt_append_cancel`: a tree is determined by its lines, wherever it stands in a drawing and
  whatever comes behind it.
* `drawing_unambiguous`: no two trees have the same drawing.
-/

namespace PatternAutomata

namespace Symbol

variable {s s' : Symbol} {x y : List Char}

/-- A symbol is written as one character, or as two of which the first is a backslash. -/
theorem text_cases (s : Symbol) :
    (∃ c, c ≠ backslash ∧ s.text = [c]) ∨ ∃ c, s.text = [backslash, c] := by
  cases s with
  | literal c =>
    rw [text]
    split_ifs with hc
    · exact Or.inr ⟨c, rfl⟩
    · refine Or.inl ⟨c, ?_, rfl⟩
      rintro rfl
      exact hc (by decide)
  | operator o => exact Or.inl ⟨o.char, by cases o <;> decide, rfl⟩
  | opening => exact Or.inl ⟨'(', by decide, rfl⟩
  | closing => exact Or.inl ⟨')', by decide, rfl⟩

/-- Symbols that are written in the same way are the same. -/
theorem text_injective (h : s.text = s'.text) : s = s' := by
  have htokens := congrArg (tokenizeFrom 0) h
  rw [← List.append_nil s.text, ← List.append_nil s'.text, tokenizeFrom_text,
    tokenizeFrom_text] at htokens
  cases htokens
  rfl

/-- **The written form of a symbol shows where it ends.** -/
theorem text_append_cancel (h : s.text ++ x = s'.text ++ y) : s = s' ∧ x = y := by
  have hlength : s.text.length = s'.text.length := by
    rcases s.text_cases with ⟨c, hc, hs⟩ | ⟨c, hs⟩ <;>
      rcases s'.text_cases with ⟨c', hc', hs'⟩ | ⟨c', hs'⟩ <;> rw [hs, hs'] at h ⊢
    · rfl
    · exact absurd (List.cons.inj h).1 hc
    · exact absurd (List.cons.inj h).1.symm hc'
    · rfl
  obtain ⟨htext, hrest⟩ := List.append_inj h hlength
  exact ⟨text_injective htext, hrest⟩

end Symbol

/-! ## Trees with labels -/

/-- A tree as it is handed over to be drawn. -/
inductive LabelTree where
  | leaf (label : List Char)
  | node (label : List Char) (children : List LabelTree)

namespace LabelTree

mutual

/-- The nodes in pre-order: for each one its label and, for every level from the children of the
root down to the node, whether the node or its ancestor there is a last child. -/
def lines (path : List Bool) : LabelTree → List (List Bool × List Char)
  | .leaf label => [(path, label)]
  | .node label children => (path, label) :: linesOfAll path children

/-- The nodes of the children of a node. -/
def linesOfAll (path : List Bool) : List LabelTree → List (List Bool × List Char)
  | [] => []
  | t :: ts => t.lines (path ++ [ts.isEmpty]) ++ linesOfAll path ts

end

end LabelTree

namespace SyntaxTree

/-- The symbol that a node stands for, if it is not empty. -/
def symbol? : SyntaxTree → Option Symbol
  | .empty => none
  | .leaf c => some (.literal c)
  | .node o _ => some (.operator o)

/-- The children of a node. -/
def children : SyntaxTree → List SyntaxTree
  | .empty | .leaf _ => []
  | .node _ children => children

/-- The label of a node: its symbol as a pattern would spell it. -/
def label (t : SyntaxTree) : List Char := (t.symbol?.map Symbol.text).getD []

mutual

/-- The tree with the labels it is drawn with. -/
def labelled : SyntaxTree → LabelTree
  | .empty => .leaf []
  | .leaf c => .leaf (Symbol.literal c).text
  | .node o children => .node [o.char] (labelledAll children)

/-- Trees with the labels they are drawn with. -/
def labelledAll : List SyntaxTree → List LabelTree
  | [] => []
  | t :: ts => t.labelled :: labelledAll ts

end

/-- A tree is its root and its children. -/
theorem eq_of_symbol?_of_children {t u : SyntaxTree} (hsymbol : t.symbol? = u.symbol?)
    (hchildren : t.children = u.children) : t = u := by
  rcases t with _ | c | ⟨o, ts⟩ <;> rcases u with _ | d | ⟨o', us⟩
  case empty.empty => rfl
  case leaf.leaf =>
    cases hsymbol
    rfl
  case node.node =>
    cases hsymbol
    exact congrArg (node o) hchildren
  all_goals cases hsymbol

/-- Trees are built from their children. -/
theorem children_induction {P : SyntaxTree → Prop}
    (step : ∀ t, (∀ u ∈ t.children, P u) → P t) (t : SyntaxTree) : P t := by
  induction t using SyntaxTree.induction with
  | empty => exact step _ fun u hu => by cases hu
  | leaf c => exact step _ fun u hu => by cases hu
  | node o children ih => exact step _ ih

/-- **A label shows where it ends.**  It is the written form of a symbol or empty, and an empty one
is told from a line break by what comes behind it. -/
theorem label_append_cancel {t u : SyntaxTree} {x y : List Char} (hx : x.head? ≠ some '\n')
    (hy : y.head? ≠ some '\n') (h : t.label ++ '\n' :: x = u.label ++ '\n' :: y) :
    t.symbol? = u.symbol? ∧ x = y := by
  -- a label that is a line break has another one behind it
  have hnone : ∀ {s : Symbol} {x y : List Char}, x.head? ≠ some '\n' →
      '\n' :: x ≠ s.text ++ '\n' :: y := by
    intro s x y hx h
    rcases s.text_cases with ⟨c, -, hs⟩ | ⟨c, hs⟩
    · rw [hs] at h
      rw [(List.cons.inj h).2] at hx
      exact hx rfl
    · rw [hs] at h
      exact absurd (List.cons.inj h).1 (by decide)
  rw [label, label] at h
  cases ht : t.symbol? with
  | none =>
    cases hu : u.symbol? with
    | none =>
      rw [ht, hu] at h
      exact ⟨rfl, (List.cons.inj h).2⟩
    | some s =>
      rw [ht, hu] at h
      exact absurd h (hnone hx)
  | some s =>
    cases hu : u.symbol? with
    | none =>
      rw [ht, hu] at h
      exact absurd h.symm (hnone hy)
    | some s' =>
      rw [ht, hu] at h
      obtain ⟨rfl, hrest⟩ := Symbol.text_append_cancel h
      exact ⟨rfl, (List.cons.inj hrest).2⟩

theorem isEmpty_labelledAll (ts : List SyntaxTree) : (labelledAll ts).isEmpty = ts.isEmpty := by
  cases ts <;> rfl

end SyntaxTree

/-! ## Blocks -/

/-- The characters that show the levels of a drawing. -/
structure Blocks where
  /-- The block that leads to a node, which may be a last child. -/
  branch : Bool → List Char
  /-- The block that passes by the lines below a node, which may be a last child. -/
  indent : Bool → List Char
  length_branch : ∀ b, (branch b).length = 3
  length_indent : ∀ b, (indent b).length = 3
  /-- Last children are marked. -/
  branch_true_ne : branch true ≠ branch false
  /-- What leads to a node does not pass by it. -/
  branch_ne_indent : ∀ b c, branch b ≠ indent c
  /-- Lines are not broken between blocks. -/
  head?_branch_ne : ∀ b, (branch b).head? ≠ some '\n'
  head?_indent_ne : ∀ b, (indent b).head? ≠ some '\n'

namespace Blocks

variable (B : Blocks)

/-- The blocks that pass by the levels of a path. -/
def column (path : List Bool) : List Char := path.flatMap B.indent

/-- What stands before the label of a node: blocks for the levels above, and one that leads to
it. -/
def margin (path : List Bool) : List Char :=
  match path.getLast? with
  | none => []
  | some b => B.column path.dropLast ++ B.branch b

/-- The line of a node. -/
def line (node : List Bool × List Char) : List Char :=
  B.margin node.1 ++ ' ' :: node.2 ++ ['\n']

/-- The lines of a tree that stands at a path. -/
def textAt (path : List Bool) (t : LabelTree) : List Char := (t.lines path).flatMap B.line

/-- The lines of trees that are the children of a node at a path. -/
def textOfAll (path : List Bool) (ts : List LabelTree) : List Char :=
  (LabelTree.linesOfAll path ts).flatMap B.line

/-- The drawing of a tree. -/
def write (t : LabelTree) : List Char := B.textAt [] t

/-- The blocks made of box-drawing characters. -/
def boxDrawing : Blocks where
  branch last := if last then SyntaxTree.lastBranch else SyntaxTree.innerBranch
  indent last := if last then SyntaxTree.lastIndent else SyntaxTree.innerIndent
  length_branch := by decide
  length_indent := by decide
  branch_true_ne := by decide
  branch_ne_indent := by decide
  head?_branch_ne := by decide
  head?_indent_ne := by decide

variable {B} {path : List Bool} {b c : Bool} {t u : SyntaxTree} {ts us : List SyntaxTree}
  {l l' r r' x y : List Char} {s s' : Symbol}

@[simp] theorem column_nil : B.column [] = [] := rfl

@[simp] theorem column_append_singleton : B.column (path ++ [b]) = B.column path ++ B.indent b := by
  rw [column, List.flatMap_append, List.flatMap_singleton]
  rfl

@[simp] theorem margin_nil : B.margin [] = [] := rfl

@[simp] theorem margin_append_singleton : B.margin (path ++ [b]) = B.column path ++ B.branch b := by
  rw [margin, List.getLast?_concat, List.dropLast_concat]

theorem branch_inj (h : B.branch b = B.branch c) : b = c := by
  cases b <;> cases c
  · rfl
  · exact absurd h.symm B.branch_true_ne
  · exact absurd h B.branch_true_ne
  · rfl

/-! ## The lines of a tree -/

theorem textAt_labelled (path : List Bool) (t : SyntaxTree) :
    B.textAt path t.labelled = B.margin path ++
      ' ' :: (t.label ++ '\n' :: B.textOfAll path (SyntaxTree.labelledAll t.children)) := by
  cases t <;> simp [textAt, textOfAll, SyntaxTree.labelled, SyntaxTree.labelledAll,
    SyntaxTree.label, SyntaxTree.symbol?, SyntaxTree.children, Symbol.text, LabelTree.lines,
    LabelTree.linesOfAll, line]

@[simp] theorem textOfAll_nil (path : List Bool) :
    B.textOfAll path (SyntaxTree.labelledAll []) = [] := rfl

theorem textOfAll_cons (path : List Bool) (t : SyntaxTree) (ts : List SyntaxTree) :
    B.textOfAll path (SyntaxTree.labelledAll (t :: ts)) =
      B.textAt (path ++ [ts.isEmpty]) t.labelled ++
        B.textOfAll path (SyntaxTree.labelledAll ts) := by
  rw [textOfAll, SyntaxTree.labelledAll, LabelTree.linesOfAll, List.flatMap_append,
    SyntaxTree.isEmpty_labelledAll]
  rfl

/-- The lines of the children of a node begin with the blocks of the node and one more. -/
theorem exists_textOfAll_cons (path : List Bool) (t : SyntaxTree) (ts : List SyntaxTree) :
    ∃ z, B.textOfAll path (SyntaxTree.labelledAll (t :: ts)) =
      B.column path ++ B.branch ts.isEmpty ++ z := by
  rw [textOfAll_cons, textAt_labelled, margin_append_singleton, List.append_assoc]
  exact ⟨_, rfl⟩

/-! ## What comes behind a tree -/

/-- A text that can come behind the lines of a node at a path: it does not go on below the node, and
it is not the rest of a label. -/
structure Behind (B : Blocks) (path : List Bool) (r : List Char) : Prop where
  not_branch : ∀ b, ¬ B.column path ++ B.branch b <+: r
  not_indent : ∀ b, ¬ B.column path ++ B.indent b <+: r
  head?_ne : r.head? ≠ some '\n'

theorem behind_nil : B.Behind [] [] where
  not_branch b h := by
    have hlength := h.length_le
    rw [column_nil, List.nil_append, B.length_branch] at hlength
    cases hlength
  not_indent b h := by
    have hlength := h.length_le
    rw [column_nil, List.nil_append, B.length_indent] at hlength
    cases hlength
  head?_ne h := by cases h

/-- What passes by a level is not taken for what leads to a node there. -/
theorem not_isPrefix (path : List Bool) (b c : Bool) (x y : List Char) :
    ¬ B.column path ++ B.indent b ++ x <+: B.column path ++ B.branch c ++ y := by
  rintro ⟨z, hz⟩
  simp only [List.append_assoc, List.append_cancel_left_eq] at hz
  have hlength : (B.indent b).length = (B.branch c).length := by
    rw [B.length_indent, B.length_branch]
  exact B.branch_ne_indent c b (List.append_inj_left hz hlength).symm

theorem head?_block_ne {block : List Char} (hlength : block.length = 3)
    (hhead : block.head? ≠ some '\n') (x : List Char) : (block ++ x).head? ≠ some '\n' := by
  have hne : block ≠ [] := List.ne_nil_of_length_eq_add_one hlength
  rwa [List.head?_append_of_ne_nil _ hne]

theorem head?_branch_append_ne (path : List Bool) (b : Bool) (x : List Char) :
    (B.column path ++ B.branch b ++ x).head? ≠ some '\n' := by
  rcases path with _ | ⟨c, path⟩
  · exact head?_block_ne (B.length_branch b) (B.head?_branch_ne b) x
  · rw [column, List.flatMap_cons, List.append_assoc, List.append_assoc]
    exact head?_block_ne (B.length_indent c) (B.head?_indent_ne c) _

/-- The lines of further children come behind a child that is not the last one. -/
theorem behind_inner (path : List Bool) (t : SyntaxTree) (ts : List SyntaxTree) (r : List Char) :
    B.Behind (path ++ [false]) (B.textOfAll path (SyntaxTree.labelledAll (t :: ts)) ++ r) := by
  obtain ⟨z, hz⟩ := exists_textOfAll_cons (B := B) path t ts
  rw [hz, List.append_assoc]
  refine ⟨fun b => ?_, fun b => ?_, head?_branch_append_ne path _ _⟩
  · rw [column_append_singleton]
    exact not_isPrefix path _ _ _ _
  · rw [column_append_singleton]
    exact not_isPrefix path _ _ _ _

/-- What comes behind a node comes behind its last child. -/
theorem Behind.last (h : B.Behind path r) : B.Behind (path ++ [true]) r where
  not_branch b hr := by
    rw [column_append_singleton] at hr
    exact h.not_indent true ((List.prefix_append _ _).trans hr)
  not_indent b hr := by
    rw [column_append_singleton] at hr
    exact h.not_indent true ((List.prefix_append _ _).trans hr)
  head?_ne := h.head?_ne

/-- What comes behind the line of a node: the lines of its children, or what comes behind it. -/
theorem Behind.head?_textOfAll_ne (h : B.Behind path r) (ts : List SyntaxTree) :
    (B.textOfAll path (SyntaxTree.labelledAll ts) ++ r).head? ≠ some '\n' := by
  rcases ts with _ | ⟨t, ts⟩
  · exact h.head?_ne
  · exact (behind_inner path t ts r).head?_ne

/-! ## Reading a drawing -/

/-- **Where children stand, their lines determine them**, if this is true of each of them. -/
theorem textOfAll_append_cancel {ts : List SyntaxTree}
    (ih : ∀ t ∈ ts, ∀ {u path r r'}, B.Behind path r → B.Behind path r' →
      B.textAt path t.labelled ++ r = B.textAt path (SyntaxTree.labelled u) ++ r' → t = u ∧ r = r')
    (hr : B.Behind path r) (hr' : B.Behind path r')
    (h : B.textOfAll path (SyntaxTree.labelledAll ts) ++ r =
      B.textOfAll path (SyntaxTree.labelledAll us) ++ r') : ts = us ∧ r = r' := by
  -- nothing that comes behind begins like the line of a child
  have hnone : ∀ {t ts r r'}, B.Behind path r →
      r ≠ B.textOfAll path (SyntaxTree.labelledAll (t :: ts)) ++ r' := by
    rintro t ts r r' hr rfl
    obtain ⟨z, hz⟩ := exists_textOfAll_cons (B := B) path t ts
    rw [hz, List.append_assoc] at hr
    exact hr.not_branch _ (List.prefix_append _ _)
  induction ts generalizing us with
  | nil =>
    rcases us with _ | ⟨u, us⟩
    · exact ⟨rfl, h⟩
    · exact absurd h (hnone hr)
  | cons t ts ihts =>
    rcases us with _ | ⟨u, us⟩
    · exact absurd h.symm (hnone hr')
    have hlast : ts.isEmpty = us.isEmpty := by
      obtain ⟨z, hz⟩ := exists_textOfAll_cons (B := B) path t ts
      obtain ⟨z', hz'⟩ := exists_textOfAll_cons (B := B) path u us
      rw [hz, hz', List.append_assoc, List.append_assoc, List.append_assoc, List.append_assoc,
        List.append_cancel_left_eq] at h
      exact branch_inj (List.append_inj_left h (by rw [B.length_branch, B.length_branch]))
    have hbehind : ∀ {ts : List SyntaxTree} {r}, B.Behind path r →
        B.Behind (path ++ [ts.isEmpty]) (B.textOfAll path (SyntaxTree.labelledAll ts) ++ r) := by
      rintro (_ | ⟨t, ts⟩) r hr
      · exact hr.last
      · exact behind_inner path t ts r
    rw [textOfAll_cons, textOfAll_cons, List.append_assoc, List.append_assoc, ← hlast] at h
    obtain ⟨rfl, hrest⟩ := ih t List.mem_cons_self (hbehind hr) (hlast ▸ hbehind hr') h
    obtain ⟨rfl, rfl⟩ := ihts (fun t ht => ih t (List.mem_cons_of_mem _ ht)) hrest
    exact ⟨rfl, rfl⟩

/-- **Wherever a tree stands, its lines determine it**, whatever comes behind it. -/
theorem textAt_append_cancel (t : SyntaxTree) : ∀ {u : SyntaxTree} {path r r'},
    B.Behind path r → B.Behind path r' →
    B.textAt path t.labelled ++ r = B.textAt path u.labelled ++ r' → t = u ∧ r = r' := by
  induction t using SyntaxTree.children_induction with
  | step t ih =>
    intro u path r r' hr hr' h
    rw [textAt_labelled, textAt_labelled] at h
    simp only [List.append_assoc, List.cons_append, List.append_cancel_left_eq,
      List.cons.injEq, true_and] at h
    obtain ⟨hsymbol, hrest⟩ := SyntaxTree.label_append_cancel (hr.head?_textOfAll_ne t.children)
      (hr'.head?_textOfAll_ne u.children) h
    obtain ⟨hchildren, rfl⟩ := textOfAll_append_cancel ih hr hr' hrest
    exact ⟨SyntaxTree.eq_of_symbol?_of_children hsymbol hchildren, rfl⟩

theorem write_injective (B : Blocks) {t u : SyntaxTree}
    (h : B.write t.labelled = B.write u.labelled) : t = u := by
  refine (textAt_append_cancel (B := B) t behind_nil behind_nil ?_).1
  rw [List.append_nil, List.append_nil]
  exact h

/-! ## Drawings made of box-drawing characters -/

/-- The lines of a tree are drawn with what stands before its label and what stands above its
children. -/
theorem drawAt_eq (t : SyntaxTree) : ∀ path, SyntaxTree.drawAt (boxDrawing.margin path)
    (boxDrawing.column path) t = boxDrawing.textAt path t.labelled := by
  have hall : ∀ {ts : List SyntaxTree} {path},
      (∀ t ∈ ts, ∀ path, SyntaxTree.drawAt (boxDrawing.margin path) (boxDrawing.column path) t =
        boxDrawing.textAt path t.labelled) →
      SyntaxTree.drawAllAt (boxDrawing.column path) ts =
        boxDrawing.textOfAll path (SyntaxTree.labelledAll ts) := by
    intro ts path ih
    induction ts with
    | nil => rfl
    | cons t ts ihts =>
      have hfirst := ih t List.mem_cons_self (path ++ [ts.isEmpty])
      rw [margin_append_singleton, column_append_singleton] at hfirst
      rw [textOfAll_cons, ← hfirst, ← ihts fun t ht => ih t (List.mem_cons_of_mem _ ht)]
      rcases ts with _ | ⟨u, us⟩
      · rw [SyntaxTree.drawAllAt]
        rfl
      · rw [SyntaxTree.drawAllAt]
        rfl
  induction t using SyntaxTree.children_induction with
  | step t ih =>
    intro path
    rw [textAt_labelled, ← hall ih]
    cases t <;> simp [SyntaxTree.drawAt, SyntaxTree.drawLine, SyntaxTree.drawAllAt,
      SyntaxTree.children, SyntaxTree.label, SyntaxTree.symbol?, Symbol.text]

/-- **A drawing has one line for each node in pre-order.** -/
theorem draw_eq_write (t : SyntaxTree) : t.draw = boxDrawing.write t.labelled := drawAt_eq t []

end Blocks

/-- What is known of a function that draws trees: it writes their lines, with blocks of some
characters for the levels. -/
def DrawsLines (write : LabelTree → List Char) : Prop :=
  ∃ B : Blocks, ∀ t, write t = B.write t

/-- **A drawing shows one tree only**, whatever its labels are and however many children its nodes
have.  This is true of every function that draws trees line by line, and so it is of `draw`. -/
theorem drawing_unambiguous {write : LabelTree → List Char} (hwrite : DrawsLines write) :
    (Function.Injective fun t : SyntaxTree => write t.labelled) ∧
      Function.Injective SyntaxTree.draw := by
  obtain ⟨B, hB⟩ := hwrite
  refine ⟨fun t u h => B.write_injective ?_, fun t u h => Blocks.boxDrawing.write_injective ?_⟩
  · rw [← hB, ← hB]
    exact h
  · rw [← Blocks.draw_eq_write, ← Blocks.draw_eq_write]
    exact h

/-- A leaf that is a line break and one without a label, in either order; and a star without
operands, which is not drawn like a literal that looks like it. -/
theorem drawing_unambiguous_lineBreak :
    Blocks.boxDrawing.write (SyntaxTree.node .union [.leaf '\n', .empty]).labelled ≠
      Blocks.boxDrawing.write (SyntaxTree.node .union [.empty, .leaf '\n']).labelled ∧
    (SyntaxTree.node .star []).draw ≠ (SyntaxTree.leaf '*').draw := by
  have hlines : DrawsLines Blocks.boxDrawing.write := ⟨Blocks.boxDrawing, fun _ => rfl⟩
  obtain ⟨hwrite, hdraw⟩ := drawing_unambiguous hlines
  refine ⟨fun h => ?_, fun h => ?_⟩
  · cases hwrite h
  · cases hdraw h

end PatternAutomata
