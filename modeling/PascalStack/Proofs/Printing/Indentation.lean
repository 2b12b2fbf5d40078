import PascalStack.Proofs.Printing.Lines
import PascalStack.Proofs.Printing.Outlines

/-!
# Indentation follows depth

How far in a line stands depends only on how deep its part of the tree lies: a printer with other settings
writes the same lines, each with the blanks for its depth.

* `reindent`               a text with other blanks in front of its lines;
* `reindent_renderRows`    rows with other settings are the same text reindented;
* `Stmt.pruned`, `Node.pruned`   a tree without the empty statements of its compounds;
* `Node.outline_pruned`    they have no part in the outline;
* `indentation_by_depth`   what a printer does at any node of the tree of a source text.
-/

namespace PascalStack

/-! ## lines with other blanks -/

def isSpace (c : Char) : Bool := c = ' '

/-- A line with `start` blanks in front, and `indent` more for each blank that stood there before. -/
def reindentLine (indent start : Nat) (line : List Char) : List Char :=
  List.replicate (start + indent * (line.takeWhile isSpace).length) ' ' ++ line.dropWhile isSpace

/-- Lines with other blanks in front of them.  What follows the last line feed is no line, and stays. -/
def reindentLines (indent start : Nat) : List (List Char) → List Char
  | [] => []
  | [rest] => rest
  | line :: lines => reindentLine indent start line ++ '\n' :: reindentLines indent start lines

/-- A text in which `d` blanks in front of a line are replaced by `start + indent * d` blanks. -/
def reindent (indent start : Nat) (text : String) : String :=
  String.ofList (reindentLines indent start (Text.lines text.toList))

section
variable (indent start : Nat)

theorem reindentLine_blanks (depth : Nat) {text : String} (h : IsLine text) :
    reindentLine indent start (List.replicate depth ' ' ++ text.toList) =
      List.replicate (start + indent * depth) ' ' ++ text.toList := by
  have hblanks : ∀ c ∈ List.replicate depth ' ', isSpace c = true := fun c hc =>
    decide_eq_true (List.eq_of_mem_replicate hc)
  obtain ⟨c, hc, hne⟩ := (Option.any_eq_true _ _).1 h.1
  obtain ⟨cs, hcs⟩ := List.head?_eq_some_iff.1 hc
  have hstop : ¬ isSpace c = true := fun h => of_decide_eq_true hne (of_decide_eq_true h)
  rw [reindentLine, List.takeWhile_append_of_pos hblanks, List.dropWhile_append_of_pos hblanks, hcs,
    List.takeWhile_cons_of_neg hstop, List.dropWhile_cons_of_neg hstop, List.append_nil, List.length_replicate]

theorem Text.lines_ne_nil (cs : List Char) : Text.lines cs ≠ [] := by
  cases cs with
  | nil => exact List.cons_ne_nil _ _
  | cons c cs =>
    show Text.consLine c (Text.lines cs) ≠ []
    unfold Text.consLine
    split
    · exact List.cons_ne_nil _ _
    · split <;> exact List.cons_ne_nil _ _

theorem reindentLines_cons (line : List Char) {lines : List (List Char)} (h : lines ≠ []) :
    reindentLines indent start (line :: lines) =
      reindentLine indent start line ++ '\n' :: reindentLines indent start lines := by
  cases lines with
  | nil => exact absurd rfl h
  | cons next lines => rfl

theorem toList_renderRows_cons (row : Nat × String) (rows : List (Nat × String)) :
    (renderRows indent start (row :: rows)).toList =
      (List.replicate (start + indent * row.1) ' ' ++ row.2.toList) ++
        '\n' :: (renderRows indent start rows).toList := by
  have hcons : renderRows indent start (row :: rows) = renderRow indent start row ++ renderRows indent start rows :=
    String.join_cons
  have hfeed : "\n".toList = ['\n'] := rfl
  rw [hcons, renderRow, String.toList_append, String.toList_append, String.toList_append, String.toList_ofList,
    hfeed, List.append_assoc, List.singleton_append]

/-- Rows with other settings are the same text with other blanks in front of its lines. -/
theorem reindent_renderRows {rows : List (Nat × String)} (h : ∀ row ∈ rows, IsLine row.2) :
    reindent indent start (renderRows 1 0 rows) = renderRows indent start rows := by
  refine String.toList_inj.1 ?_
  rw [reindent, String.toList_ofList]
  induction rows with
  | nil => rfl
  | cons row rows ih =>
    obtain ⟨hrow, hrows⟩ := List.forall_mem_cons.1 h
    -- the first line feed of the text is the one that ends the row
    have hline : '\n' ∉ List.replicate (0 + 1 * row.1) ' ' ++ row.2.toList := by
      rw [List.mem_append, not_or]
      exact ⟨fun hmem => absurd (List.eq_of_mem_replicate hmem) (by decide), hrow.2⟩
    rw [toList_renderRows_cons, toList_renderRows_cons, Text.lines_append hline,
      reindentLines_cons _ _ _ (Text.lines_ne_nil _), ih hrows, reindentLine_blanks _ _ _ hrow, Nat.zero_add,
      Nat.one_mul]

end

/-! ## empty statements -/

mutual

/-- A statement without the empty statements of the compounds in it. -/
def Stmt.pruned : Stmt → Stmt
  | .compound body => .compound (prunedStmts body)
  | .assign target value => .assign target value
  | .ifThen condition s => .ifThen condition s.pruned
  | .ifThenElse condition s t => .ifThenElse condition s.pruned t.pruned
  | .whileDo condition s => .whileDo condition s.pruned
  | .forDo control initial direction final s => .forDo control initial direction final s.pruned
  | .call name arguments => .call name arguments

def prunedStmts : List Stmt → List Stmt
  | [] => []
  | s :: ss => if s.isEmpty then prunedStmts ss else s.pruned :: prunedStmts ss

end

mutual

def Block.pruned : Block → Block
  | .mk functions declarations statements =>
    .mk (prunedFunctions functions) declarations (prunedStmts statements)

def FunctionDecl.pruned : FunctionDecl → FunctionDecl
  | .definition heading block => .definition heading block.pruned
  | .directive heading d => .directive heading d
  | .body name block => .body name block.pruned

def prunedFunctions : List FunctionDecl → List FunctionDecl
  | [] => []
  | f :: fs => f.pruned :: prunedFunctions fs

end

def Node.pruned : Node → Node
  | program p => program { p with block := p.block.pruned }
  | block b => block b.pruned
  | function f => function f.pruned
  | declaration v => declaration v
  | type t => type t
  | stmt s => stmt s.pruned
  | expr e => expr e
  | access a => access a

mutual

theorem Stmt.outline_pruned (s : Stmt) : s.pruned.outline = s.outline := by
  cases s with
  | compound body => rw [Stmt.pruned, Stmt.outline, Stmt.outline, stmtOutlines_pruned body]
  | ifThen condition s => rw [Stmt.pruned, Stmt.outline, Stmt.outline, s.outline_pruned]
  | ifThenElse condition s t =>
    rw [Stmt.pruned, Stmt.outline, Stmt.outline, s.outline_pruned, t.outline_pruned]
  | whileDo condition s => rw [Stmt.pruned, Stmt.outline, Stmt.outline, s.outline_pruned]
  | forDo control initial direction final s =>
    rw [Stmt.pruned, Stmt.outline, Stmt.outline, s.outline_pruned]
  | assign | call => rfl

theorem stmtOutlines_pruned (ss : List Stmt) : stmtOutlines (prunedStmts ss) = stmtOutlines ss := by
  cases ss with
  | nil => rfl
  | cons s ss =>
    rw [prunedStmts, stmtOutlines]
    split
    · rename_i hs
      rw [s.outline_eq_nil_iff.2 hs, List.nil_append, stmtOutlines_pruned ss]
    · rw [stmtOutlines, s.outline_pruned, stmtOutlines_pruned ss]

end

mutual

theorem Block.outline_pruned (b : Block) : b.pruned.outline = b.outline := by
  cases b with
  | mk functions declarations statements =>
    rw [Block.pruned, Block.outline, Block.outline, functionOutlines_pruned functions,
      stmtOutlines_pruned statements]

theorem FunctionDecl.outline_pruned (f : FunctionDecl) : f.pruned.outline = f.outline := by
  cases f with
  | definition heading block =>
    rw [FunctionDecl.pruned, FunctionDecl.outline, FunctionDecl.outline, block.outline_pruned]
  | directive heading d => rfl
  | body name block =>
    rw [FunctionDecl.pruned, FunctionDecl.outline, FunctionDecl.outline, block.outline_pruned]

theorem functionOutlines_pruned (fs : List FunctionDecl) :
    functionOutlines (prunedFunctions fs) = functionOutlines fs := by
  cases fs with
  | nil => rfl
  | cons f fs =>
    rw [prunedFunctions, functionOutlines, functionOutlines, f.outline_pruned, functionOutlines_pruned fs]

end

theorem Node.outline_pruned (n : Node) : n.pruned.outline = n.outline := by
  cases n with
  | program p => exact congrArg (fun os => [Outline.node "Program:" [.leaf ("Heading: " ++ p.headingText),
      .node "Block:" os]]) p.block.outline_pruned
  | block b => exact b.outline_pruned
  | function f => exact congrArg (fun o => [o]) f.outline_pruned
  | stmt s => exact s.outline_pruned
  | declaration | type | expr | access => rfl

/-! ## printing a node -/

theorem Node.shows (n : Node) : n.visit.Shows n.outline := by
  cases n with
  | program p => exact p.shows
  | block b => exact b.shows
  | function f => exact f.shows
  | declaration v => exact v.shows
  | type t => exact t.shows
  | stmt s => exact s.shows
  | expr e => exact e.shows
  | access a => exact a.shows

/-- **Indentation follows depth.**  Take the tree of a source text, whether errors were repaired in it or not,
without line feeds in its string and character literals.  At any node of it a printer is left as it was, and
writes what it writes with one blank a level from the margin on, but with `start + indent * d` blanks in place
of `d`: the outline of the node.  The empty statements of compounds do not show. -/
theorem indentation_by_depth {source : String} {p : Program} (htree : (report source).tree = some p)
    (hliterals : ∀ c : Constant, (Node.expr (.constant c)).Within (.program p) → c.OneLine) {n : Node}
    (hn : n.Within (.program p)) (indent start : Nat) :
    n.visit.run ⟨indent, start⟩ = (reindent indent start (n.visit.run ⟨1, 0⟩).1, ⟨indent, start⟩) ∧
      (n.visit.run ⟨1, 0⟩).1 = renderOutlines 1 n.outline ∧
      n.pruned.visit.run ⟨indent, start⟩ = n.visit.run ⟨indent, start⟩ := by
  -- names come from the lexer; literals are the only other text of a source in a line
  have hunbroken : (Node.program p).All Node.Unbroken := fun m hm =>
    ⟨fun x hx => (tree_named htree m hm x hx).unbroken, fun c hc => hliterals c (hc ▸ hm)⟩
  have hrows := Outline.isLine_rowsAll 0 n.outline (n.plain (hunbroken.within hn))
  have htext : (n.visit.run ⟨1, 0⟩).1 = renderRows 1 0 (Outline.rowsAll 0 n.outline) := by rw [n.shows]
  refine ⟨?_, htext, ?_⟩
  · rw [n.shows, htext, reindent_renderRows indent start hrows]
  · rw [n.pruned.shows, n.outline_pruned, n.shows]

def Node.isOneLine : Node → Bool
  | expr (.constant c) => decide c.OneLine
  | _ => true

/-- Whether all literals in a node have no line feeds, sought up to a depth that must be enough. -/
def Node.oneLineUpTo : (depth : Nat) → Node → Bool
  | 0, _ => false
  | depth + 1, n => n.isOneLine && n.children.all (oneLineUpTo depth)

theorem Node.oneLine_of_oneLineUpTo {depth : Nat} {n : Node} (h : n.oneLineUpTo depth = true) :
    n.All fun m => m.isOneLine = true := by
  induction depth generalizing n with
  | zero => cases h
  | succ depth ih =>
    obtain ⟨hself, hchildren⟩ := Bool.and_eq_true_iff.1 h
    exact .mk hself fun m hm => ih (List.all_eq_true.1 hchildren m hm)

theorem Node.within_program_of_statement {p : Program} {s : Stmt} (h : s ∈ p.block.statements) :
    (Node.stmt s).Within (.program p) := by
  obtain ⟨name, parameters, functions, declarations, statements⟩ := p
  have hblock : Node.stmt s ∈ (Node.block (.mk functions declarations statements)).children :=
    List.mem_append_right _ (List.mem_append_right _ (List.mem_map_of_mem h))
  exact .tail (.single hblock) (.head _)

/-- Empty statements in a loop and beside it, an empty branch, and a statement that is repaired. -/
def hollowSource : String :=
  "program p; begin begin ; end; for i := 1 to 9 do begin begin end; if v[i] then begin end; w('a b') end; x := end."

theorem indentation_by_depth_hollowSource : ∃ p s, (report hollowSource).tree = some p ∧
    (report hollowSource).errorCount = 1 ∧
    (∀ c : Constant, (Node.expr (.constant c)).Within (.program p) → c.OneLine) ∧
    p.block.statements[1]? = some s ∧ s.visit.run ⟨4, 6⟩ = (reindent 4 6 (s.visit.run ⟨1, 0⟩).1, ⟨4, 6⟩) ∧
    (s.visit.run ⟨1, 0⟩).1 = renderOutlines 1 s.outline ∧ s.pruned.visit.run ⟨4, 6⟩ = s.visit.run ⟨4, 6⟩ := by
  have hreport : ((report hollowSource).tree.any fun p =>
      p.block.statements[1]?.isSome && (Node.program p).oneLineUpTo 20) = true ∧
      (report hollowSource).errorCount = 1 := by decide +kernel
  obtain ⟨hfound, hcount⟩ := hreport
  obtain ⟨p, htree, hp⟩ := (Option.any_eq_true _ _).1 hfound
  obtain ⟨hs, hchecked⟩ := Bool.and_eq_true_iff.1 hp
  obtain ⟨s, hs⟩ := Option.isSome_iff_exists.1 hs
  have hliterals : ∀ c : Constant, (Node.expr (.constant c)).Within (.program p) → c.OneLine := fun c hc =>
    of_decide_eq_true (Node.oneLine_of_oneLineUpTo hchecked _ hc)
  have hn := Node.within_program_of_statement (List.mem_of_getElem? hs)
  exact ⟨p, s, htree, hcount, hliterals, hs, indentation_by_depth htree hliterals hn 4 6⟩

end PascalStack
