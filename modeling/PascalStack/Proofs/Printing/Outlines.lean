import PascalStack.Tree.Printer

/-!
# A printer writes outlines

What a printer writes for a tree is the outline of the tree, and afterwards the printer is as it was before.

* `Printing.Shows`          the text of outlines, whatever the printer, which is left as it was;
* `Printing.Shows.labeled`, `Printing.Shows.cons`, `Printing.Shows.group`   how it is put together;
* `Stmt.outline_eq_nil_iff` a statement has no outline just if it is empty;
* `Expr.shows`, `Stmt.shows`, …   the statement above, for every kind of tree.
-/

namespace PascalStack

/-! ## rows -/

def deeper (row : Nat × String) : Nat × String := (row.1 + 1, row.2)

mutual

theorem Outline.rows_succ (depth : Nat) (o : Outline) : o.rows (depth + 1) = (o.rows depth).map deeper := by
  cases o with
  | node text children => rw [rows, rows, rowsAll_succ (depth + 1) children, List.map_cons, deeper]

theorem Outline.rowsAll_succ (depth : Nat) (os : List Outline) :
    rowsAll (depth + 1) os = (rowsAll depth os).map deeper := by
  cases os with
  | nil => rfl
  | cons o os => rw [rowsAll, rowsAll, rows_succ depth o, rowsAll_succ depth os, List.map_append]

end

theorem Outline.rowsAll_append (depth : Nat) (os os' : List Outline) :
    rowsAll depth (os ++ os') = rowsAll depth os ++ rowsAll depth os' := by
  induction os with
  | nil => rfl
  | cons o os ih => rw [List.cons_append, rowsAll, rowsAll, ih, List.append_assoc]

section
variable (indent start : Nat)

theorem renderRow_deeper (row : Nat × String) :
    renderRow indent start (deeper row) = renderRow indent (start + indent) row := by
  have hblanks : start + indent * (row.1 + 1) = start + indent + indent * row.1 := by
    rw [Nat.mul_succ, Nat.add_comm (indent * row.1), Nat.add_assoc]
  rw [renderRow, renderRow, deeper, hblanks]

/-- Rows further in are rows after more blanks. -/
theorem renderRows_deeper (rows : List (Nat × String)) :
    renderRows indent start (rows.map deeper) = renderRows indent (start + indent) rows := by
  have hrow : renderRow indent start ∘ deeper = renderRow indent (start + indent) :=
    funext (renderRow_deeper indent start)
  rw [renderRows, renderRows, List.map_map, hrow]

theorem renderRows_append (rows rows' : List (Nat × String)) :
    renderRows indent start (rows ++ rows') = renderRows indent start rows ++ renderRows indent start rows' := by
  rw [renderRows, renderRows, renderRows, List.map_append, String.join_append]

end

/-! ## what a printer shows -/

namespace Printing

/-- The text is that of some outlines at the current indentation, and the printer is left as it was. -/
def Shows (m : Printing) (os : List Outline) : Prop :=
  ∀ printer : Printer,
    m.run printer = (renderRows printer.indent printer.current (Outline.rowsAll 0 os), printer)

section
variable {m : Printing} {ms : List Printing} {os os' : List Outline}

theorem run_all_cons {first second third : Printer} {text rest : String} (h : m.run first = (text, second))
    (hs : (all ms).run second = (rest, third)) : (all (m :: ms)).run first = (text ++ rest, third) := by
  show ((m.run first).1 ++ ((all ms).run (m.run first).2).1, ((all ms).run (m.run first).2).2) = _
  rw [h, hs]

theorem run_nested (m : Printing) (printer : Printer) :
    (nested m).run printer =
      let inner := m.run { printer with current := printer.current + printer.indent }
      (inner.1, { inner.2 with current := inner.2.current - inner.2.indent }) := rfl

theorem shows_line (text : String) : (line text).Shows [.leaf text] := by
  intro printer
  have hrow : renderRow printer.indent printer.current (0, text) =
      String.ofList (List.replicate printer.current ' ') ++ text ++ "\n" := rfl
  have hrows : renderRows printer.indent printer.current (Outline.rowsAll 0 [.leaf text]) =
      renderRow printer.indent printer.current (0, text) := by
    rw [renderRows, Outline.leaf, Outline.rowsAll, Outline.rows, Outline.rowsAll, Outline.rowsAll,
      List.append_nil, List.map_singleton, String.join_cons, String.join_nil, String.append_empty]
  rw [hrows, hrow]
  rfl

theorem shows_nil : (all []).Shows [] := fun _ => rfl

theorem Shows.cons (h : m.Shows os) (hs : (all ms).Shows os') : (all (m :: ms)).Shows (os ++ os') := by
  intro printer
  rw [Outline.rowsAll_append, renderRows_append]
  exact run_all_cons (h printer) (hs printer)

/-- What is printed further in stands one level deeper, and the step inwards is taken back. -/
theorem Shows.nested (h : m.Shows os) (printer : Printer) :
    (nested m).run printer =
      (renderRows printer.indent printer.current (Outline.rowsAll 1 os), printer) := by
  rw [run_nested, h, Outline.rowsAll_succ, renderRows_deeper]
  dsimp only
  -- the inner printer comes back with `current + indent`, from which `indent` is taken off again
  rw [Nat.add_sub_cancel]

theorem Shows.labeled (label : String) (h : m.Shows os) : (labeled label m).Shows [.node label os] := by
  intro printer
  have hrows : Outline.rowsAll 0 [.node label os] =
      Outline.rowsAll 0 [.leaf label] ++ (Outline.rowsAll 1 os ++ Outline.rowsAll 0 []) := rfl
  rw [hrows, renderRows_append, renderRows_append]
  exact run_all_cons (shows_line label printer) (run_all_cons (h.nested printer) (shows_nil printer))

theorem Shows.group (label : String) (h : (all ms).Shows os) (hnil : ms = [] ↔ os = []) :
    (group label ms).Shows (groupOutline label os) := by
  cases ms with
  | nil =>
    rw [hnil.mp rfl]
    exact shows_nil
  | cons m ms =>
    cases os with
    | nil => cases hnil.mpr rfl
    | cons o os => exact h.labeled label

end

end Printing

/-! ## trees -/

open Printing

theorem argumentVisits_eq_nil_iff (arguments : List Argument) :
    argumentVisits arguments = [] ↔ argumentOutlines arguments = [] := by
  cases arguments with
  | nil => exact iff_of_true rfl rfl
  | cons a arguments => exact iff_of_false (List.cons_ne_nil _ _) (List.cons_ne_nil _ _)

mutual

theorem Expr.shows (e : Expr) : e.visit.Shows [e.outline] := by
  cases e with
  | access a => exact a.shows
  | call name arguments =>
    have harguments := (shows_arguments arguments).group "Params:" (argumentVisits_eq_nil_iff arguments)
    have hparts := (shows_line ("Function: " ++ name)).cons (harguments.cons shows_nil)
    rw [List.append_nil] at hparts
    exact hparts.labeled _
  | binary op left right =>
    exact ((left.shows.labeled _).cons ((right.shows.labeled _).cons shows_nil)).labeled _
  | signed sign operand => exact operand.shows.labeled _
  | power base exponent =>
    exact ((base.shows.labeled _).cons ((exponent.shows.labeled _).cons shows_nil)).labeled _
  | not operand => exact operand.shows.labeled _
  | constant c => exact shows_line _
  | set members => exact (shows_members members).labeled _

theorem Access.shows (a : Access) : a.visit.Shows [a.outline] := by
  cases a with
  | name id => exact shows_line _
  | index base indices =>
    have hindices := (shows_exprs indices).labeled "Indices:"
    exact ((base.shows.labeled _).cons (hindices.cons shows_nil)).labeled _
  | field base name => exact ((base.shows.labeled _).cons ((shows_line _).cons shows_nil)).labeled _
  | deref base => exact base.shows.labeled _

theorem Argument.shows (a : Argument) : a.visit.Shows [a.outline] := by
  cases a with
  | value e => exact e.shows
  | wide e width =>
    exact ((e.shows.labeled _).cons ((width.shows.labeled _).cons shows_nil)).labeled _
  | precise e width precision =>
    have hprecision := (precision.shows.labeled "Precision:").cons shows_nil
    exact ((e.shows.labeled _).cons ((width.shows.labeled _).cons hprecision)).labeled _

theorem Member.shows (m : Member) : m.visit.Shows [m.outline] := by
  cases m with
  | single e => exact e.shows
  | range low high =>
    exact ((low.shows.labeled _).cons ((high.shows.labeled _).cons shows_nil)).labeled _

theorem shows_exprs (es : List Expr) : (all (exprVisits es)).Shows (exprOutlines es) := by
  cases es with
  | nil => exact shows_nil
  | cons e es => exact e.shows.cons (shows_exprs es)

theorem shows_arguments (arguments : List Argument) :
    (all (argumentVisits arguments)).Shows (argumentOutlines arguments) := by
  cases arguments with
  | nil => exact shows_nil
  | cons a arguments => exact a.shows.cons (shows_arguments arguments)

theorem shows_members (members : List Member) :
    (all (memberVisits members)).Shows (memberOutlines members) := by
  cases members with
  | nil => exact shows_nil
  | cons m members => exact m.shows.cons (shows_members members)

end

theorem groupOutline_eq_nil_iff {title : String} {os : List Outline} :
    groupOutline title os = [] ↔ os = [] := by
  cases os with
  | nil => exact iff_of_true rfl rfl
  | cons o os => exact iff_of_false (List.cons_ne_nil _ _) (List.cons_ne_nil _ _)

mutual

/-- A statement has no outline just if it is empty. -/
theorem Stmt.outline_eq_nil_iff (s : Stmt) : s.outline = [] ↔ s.isEmpty = true := by
  cases s with
  | compound body =>
    rw [Stmt.outline, compoundOutline, groupOutline_eq_nil_iff, Stmt.isEmpty, stmtOutlines_eq_nil_iff body]
  | assign | ifThen | ifThenElse | whileDo | forDo | call =>
    exact iff_of_false (List.cons_ne_nil _ _) Bool.false_ne_true

theorem stmtOutlines_eq_nil_iff (ss : List Stmt) : stmtOutlines ss = [] ↔ allEmpty ss = true := by
  cases ss with
  | nil => exact iff_of_true rfl rfl
  | cons s ss =>
    rw [stmtOutlines, allEmpty, List.append_eq_nil_iff, Bool.and_eq_true, s.outline_eq_nil_iff,
      stmtOutlines_eq_nil_iff ss]

end

theorem stmtVisits_eq_nil_iff (ss : List Stmt) : stmtVisits ss = [] ↔ stmtOutlines ss = [] := by
  rw [stmtOutlines_eq_nil_iff]
  induction ss with
  | nil => exact iff_of_true rfl rfl
  | cons s ss ih =>
    rw [stmtVisits, allEmpty, Bool.and_eq_true]
    split
    · rename_i hs
      rw [ih, and_iff_right hs]
    · rename_i hs
      exact iff_of_false (List.cons_ne_nil _ _) fun h => hs h.1

mutual

theorem Stmt.shows (s : Stmt) : s.visit.Shows s.outline := by
  cases s with
  | compound body => exact (shows_statements body).group _ (stmtVisits_eq_nil_iff body)
  | assign target value =>
    exact ((target.shows.labeled _).cons ((value.shows.labeled _).cons shows_nil)).labeled _
  | ifThen condition thenBranch =>
    exact ((condition.shows.labeled _).cons ((thenBranch.shows.labeled _).cons shows_nil)).labeled _
  | ifThenElse condition thenBranch elseBranch =>
    have helse := (elseBranch.shows.labeled "Else:").cons shows_nil
    exact ((condition.shows.labeled _).cons ((thenBranch.shows.labeled _).cons helse)).labeled _
  | whileDo condition body =>
    exact ((condition.shows.labeled _).cons ((body.shows.labeled _).cons shows_nil)).labeled _
  | forDo control initial direction final body =>
    have hfinal := (final.shows.labeled "FinalValue:").cons ((body.shows.labeled "Body:").cons shows_nil)
    have hdirection := (shows_line ("Direction: " ++ direction.text)).cons hfinal
    exact ((shows_line _).cons ((initial.shows.labeled _).cons hdirection)).labeled _
  | call name arguments =>
    exact ((shows_arguments arguments).group _ (argumentVisits_eq_nil_iff arguments)).labeled _

theorem shows_statements (ss : List Stmt) : (all (stmtVisits ss)).Shows (stmtOutlines ss) := by
  cases ss with
  | nil => exact shows_nil
  | cons s ss =>
    rw [stmtVisits, stmtOutlines]
    -- a statement that is left out is empty, so it adds nothing to the outlines either
    split
    · rename_i hs
      rw [s.outline_eq_nil_iff.2 hs, List.nil_append]
      exact shows_statements ss
    · exact s.shows.cons (shows_statements ss)

end

theorem TypeDenoter.shows (t : TypeDenoter) : t.visit.Shows [t.outline] := by
  induction t with
  | array low high element ih =>
    have hrange := ((low.shows.labeled "From:").cons ((high.shows.labeled "To:").cons shows_nil)).labeled
      "Index Range:"
    exact (hrange.cons ((ih.labeled _).cons shows_nil)).labeled _
  | real | integer | boolean | string | char => exact shows_line _

theorem VarDecl.shows (v : VarDecl) : v.visit.Shows [v.outline] :=
  ((shows_line _).cons ((v.type.shows.labeled _).cons shows_nil)).labeled _

theorem shows_declarations (vs : List VarDecl) :
    (all (vs.map VarDecl.visit)).Shows (vs.map VarDecl.outline) := by
  induction vs with
  | nil => exact shows_nil
  | cons v vs ih => exact v.shows.cons ih

theorem functionVisits_eq_nil_iff (fs : List FunctionDecl) :
    functionVisits fs = [] ↔ functionOutlines fs = [] := by
  cases fs with
  | nil => exact iff_of_true rfl rfl
  | cons f fs => exact iff_of_false (List.cons_ne_nil _ _) (List.cons_ne_nil _ _)

mutual

theorem Block.shows (b : Block) : b.visit.Shows b.outline := by
  cases b with
  | mk functions declarations statements =>
    have hfunctions := (shows_functions functions).group "Functions:" (functionVisits_eq_nil_iff functions)
    have hdeclarations := (shows_declarations declarations).group "Variables:"
      (by rw [List.map_eq_nil_iff, List.map_eq_nil_iff])
    have hstatements := ((shows_statements statements).group "CompoundStatement:"
      (stmtVisits_eq_nil_iff statements)).labeled "Statements:"
    have hparts := hfunctions.cons (hdeclarations.cons (hstatements.cons shows_nil))
    rw [← List.append_assoc] at hparts
    exact hparts

theorem FunctionDecl.shows (f : FunctionDecl) : f.visit.Shows [f.outline] := by
  cases f with
  | definition heading block =>
    exact ((shows_line _).cons ((block.shows.labeled _).cons shows_nil)).labeled _
  | directive heading d => exact ((shows_line _).cons ((shows_line _).cons shows_nil)).labeled _
  | body name block => exact ((shows_line _).cons ((block.shows.labeled _).cons shows_nil)).labeled _

theorem shows_functions (fs : List FunctionDecl) : (all (functionVisits fs)).Shows (functionOutlines fs) := by
  cases fs with
  | nil => exact shows_nil
  | cons f fs => exact f.shows.cons (shows_functions fs)

end

theorem Program.shows (p : Program) : p.visit.Shows [p.outline] :=
  ((shows_line _).cons ((p.block.shows.labeled _).cons shows_nil)).labeled _

/-- The text of a program is that of its outline. -/
theorem Program.print_eq (p : Program) (indent : Nat) : p.print indent = renderOutlines indent [p.outline] := by
  rw [Program.print, p.shows, renderOutlines]

end PascalStack
