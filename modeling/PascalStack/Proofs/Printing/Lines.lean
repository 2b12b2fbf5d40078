import PascalStack.Proofs.Machine.Loading
import PascalStack.Proofs.Printing.Nodes

/-!
# The lines of outlines

In a tree whose names and literals have no line feeds, every text of the outline fits on a line of its own and
starts with something else than a blank.

* `Unbroken`        a text without line feeds;
* `IsLine`          such a text that starts with something else than a blank;
* `Outline.Plain`   an outline of such texts;
* `Node.Unbroken`   the names and the literal that stand in a node are unbroken;
* `Node.plain`      the statement above.
-/

namespace PascalStack

/-! ## texts -/

def Unbroken (text : String) : Prop := '\n' ∉ text.toList

instance : DecidablePred Unbroken := fun text => inferInstanceAs (Decidable ('\n' ∉ text.toList))

theorem unbroken_append {a b : String} : Unbroken (a ++ b) ↔ Unbroken a ∧ Unbroken b := by
  rw [Unbroken, String.toList_append, List.mem_append, not_or, Unbroken, Unbroken]

theorem unbroken_intercalate {separator : String} (h : Unbroken separator) {texts : List String}
    (htexts : ∀ text ∈ texts, Unbroken text) : Unbroken (String.intercalate separator texts) := by
  induction texts with
  | nil => exact List.not_mem_nil
  | cons text texts ih =>
    obtain ⟨htext, htexts⟩ := List.forall_mem_cons.1 htexts
    cases texts with
    | nil => exact htext
    | cons next texts =>
      rw [String.intercalate_cons_cons]
      exact unbroken_append.2 ⟨unbroken_append.2 ⟨htext, h⟩, ih htexts⟩

theorem IsName.unbroken {name : String} (h : IsName name) : Unbroken name := by
  intro hmem
  have hpart : isWordPart '\n' = true := h.parts _ hmem
  exact absurd hpart (by decide)

/-- A text without line feeds that starts with something else than a blank. -/
def IsLine (text : String) : Prop := text.toList.head?.any (· ≠ ' ') = true ∧ Unbroken text

instance : DecidablePred IsLine := fun _ => inferInstanceAs (Decidable (_ ∧ _))

theorem IsLine.append {label text : String} (htext : Unbroken text) (h : IsLine label := by decide) :
    IsLine (label ++ text) := by
  refine ⟨?_, unbroken_append.2 ⟨h.2, htext⟩⟩
  obtain ⟨c, hc, hne⟩ := (Option.any_eq_true _ _).1 h.1
  rw [String.toList_append, List.head?_append, hc]
  exact hne

/-! ## texts of trees -/

def Constant.OneLine : Constant → Prop
  | .char c => c ≠ '\n'
  | .string s => Unbroken s
  | .integer _ | .real _ | .nil => True

instance : DecidablePred Constant.OneLine
  | .char c => inferInstanceAs (Decidable (c ≠ '\n'))
  | .string s => inferInstanceAs (Decidable (Unbroken s))
  | .integer _ | .real _ | .nil => .isTrue trivial

theorem unbroken_integerText (n : Int64) : Unbroken (integerText n) :=
  newline_not_mem fun _ => Text.isBlank_integerText

theorem Constant.OneLine.shown {c : Constant} (h : c.OneLine) : Unbroken c.shown := by
  cases c with
  | integer n => exact unbroken_integerText n
  | real x => exact newline_not_mem fun _ => Double.isBlank_literal
  | char c =>
    rw [Constant.shown, unbroken_append, unbroken_append]
    refine ⟨⟨by decide, fun hmem => ?_⟩, by decide⟩
    rw [Char.toString_eq_singleton, String.toList_singleton, List.mem_singleton] at hmem
    exact h hmem.symm
  | string s =>
    rw [Constant.shown, unbroken_append, unbroken_append]
    exact ⟨⟨by decide, h⟩, by decide⟩
  | nil => decide

theorem unbroken_boundText (e : Expr) : Unbroken (boundText e) := by
  unfold boundText
  split
  · exact unbroken_integerText _
  · decide

theorem TypeDenoter.isLine_text (t : TypeDenoter) : IsLine t.text := by
  induction t with
  | array low high element ih =>
    rw [TypeDenoter.text, String.append_assoc, String.append_assoc, String.append_assoc, String.append_assoc]
    refine .append ?_
    rw [unbroken_append, unbroken_append, unbroken_append, unbroken_append]
    exact ⟨unbroken_boundText low, by decide, unbroken_boundText high, by decide, ih.2⟩
  | real | integer | boolean | string | char => decide

theorem unbroken_headingText {name : String} {sections : List String} (hname : Unbroken name)
    (hsections : ∀ text ∈ sections, Unbroken text) (result : TypeDenoter) :
    Unbroken (headingText name sections result) := by
  have hresult := result.isLine_text.2
  unfold headingText
  split
  · rw [unbroken_append, unbroken_append]
    exact ⟨⟨hname, by decide⟩, hresult⟩
  · have hjoined := unbroken_intercalate (by decide : Unbroken "; ") hsections
    rw [unbroken_append, unbroken_append, unbroken_append, unbroken_append]
    exact ⟨⟨⟨⟨hname, by decide⟩, hjoined⟩, by decide⟩, hresult⟩

mutual

theorem ParameterSection.unbroken_text (p : ParameterSection) (h : ∀ x ∈ p.names, Unbroken x) :
    Unbroken p.text := by
  cases p with
  | value names t =>
    rw [ParameterSection.text, unbroken_append, unbroken_append]
    exact ⟨⟨unbroken_intercalate (by decide) h, by decide⟩, t.isLine_text.2⟩
  | reference names t =>
    rw [ParameterSection.text, unbroken_append, unbroken_append, unbroken_append]
    exact ⟨⟨⟨by decide, unbroken_intercalate (by decide) h⟩, by decide⟩, t.isLine_text.2⟩
  | function name parameters result =>
    obtain ⟨hname, hparameters⟩ := List.forall_mem_cons.1 h
    rw [ParameterSection.text, unbroken_append]
    exact ⟨by decide, unbroken_headingText hname (unbroken_sectionTexts parameters hparameters) result⟩

theorem unbroken_sectionTexts (ps : List ParameterSection) (h : ∀ x ∈ sectionNames ps, Unbroken x) :
    ∀ text ∈ sectionTexts ps, Unbroken text := by
  cases ps with
  | nil => exact List.forall_mem_nil _
  | cons p ps =>
    obtain ⟨hp, hps⟩ := List.forall_mem_append.1 h
    exact List.forall_mem_cons.2 ⟨p.unbroken_text hp, unbroken_sectionTexts ps hps⟩

end

theorem Heading.unbroken_text (h : Heading) (hnames : ∀ x ∈ h.names, Unbroken x) : Unbroken h.text := by
  obtain ⟨hname, hparameters⟩ := List.forall_mem_cons.1 hnames
  exact unbroken_headingText hname (unbroken_sectionTexts h.parameters hparameters) h.result

theorem Program.unbroken_headingText (p : Program) (h : ∀ x ∈ p.name :: p.parameters, Unbroken x) :
    Unbroken p.headingText := by
  obtain ⟨hname, hparameters⟩ := List.forall_mem_cons.1 h
  unfold Program.headingText
  split
  · exact hname
  · have hjoined := unbroken_intercalate (by decide : Unbroken ", ") hparameters
    rw [unbroken_append, unbroken_append, unbroken_append]
    exact ⟨⟨⟨hname, by decide⟩, hjoined⟩, by decide⟩

/-! ## outlines -/

/-- Every text of an outline is a line. -/
inductive Outline.Plain : Outline → Prop
  | node {text : String} {children : List Outline} (htext : IsLine text)
      (hchildren : ∀ o ∈ children, o.Plain) : Plain (.node text children)

mutual

theorem Outline.isLine_rows (depth : Nat) (o : Outline) (h : o.Plain) : ∀ row ∈ o.rows depth, IsLine row.2 := by
  cases h with
  | node htext hchildren => exact List.forall_mem_cons.2 ⟨htext, isLine_rowsAll (depth + 1) _ hchildren⟩

theorem Outline.isLine_rowsAll (depth : Nat) (os : List Outline) (h : ∀ o ∈ os, o.Plain) :
    ∀ row ∈ rowsAll depth os, IsLine row.2 := by
  cases os with
  | nil => exact List.forall_mem_nil _
  | cons o os =>
    obtain ⟨ho, hos⟩ := List.forall_mem_cons.1 h
    exact List.forall_mem_append.2 ⟨isLine_rows depth o ho, isLine_rowsAll depth os hos⟩

end

namespace Outline.Plain
variable {text : String} {o o' : Outline} {os : List Outline}

theorem leaf (h : IsLine text) : (Outline.leaf text).Plain := .node h (List.forall_mem_nil _)

-- labels are closed texts but for an operator or a name, so that they are lines is left to `decide`
theorem many (h : ∀ o ∈ os, o.Plain) (htext : IsLine text := by decide) : (Outline.node text os).Plain :=
  .node htext h

theorem one (h : o.Plain) (htext : IsLine text := by decide) : (Outline.node text [o]).Plain :=
  .node htext (List.forall_mem_singleton.2 h)

theorem two (h : o.Plain) (h' : o'.Plain) (htext : IsLine text := by decide) :
    (Outline.node text [o, o']).Plain :=
  .node htext (List.forall_mem_cons.2 ⟨h, List.forall_mem_singleton.2 h'⟩)

theorem group (h : ∀ o ∈ os, o.Plain) (htext : IsLine text := by decide) :
    ∀ o ∈ groupOutline text os, o.Plain := by
  cases os with
  | nil => exact List.forall_mem_nil _
  | cons o os => exact List.forall_mem_singleton.2 (.node htext h)

end Outline.Plain

/-! ## nodes -/

/-- The names and the literal that stand in a node itself have no line feeds. -/
structure Node.Unbroken (n : Node) : Prop where
  names : ∀ x ∈ n.names, PascalStack.Unbroken x
  literal : ∀ c, n = .expr (.constant c) → c.OneLine

theorem Node.mem_argument {arguments : List Argument} {a : Argument} (ha : a ∈ arguments) {e : Expr}
    (he : e ∈ a.exprs) : Node.expr e ∈ (arguments.flatMap Argument.exprs).map Node.expr :=
  List.mem_map_of_mem (List.mem_flatMap.2 ⟨a, ha, he⟩)

theorem BinaryOp.isLine_label (op : BinaryOp) : IsLine ("BinaryExpression (" ++ op.symbol ++ "):") := by
  have hsymbol : Unbroken op.symbol := by cases op <;> decide
  rw [String.append_assoc]
  exact .append (unbroken_append.2 ⟨hsymbol, by decide⟩)

theorem Sign.isLine_label (sign : Sign) : IsLine ("SignedExpression (" ++ sign.symbol ++ "):") := by
  have hsymbol : Unbroken sign.symbol := by cases sign <;> decide
  rw [String.append_assoc]
  exact .append (unbroken_append.2 ⟨hsymbol, by decide⟩)

mutual

theorem Expr.plain (e : Expr) (h : (Node.expr e).All Node.Unbroken) : e.outline.Plain := by
  cases e with
  | access a => exact a.plain (h.child (.head _))
  | call name arguments =>
    have hname : IsLine ("Function: " ++ name) := .append (h.self.names name (.head _))
    have harguments := arguments_plain arguments fun a ha e he => h.child (Node.mem_argument ha he)
    exact .many (List.forall_mem_cons.2 ⟨.leaf hname, .group harguments⟩)
  | binary op left right =>
    have hleft := left.plain (h.child (.head _))
    have hright := right.plain (h.child (.tail _ (.head _)))
    exact .two (.one hleft) (.one hright) op.isLine_label
  | signed sign operand => exact .one (operand.plain (h.child (.head _))) sign.isLine_label
  | power base exponent =>
    have hbase := base.plain (h.child (.head _))
    have hexponent := exponent.plain (h.child (.tail _ (.head _)))
    exact .two (.one hbase) (.one hexponent)
  | not operand => exact .one (operand.plain (h.child (.head _)))
  | constant c => exact .leaf (IsLine.append (h.self.literal c rfl).shown)
  | set members =>
    refine .many (members_plain members fun m hm e he => h.child ?_)
    exact List.mem_map_of_mem (List.mem_flatMap.2 ⟨m, hm, he⟩)

theorem Access.plain (a : Access) (h : (Node.access a).All Node.Unbroken) : a.outline.Plain := by
  cases a with
  | name id => exact .leaf (IsLine.append (h.self.names id (.head _)))
  | index base indices =>
    have hbase := base.plain (h.child (.head _))
    have hindices := exprs_plain indices fun e he => h.child (.tail _ (List.mem_map_of_mem he))
    exact .two (.one hbase) (.many hindices)
  | field base name =>
    have hname : IsLine ("Field: " ++ name) := .append (h.self.names name (.head _))
    exact .two (.one (base.plain (h.child (.head _)))) (.leaf hname)
  | deref base => exact .one (base.plain (h.child (.head _)))

theorem Argument.plain (a : Argument) (h : ∀ e ∈ a.exprs, (Node.expr e).All Node.Unbroken) :
    a.outline.Plain := by
  cases a with
  | value e => exact e.plain (h e (.head _))
  | wide e width =>
    have he := e.plain (h e (.head _))
    have hwidth := width.plain (h width (.tail _ (.head _)))
    exact .two (.one he) (.one hwidth)
  | precise e width precision =>
    have he := e.plain (h e (.head _))
    have hwidth := width.plain (h width (.tail _ (.head _)))
    have hprecision := precision.plain (h precision (.tail _ (.tail _ (.head _))))
    refine .many (List.forall_mem_cons.2 ⟨.one he, List.forall_mem_cons.2 ⟨?_, ?_⟩⟩)
    · exact .one hwidth
    · exact List.forall_mem_singleton.2 (.one hprecision)

theorem Member.plain (m : Member) (h : ∀ e ∈ m.exprs, (Node.expr e).All Node.Unbroken) :
    m.outline.Plain := by
  cases m with
  | single e => exact e.plain (h e (.head _))
  | range low high =>
    have hlow := low.plain (h low (.head _))
    have hhigh := high.plain (h high (.tail _ (.head _)))
    exact .two (.one hlow) (.one hhigh)

theorem exprs_plain (es : List Expr) (h : ∀ e ∈ es, (Node.expr e).All Node.Unbroken) :
    ∀ o ∈ exprOutlines es, o.Plain := by
  cases es with
  | nil => exact List.forall_mem_nil _
  | cons e es =>
    obtain ⟨he, hes⟩ := List.forall_mem_cons.1 h
    exact List.forall_mem_cons.2 ⟨e.plain he, exprs_plain es hes⟩

theorem arguments_plain (arguments : List Argument)
    (h : ∀ a ∈ arguments, ∀ e ∈ a.exprs, (Node.expr e).All Node.Unbroken) :
    ∀ o ∈ argumentOutlines arguments, o.Plain := by
  cases arguments with
  | nil => exact List.forall_mem_nil _
  | cons a arguments =>
    obtain ⟨ha, harguments⟩ := List.forall_mem_cons.1 h
    exact List.forall_mem_cons.2 ⟨a.plain ha, arguments_plain arguments harguments⟩

theorem members_plain (members : List Member)
    (h : ∀ m ∈ members, ∀ e ∈ m.exprs, (Node.expr e).All Node.Unbroken) :
    ∀ o ∈ memberOutlines members, o.Plain := by
  cases members with
  | nil => exact List.forall_mem_nil _
  | cons m members =>
    obtain ⟨hm, hmembers⟩ := List.forall_mem_cons.1 h
    exact List.forall_mem_cons.2 ⟨m.plain hm, members_plain members hmembers⟩

end

mutual

theorem Stmt.plain (s : Stmt) (h : (Node.stmt s).All Node.Unbroken) : ∀ o ∈ s.outline, o.Plain := by
  cases s with
  | compound body =>
    exact .group (stmts_plain body fun s hs => h.child (List.mem_map_of_mem hs))
  | assign target value =>
    have htarget := target.plain (h.child (.head _))
    have hvalue := value.plain (h.child (.tail _ (.head _)))
    exact List.forall_mem_singleton.2 (.two (.one htarget) (.one hvalue))
  | ifThen condition thenBranch =>
    have hcondition := condition.plain (h.child (.head _))
    have hthen := thenBranch.plain (h.child (.tail _ (.head _)))
    exact List.forall_mem_singleton.2 (.two (.one hcondition) (.many hthen))
  | ifThenElse condition thenBranch elseBranch =>
    have hcondition := condition.plain (h.child (.head _))
    have hthen := thenBranch.plain (h.child (.tail _ (.head _)))
    have helse := elseBranch.plain (h.child (.tail _ (.tail _ (.head _))))
    refine List.forall_mem_singleton.2 (.many (List.forall_mem_cons.2 ⟨?_, ?_⟩))
    · exact .one hcondition
    · refine List.forall_mem_cons.2 ⟨.many hthen, ?_⟩
      exact List.forall_mem_singleton.2 (.many helse)
  | whileDo condition body =>
    have hcondition := condition.plain (h.child (.head _))
    have hbody := body.plain (h.child (.tail _ (.head _)))
    exact List.forall_mem_singleton.2 (.two (.one hcondition) (.many hbody))
  | forDo control initial direction final body =>
    have hcontrol : IsLine ("ControlVar: " ++ control) := .append (h.self.names control (.head _))
    have hinitial := initial.plain (h.child (.head _))
    have hdirection : IsLine ("Direction: " ++ direction.text) := .append (by cases direction <;> decide)
    have hfinal := final.plain (h.child (.tail _ (.head _)))
    have hbody := body.plain (h.child (.tail _ (.tail _ (.head _))))
    refine List.forall_mem_singleton.2 (.many (List.forall_mem_cons.2 ⟨.leaf hcontrol, ?_⟩))
    refine List.forall_mem_cons.2 ⟨.one hinitial, List.forall_mem_cons.2 ⟨.leaf hdirection, ?_⟩⟩
    refine List.forall_mem_cons.2 ⟨.one hfinal, ?_⟩
    exact List.forall_mem_singleton.2 (.many hbody)
  | call name arguments =>
    have hname : IsLine ("ProcedureCall: " ++ name) := .append (h.self.names name (.head _))
    have harguments := arguments_plain arguments fun a ha e he => h.child (Node.mem_argument ha he)
    exact List.forall_mem_singleton.2 (.node hname (.group harguments))

theorem stmts_plain (ss : List Stmt) (h : ∀ s ∈ ss, (Node.stmt s).All Node.Unbroken) :
    ∀ o ∈ stmtOutlines ss, o.Plain := by
  cases ss with
  | nil => exact List.forall_mem_nil _
  | cons s ss =>
    obtain ⟨hs, hss⟩ := List.forall_mem_cons.1 h
    exact List.forall_mem_append.2 ⟨s.plain hs, stmts_plain ss hss⟩

end

theorem TypeDenoter.plain (t : TypeDenoter) (h : (Node.type t).All Node.Unbroken) : t.outline.Plain := by
  induction t with
  | array low high element ih =>
    have hlow := low.plain (h.child (.head _))
    have hhigh := high.plain (h.child (.tail _ (.head _)))
    have helement := ih (h.child (.tail _ (.tail _ (.head _))))
    exact .two (.two (.one hlow) (.one hhigh)) (.one helement)
  | real | integer | boolean | string | char => exact .leaf (TypeDenoter.isLine_text _)

theorem VarDecl.plain (v : VarDecl) (h : (Node.declaration v).All Node.Unbroken) : v.outline.Plain := by
  have hnames := unbroken_intercalate (by decide : Unbroken ", ") h.self.names
  have htype := v.type.plain (h.child (.head _))
  exact .two (.leaf (IsLine.append hnames)) (.one htype)

mutual

theorem Block.plain (b : Block) (h : (Node.block b).All Node.Unbroken) : ∀ o ∈ b.outline, o.Plain := by
  cases b with
  | mk functions declarations statements =>
    obtain ⟨hfunctions, hrest⟩ := List.forall_mem_append.1 fun m hm => h.child (m := m) hm
    obtain ⟨hdeclarations, hstatements⟩ := List.forall_mem_append.1 hrest
    rw [List.forall_mem_map] at hfunctions hdeclarations hstatements
    refine List.forall_mem_append.2 ⟨List.forall_mem_append.2 ⟨?_, ?_⟩, List.forall_mem_singleton.2 ?_⟩
    · exact .group (functions_plain functions hfunctions)
    · exact .group (List.forall_mem_map.2 fun v hv => v.plain (hdeclarations v hv))
    · exact .many (.group (stmts_plain statements hstatements))

theorem FunctionDecl.plain (f : FunctionDecl) (h : (Node.function f).All Node.Unbroken) :
    f.outline.Plain := by
  cases f with
  | definition heading block =>
    have hheading : IsLine ("Heading: " ++ heading.text) := .append (heading.unbroken_text h.self.names)
    have hblock := block.plain (h.child (List.mem_append_right _ (.head _)))
    exact .two (.leaf hheading) (.many hblock)
  | directive heading d =>
    have hheading : IsLine ("Heading: " ++ heading.text) := .append (heading.unbroken_text h.self.names)
    have hdirective : IsLine ("Directive: " ++ d.text) := .append (by cases d <;> decide)
    exact .two (.leaf hheading) (.leaf hdirective)
  | body name block =>
    have hheading : IsLine ("Heading: " ++ name) := .append (h.self.names name (.head _))
    have hblock := block.plain (h.child (.head _))
    exact .two (.leaf hheading) (.many hblock)

theorem functions_plain (fs : List FunctionDecl) (h : ∀ f ∈ fs, (Node.function f).All Node.Unbroken) :
    ∀ o ∈ functionOutlines fs, o.Plain := by
  cases fs with
  | nil => exact List.forall_mem_nil _
  | cons f fs =>
    obtain ⟨hf, hfs⟩ := List.forall_mem_cons.1 h
    exact List.forall_mem_cons.2 ⟨f.plain hf, functions_plain fs hfs⟩

end

theorem Program.plain (p : Program) (h : (Node.program p).All Node.Unbroken) : p.outline.Plain := by
  have hheading : IsLine ("Heading: " ++ p.headingText) := .append (p.unbroken_headingText h.self.names)
  have hblock := p.block.plain (h.child (.head _))
  exact .two (.leaf hheading) (.many hblock)

/-- **A node without line feeds in names and literals has an outline of lines.** -/
theorem Node.plain (n : Node) (h : n.All Node.Unbroken) : ∀ o ∈ n.outline, o.Plain := by
  cases n with
  | program p => exact List.forall_mem_singleton.2 (p.plain h)
  | block b => exact b.plain h
  | function f => exact List.forall_mem_singleton.2 (f.plain h)
  | declaration v => exact List.forall_mem_singleton.2 (v.plain h)
  | type t => exact List.forall_mem_singleton.2 (t.plain h)
  | stmt s => exact s.plain h
  | expr e => exact List.forall_mem_singleton.2 (e.plain h)
  | access a => exact List.forall_mem_singleton.2 (a.plain h)

end PascalStack
