import PascalStack.Proofs.Compiler.Labels
import PascalStack.Proofs.Spelling.Expressions

/-!
# Programs in small letters

* `Stmt.compile_small`       the code of statements does not depend on capital letters;
* `Program.compile_small`    nor does that of programs;
* `compileTree_ignores_case`   two programs that differ in capital letters only have the same code but for
                             capital letters in labels, or are rejected for errors of one kind.
-/

namespace PascalStack

open Compile

/-! ## statements -/

theorem allocate_small (size : Nat) : Commutes id (allocate size) (allocate size) := fun _ => rfl

theorem Scopes.declare_small (s : Scopes) (name : String) (v : Variable) :
    Agrees Scopes.small (s.declare name v) (s.small.declare (foldAscii name) v) := by
  have hnames : (s.small.functions.contains (foldAscii name) || s.small.currentTable.contains (foldAscii name)) =
      (s.functions.contains name || s.currentTable.contains name) := by
    rw [currentTable_small, Table.contains_foldAscii, Table.contains_foldAscii, small, Table.contains_map]
  unfold declare
  rw [hnames]
  split
  · exact .error rfl
  · cases hc : s.current with
    | none =>
      simp only [small, hc, Option.map_none, Table.insert_foldAscii]
      exact rfl
    | some function =>
      simp only [small, hc, Option.map_some, Table.insert_foldAscii, Table.modify_foldAscii]
      exact rfl

theorem declare_small (name : String) (v : Variable) :
    Commutes id (declare name v) (declare (foldAscii name) v) :=
  .bind .scopes fun s => .bind (.check (s.declare_small name v)) fun _ => .setScopes rfl

theorem storeTarget_small (name : String) :
    Commutes id (storeTarget name) (storeTarget (foldAscii name)) := by
  refine .bind .get fun c => ?_
  unfold Compiler.small
  rcases c.activation with _ | a
  on_goal 2 =>
    simp only [Option.map_some, Activation.small, foldAscii_foldAscii]
    refine .ite (.pure rfl) ?_
  -- outside of a function, or under another name than its own
  all_goals
    refine .bind .scopes fun s => ?_
    rw [Scopes.resolve?_small]
    cases s.resolve? name with
    | some v => exact .pure rfl
    | none => exact .throw rfl

theorem writableArray_small (name : String) :
    Commutes id (writableArray name) (writableArray (foldAscii name)) := by
  refine .bind .scopes fun s => .bind (.check (s.indexed_small name)) fun v => ?_
  simp only [id_eq]
  cases v.type <;> first | exact .pure rfl | exact .throw rfl

theorem condition_small (e : Expr) (place : Place) :
    Commutes smallCode (condition e place) (condition e.small place) :=
  .bind (typeOf_small e) fun _ => .bind (.check (.refl _)) fun _ => e.compile_small

theorem assign_small (target : Access) (value : Expr) :
    Commutes smallCode (assign target value) (assign target.small value.small) := by
  refine .bind (typeOf_small value) fun t => .bind value.compile_small fun code => ?_
  cases target using Access.byForm with
  | name id =>
    refine .bind (storeTarget_small id) fun r => ?_
    refine .bind (.check (assignConversion_small _ _ _ _)) fun conversion => .pure ?_
    simp only [smallCode_append, smallCode_emitConversion, id_eq]
    rfl
  | element id i =>
    refine .bind (writableArray_small id) fun v => ?_
    refine .bind (.check (assignConversion_small _ _ _ _)) fun conversion => ?_
    refine .bind (addressOf_small v i i.compile_small) fun address => .pure ?_
    simp only [smallCode_append, smallCode_emitConversion, id_eq]
    rfl
  | _ => exact .throw rfl

theorem controlVariable_small (name : String) :
    Commutes id (controlVariable name) (controlVariable (foldAscii name)) := by
  refine .bind .scopes fun s => ?_
  rw [Scopes.resolve?_small]
  cases s.resolve? name with
  | some v => exact .bind (.check (.refl _)) fun _ => .pure rfl
  | none => exact .bind (allocate_small 1) fun slot => .bind (declare_small name _) fun _ => .pure rfl

theorem checkWidths_small (a : Argument) : Commutes id (checkWidths a) (checkWidths a.small) := by
  cases a with
  | value e => exact .pure rfl
  | wide e width => exact .bind (typeOf_small width) fun _ => .check (.refl _)
  | precise e width precision =>
    exact .bind (typeOf_small width) fun _ => .bind (.check (.refl _)) fun _ =>
      .bind (typeOf_small precision) fun _ => .check (.refl _)

theorem writeAll_small (b : Builtin) (arguments : List Argument) :
    Commutes smallCode (writeAll b arguments) (writeAll b (smallArguments arguments)) := by
  induction arguments with
  | nil => exact .pure rfl
  | cons a arguments ih =>
    rw [smallArguments, writeAll, writeAll, a.expr_small]
    refine .bind (checkWidths_small a) fun _ => .bind (typeOf_small a.expr) fun t => ?_
    simp only [id_eq]
    cases t.write? with
    | none => exact .throw rfl
    | some write =>
      refine .bind a.expr.compile_small fun code => .bind ih fun rest => .pure ?_
      simp only [smallCode_append, smallCode_emitBasic]

theorem readingOf_small (t : DataType) : Agrees smallCode (readingOf t) (readingOf t) := by
  cases t <;> first | exact rfl | exact .error rfl

theorem readInto_small (target : Access) : Commutes smallCode (readInto target) (readInto target.small) := by
  cases target using Access.byForm with
  | name id =>
    refine .bind (storeTarget_small id) fun r => .bind (.check (readingOf_small _)) fun reading => .pure ?_
    simp only [smallCode_append, smallCode_emitBasic]
    rfl
  | element id i =>
    refine .bind (writableArray_small id) fun v => .bind (.check (readingOf_small _)) fun reading => ?_
    refine .bind (addressOf_small v i i.compile_small) fun address => .pure ?_
    simp only [smallCode_append, smallCode_emitBasic]
    rfl
  | _ => exact .throw rfl

theorem readLine_small (arguments : List Argument) :
    Commutes smallCode (readLine arguments) (readLine (smallArguments arguments)) := by
  match arguments with
  | [] => exact .pure rfl
  | .value (.access target) :: _ => exact readInto_small target
  | .value (.call _ _) :: _ => exact .throw rfl
  | .value (.binary _ _ _) :: _ => exact .throw rfl
  | .value (.signed _ _) :: _ => exact .throw rfl
  | .value (.power _ _) :: _ => exact .throw rfl
  | .value (.not _) :: _ => exact .throw rfl
  | .value (.constant _) :: _ => exact .throw rfl
  | .value (.set _) :: _ => exact .throw rfl
  | .wide _ _ :: _ => exact .throw rfl
  | .precise _ _ _ :: _ => exact .throw rfl

theorem callStatement_small (name : String) (arguments : List Argument) :
    Commutes smallCode (callStatement name arguments)
      (callStatement (foldAscii name) (smallArguments arguments)) := by
  unfold callStatement
  rw [Builtin.ofName?_foldAscii, length_smallArguments]
  cases Builtin.ofName? name with
  | some b =>
    refine .bind (checkArity_small b _) fun _ => ?_
    have hwrite : Commutes smallCode
        (do let code ← writeAll b arguments; return code ++ emitBasic b.epilogue)
        (do let code ← writeAll b (smallArguments arguments); return code ++ emitBasic b.epilogue) :=
      .bind (writeAll_small b arguments) fun code => .pure (by rw [smallCode_append, smallCode_emitBasic])
    have hfunction : Commutes smallCode
        (do let code ← compileBuiltin b b.parameters arguments
            return code ++ emitBasic b.epilogue ++ emit [.pop 1])
        (do let code ← compileBuiltin b b.parameters (smallArguments arguments)
            return code ++ emitBasic b.epilogue ++ emit [.pop 1]) := by
      refine .bind (compileBuiltin_small arguments b _) fun code => .pure ?_
      rw [smallCode_append, smallCode_append, smallCode_emitBasic]
      rfl
    cases b with
    | write => exact hwrite
    | writeln => exact hwrite
    | read => exact readLine_small arguments
    | readln => exact readLine_small arguments
    | length => exact hfunction
    | charat => exact hfunction
  | none =>
    refine .bind .scopes fun s => ?_
    rw [Scopes.function?_small, Option.isNone_map]
    refine .guard .rfl rfl (.bind (callee_small name _) fun f => ?_)
    refine .bind (compileArguments_small arguments f.label 1 _) fun code => .pure ?_
    rw [smallCode_append, smallCode_append, smallCode_callCode]
    rfl

theorem LabelKind.foldAscii_label (kind : LabelKind) (k : Nat) : foldAscii (kind.label k) = kind.label k := by
  have htext : kind.text.toList.all (fun c => c.toLower = c) = true := by cases kind <;> decide
  exact foldAscii_append_naturalText (fun c hc => of_decide_eq_true (List.all_eq_true.mp htext c hc)) k

theorem smallCode_label (kind : LabelKind) (k : Nat) :
    smallCode [.label (kind.label k)] = [.label (kind.label k)] :=
  congrArg (fun name => [Line.label name]) (kind.foldAscii_label k)

theorem smallCode_ifCode (k : Nat) (a b : List Line) :
    smallCode (ifCode k a b) = ifCode k (smallCode a) (smallCode b) := by
  have hend : smallCode [.label (endIfLabel k)] = _ := smallCode_label .endIf k
  simp only [ifCode, smallCode_append, hend]
  rfl

theorem smallCode_ifElseCode (k : Nat) (a b c : List Line) :
    smallCode (ifElseCode k a b c) = ifElseCode k (smallCode a) (smallCode b) (smallCode c) := by
  have helse : smallCode [.label (elseLabel k)] = _ := smallCode_label .otherwise k
  have hend : smallCode [.label (endIfLabel k)] = _ := smallCode_label .endIf k
  simp only [ifElseCode, smallCode_append, helse, hend]
  rfl

theorem smallCode_whileCode (k : Nat) (a b : List Line) :
    smallCode (whileCode k a b) = whileCode k (smallCode a) (smallCode b) := by
  have hloop : smallCode [.label (whileLabel k)] = _ := smallCode_label .loop k
  have hend : smallCode [.label (endWhileLabel k)] = _ := smallCode_label .endLoop k
  simp only [whileCode, smallCode_append, hloop, hend]
  rfl

theorem smallCode_forCode (k slot : Nat) (direction : Direction) (a b c : List Line) :
    smallCode (forCode k slot direction a b c) =
      forCode k slot direction (smallCode a) (smallCode b) (smallCode c) := by
  have hloop : smallCode [.label (forLabel k)] = _ := smallCode_label .count k
  have hend : smallCode [.label (endForLabel k)] = _ := smallCode_label .endCount k
  simp only [forCode, smallCode_append, hloop, hend]
  rfl

theorem nextIf_small : Commutes id nextIf nextIf := fun _ => rfl
theorem nextWhile_small : Commutes id nextWhile nextWhile := fun _ => rfl
theorem nextFor_small : Commutes id nextFor nextFor := fun _ => rfl

def Stmt.CompilesSmall (s : Stmt) : Prop := Commutes smallCode s.compile s.small.compile

section
variable {c : Expr} {s t : Stmt}

theorem ifThen_small (hs : s.CompilesSmall) : (Stmt.ifThen c s).CompilesSmall := by
  unfold Stmt.CompilesSmall
  rw [Stmt.small, Stmt.compile, Stmt.compile]
  refine .bind nextIf_small fun k => .bind (condition_small c _) fun a => .bind hs fun b => .pure ?_
  exact (smallCode_ifCode k a b).symm

theorem ifThenElse_small (hs : s.CompilesSmall) (ht : t.CompilesSmall) :
    (Stmt.ifThenElse c s t).CompilesSmall := by
  unfold Stmt.CompilesSmall
  rw [Stmt.small, Stmt.compile, Stmt.compile]
  refine .bind nextIf_small fun k => .bind (condition_small c _) fun a => ?_
  exact .bind hs fun b => .bind ht fun d => .pure (smallCode_ifElseCode k a b d).symm

theorem whileDo_small (hs : s.CompilesSmall) : (Stmt.whileDo c s).CompilesSmall := by
  unfold Stmt.CompilesSmall
  rw [Stmt.small, Stmt.compile, Stmt.compile]
  refine .bind nextWhile_small fun k => .bind (condition_small c _) fun a => .bind hs fun b => .pure ?_
  exact (smallCode_whileCode k a b).symm

theorem forDo_small {control : String} {initial final : Expr} {direction : Direction}
    (hs : s.CompilesSmall) : (Stmt.forDo control initial direction final s).CompilesSmall := by
  unfold Stmt.CompilesSmall
  rw [Stmt.small, Stmt.compile, Stmt.compile]
  refine .bind nextFor_small fun k => .bind (controlVariable_small control) fun slot => ?_
  refine .bind (typeOf_small initial) fun _ => .bind (.check (.refl _)) fun _ => ?_
  refine .bind (typeOf_small final) fun _ => .bind (.check (.refl _)) fun _ => ?_
  refine .bind initial.compile_small fun a => .bind final.compile_small fun b => .bind hs fun d => .pure ?_
  exact (smallCode_forCode k slot direction a b d).symm

end

mutual

theorem Stmt.compile_small : (s : Stmt) → s.CompilesSmall
  | .compound body => compileAll_small body
  | .assign target value => assign_small target value
  | .ifThen _ s => ifThen_small s.compile_small
  | .ifThenElse _ s t => ifThenElse_small s.compile_small t.compile_small
  | .whileDo _ s => whileDo_small s.compile_small
  | .forDo _ _ _ _ s => forDo_small s.compile_small
  | .call name arguments => callStatement_small name arguments

theorem compileAll_small : (ss : List Stmt) → Commutes smallCode (compileAll ss) (compileAll (smallStmts ss))
  | [] => .pure rfl
  | s :: ss => .bind s.compile_small fun a => .bind (compileAll_small ss) fun b => .pure (smallCode_append a b).symm

end

/-! ## declarations -/

theorem smallCode_declared (first : Op String) (hfirst : ∀ target, first ≠ .pusha target) (slots : List Nat) :
    smallCode (emit (first :: slots.map fun slot => .storeg (some slot))) =
      emit (first :: slots.map fun slot => .storeg (some slot)) := by
  refine smallCode_emit fun o ho => ?_
  rcases List.mem_cons.mp ho with rfl | ho
  · exact hfirst
  · obtain ⟨slot, -, rfl⟩ := List.mem_map.mp ho
    simp

theorem declareArrays_small (low high : Expr) (t : DataType) (names : List String) :
    Commutes smallCode (declareArrays low high t names)
      (declareArrays low.small high.small t (names.map foldAscii)) := by
  induction names with
  | nil => exact .pure rfl
  | cons name names ih =>
    rw [List.map_cons, declareArrays, declareArrays, Expr.constant?_small, Expr.constant?_small]
    cases low.constant? with
    | none => exact .throw rfl
    | some l =>
      cases high.constant? with
      | none => exact .throw rfl
      | some h =>
        simp only
        cases arraySize? l h with
        | none => exact .throw rfl
        | some size =>
          refine .bind (allocate_small size) fun base => .bind (declare_small name _) fun _ => ?_
          refine .bind ih fun rest => .pure ?_
          rw [smallCode_append, smallCode_declared _ (by simp)]
          rfl

theorem declareScalars_small (t : DataType) (names : List String) :
    Commutes smallCode (declareScalars t names) (declareScalars t (names.map foldAscii)) := by
  induction names with
  | nil => exact .pure rfl
  | cons name names ih =>
    rw [List.map_cons, declareScalars, declareScalars]
    refine .bind (allocate_small 1) fun slot => .bind (declare_small name _) fun _ => .bind ih fun rest => .pure ?_
    rw [smallCode_append]
    cases t <;> rfl

theorem VarDecl.compile_small (v : VarDecl) : Commutes smallCode v.compile v.small.compile := by
  obtain ⟨names, type⟩ := v
  cases type with
  | array low high element =>
    simp only [VarDecl.compile, VarDecl.small, TypeDenoter.small, DataType.ofScalar?_small]
    cases DataType.ofScalar? element with
    | some t => exact declareArrays_small low high t names
    | none => exact .throw rfl
  | real => exact declareScalars_small _ names
  | integer => exact declareScalars_small _ names
  | boolean => exact declareScalars_small _ names
  | string => exact declareScalars_small _ names
  | char => exact declareScalars_small _ names

theorem compileVariables_small (vs : List VarDecl) :
    Commutes smallCode (compileVariables vs) (compileVariables (vs.map VarDecl.small)) := by
  induction vs with
  | nil => exact .pure rfl
  | cons v vs ih => exact .bind v.compile_small fun a => .bind ih fun b => .pure (smallCode_append a b).symm

/-! ## functions -/

theorem parameterList_small (ps : List ParameterSection) :
    Agrees (List.map (Prod.map foldAscii id)) (parameterList ps) (parameterList (smallSections ps)) := by
  induction ps with
  | nil => exact rfl
  | cons p ps ih =>
    have hgroup : ∀ (names : List String) (type : TypeDenoter), Agrees (List.map (Prod.map foldAscii id))
        (parameterList (.value names type :: ps))
        (parameterList (.value (names.map foldAscii) type.small :: smallSections ps)) := by
      intro names type
      rw [parameterList, parameterList, DataType.ofScalar?_small]
      cases DataType.ofScalar? type with
      | none => exact .error rfl
      | some t =>
        refine ih.bind fun rest => ?_
        show Except.ok _ = Except.ok _
        rw [List.map_append, List.map_map, List.map_map]
        rfl
    cases p with
    | value names type => exact hgroup names type
    | reference names type => exact hgroup names type
    | function name parameters result => exact .error rfl

theorem declareParameters_small (ps : List (String × DataType)) :
    Commutes id (declareParameters ps) (declareParameters (ps.map (Prod.map foldAscii id))) := by
  induction ps with
  | nil => exact .pure rfl
  | cons p ps ih =>
    obtain ⟨name, t⟩ := p
    exact .bind (allocate_small 1) fun slot => .bind (declare_small name _) fun _ =>
      .bind ih fun slots => .pure rfl

theorem Heading.resultType_small (h : Heading) : Agrees id h.resultType h.small.resultType := by
  unfold Heading.resultType Heading.small
  rw [DataType.ofScalar?_small]
  cases DataType.ofScalar? h.result with
  | some t => exact rfl
  | none => exact .error rfl

theorem Heading.signature_small (h : Heading) (d : Option Directive) :
    Agrees Signature.small (h.signature d) (h.small.signature d) := by
  unfold Heading.signature
  refine .guard ?_ rfl (.guard ?_ rfl ?_)
  · show foldAscii h.name = _ ↔ foldAscii (foldAscii h.name) = _
    rw [foldAscii_foldAscii]
  · show _ ↔ (Builtin.ofName? (foldAscii h.name)).isSome = true
    rw [Builtin.ofName?_foldAscii]
  · refine (parameterList_small h.parameters).bind fun ps => h.resultType_small.bind fun t => ?_
    show Except.ok _ = Except.ok _
    rw [List.map_map]
    rfl

theorem smallCode_functionCode (label : String) (result : Nat) (slots : List Nat) (a b : List Line) :
    smallCode (functionCode label result slots a b) =
      functionCode (foldAscii label) result slots (smallCode a) (smallCode b) := by
  have hstores : smallCode (emit (slots.reverse.map fun slot => .storeg (some slot))) = _ :=
    smallCode_emit fun o ho => by
      obtain ⟨slot, -, rfl⟩ := List.mem_map.mp ho
      simp
  simp only [functionCode, smallCode_append, hstores]
  rfl

theorem isEmpty_smallFunctions (fs : List FunctionDecl) : (smallFunctions fs).isEmpty = fs.isEmpty := by
  cases fs <;> rfl

theorem Scopes.enter_small (s : Scopes) (label : String) :
    s.small.enter (foldAscii label) = (s.enter label).small := by
  unfold enter small
  rw [Table.contains_foldAscii, Table.insert_foldAscii]
  rfl

theorem compileBody_small (label : String) (heading : Heading) (block : Block) :
    Commutes smallCode (compileBody label heading block)
      (compileBody (foldAscii label) heading.small block.small) := by
  obtain ⟨fs, vs, ss⟩ := block
  unfold compileBody
  rw [Block.small, Block.functions, Block.functions, isEmpty_smallFunctions]
  refine .guard .rfl rfl (.bind (.check heading.resultType_small) fun result => .bind .scopes fun s => ?_)
  refine .bind (.setScopes (s.enter_small label)) fun _ => .bind (allocate_small 1) fun slot => ?_
  refine .bind (.modified fun _ => rfl) fun _ => ?_
  refine .bind (.check (parameterList_small heading.parameters)) fun ps => ?_
  refine .bind (declareParameters_small ps) fun slots => .bind (compileVariables_small vs) fun a => ?_
  refine .bind (compileAll_small ss) fun b => .bind (.modified fun _ => rfl) fun _ => .pure ?_
  exact (smallCode_functionCode label slot slots a b).symm

theorem Scopes.declareFunction_small (s : Scopes) (f : Signature) :
    Agrees Scopes.small (s.declareFunction f) (s.small.declareFunction f.small) := by
  have hnames : (s.small.functions.contains f.small.label || s.small.globals.contains f.small.label) =
      (s.functions.contains f.label || s.globals.contains f.label) := by
    show ((s.functions.map Signature.small).contains (foldAscii f.label) ||
      s.globals.contains (foldAscii f.label)) = _
    rw [Table.contains_foldAscii, Table.contains_foldAscii, Table.contains_map]
  unfold declareFunction
  rw [hnames]
  split
  · exact .error rfl
  · show Except.ok { s.small with functions := (s.functions.map Signature.small).insert (foldAscii f.label) f.small } = _
    rw [Table.insert_foldAscii]
    rfl

theorem announce_small (heading : Heading) : Commutes foldAscii (announce heading) (announce heading.small) := by
  refine .bind (.check (heading.signature_small none)) fun declared => .bind .scopes fun s => ?_
  have hfind : s.small.function? heading.small.name = (s.function? heading.name).map Signature.small :=
    s.function?_small heading.name
  rw [hfind]
  cases s.function? heading.name with
  | none =>
    refine .bind .scopes fun s => .bind (.check (s.declareFunction_small declared)) fun t => ?_
    exact .bind (.setScopes rfl) fun _ => .pure rfl
  | some f =>
    refine .ite ?_ (.throw rfl)
    refine .guard .rfl rfl (.bind .scopes fun s => ?_)
    exact .bind (.setScopes (s.modifyFunction_small heading.name fun _ => rfl)) fun _ => .pure rfl

/-- Headings are kept under their names in small letters. -/
theorem erasePending_small (name : String) :
    Commutes id (modify fun c => { c with pending := c.pending.erase name })
      (modify fun c => { c with pending := c.pending.erase (foldAscii name) }) := by
  refine .modified fun c => ?_
  show { c.small with pending := (c.pending.map Heading.small).erase (foldAscii name) } =
    { c.small with pending := (c.pending.erase name).map Heading.small }
  rw [Table.erase_foldAscii, Table.map_erase]

theorem insertPending_small (heading : Heading) :
    Commutes id (modify fun c => { c with pending := c.pending.insert heading.name heading })
      (modify fun c => { c with pending := c.pending.insert (foldAscii heading.name) heading.small }) := by
  refine .modified fun c => ?_
  show { c.small with pending := (c.pending.map Heading.small).insert (foldAscii heading.name) heading.small } =
    { c.small with pending := (c.pending.insert heading.name heading).map Heading.small }
  rw [Table.insert_foldAscii, Table.map_insert]

theorem FunctionDecl.compile_small (f : FunctionDecl) : Commutes smallCode f.compile f.small.compile := by
  cases f with
  | definition heading block =>
    refine .bind (announce_small heading) fun label => .bind (erasePending_small heading.name) fun _ => ?_
    exact compileBody_small label heading block
  | directive heading d =>
    refine .bind (.check (heading.signature_small (some d))) fun f => .bind .scopes fun s => ?_
    refine .bind (.check (s.declareFunction_small f)) fun t => .bind (.setScopes rfl) fun _ => ?_
    exact .ite (.bind (insertPending_small heading) fun _ => .pure rfl) (.pure rfl)
  | body name block =>
    rw [FunctionDecl.small, FunctionDecl.compile, FunctionDecl.compile]
    refine .bind .scopes fun s => ?_
    rw [Scopes.function?_small]
    cases s.function? name with
    | none => exact .throw rfl
    | some f =>
      refine .guard .rfl rfl (.guard .rfl rfl (.bind .scopes fun s => ?_))
      refine .bind (.setScopes (s.modifyFunction_small name fun _ => rfl)) fun _ => .bind .get fun c => ?_
      have hfind : c.small.pending.find? (foldAscii name) = (c.pending.find? name).map Heading.small := by
        show (c.pending.map Heading.small).find? (foldAscii name) = _
        rw [Table.find?_foldAscii, Table.find?_map]
      rw [hfind]
      cases c.pending.find? name with
      | none => exact .throw rfl
      | some heading => exact .bind (erasePending_small name) fun _ => compileBody_small f.label heading block

theorem compileFunctions_small (fs : List FunctionDecl) :
    Commutes smallCode (compileFunctions fs) (compileFunctions (smallFunctions fs)) := by
  induction fs with
  | nil => exact .pure rfl
  | cons f fs ih => exact .bind f.compile_small fun a => .bind ih fun b => .pure (smallCode_append a b).symm

/-! ## programs -/

def Signature.isMissing (f : Signature) : Bool :=
  decide (f.directive = some .forward) && !f.hasBody && f.called

theorem perm_insertByLabel (f : Signature) (fs : List Signature) : (Scopes.insertByLabel f fs).Perm (f :: fs) := by
  induction fs with
  | nil => exact .refl _
  | cons g fs ih =>
    rw [Scopes.insertByLabel]
    split
    · exact (ih.cons g).trans (.swap f g fs)
    · exact .refl _

theorem perm_functionList (s : Scopes) : s.functionList.Perm s.functions.values := by
  unfold Scopes.functionList
  induction s.functions.values with
  | nil => exact .refl _
  | cons f fs ih => exact (perm_insertByLabel f _).trans (ih.cons f)

theorem checkForwards_eq (s : Scopes) (h : s.functionList.any Signature.isMissing = false) :
    checkForwards s = .ok () := by
  have hnone : s.functionList.find? Signature.isMissing = none :=
    List.find?_eq_none.mpr fun f hf => by simpa using List.any_eq_false.mp h f hf
  unfold checkForwards
  split
  · rename_i f hf
    cases hnone.symm.trans hf
  · rfl

theorem checkForwards_eq_error (s : Scopes) (h : s.functionList.any Signature.isMissing = true) :
    ∃ label, checkForwards s = .error (.undefinedForward label) := by
  obtain ⟨f, hf, hmissing⟩ := List.any_eq_true.mp h
  unfold checkForwards
  split
  · exact ⟨_, rfl⟩
  · rename_i hnone
    exact absurd hmissing (List.find?_eq_none.mp hnone f hf)

/-- Which function is named first depends on its spelling, but whether there is one does not. -/
theorem checkForwards_small (s : Scopes) : Agrees id (checkForwards s) (checkForwards s.small) := by
  have hvalues : s.small.functions.values = s.functions.values.map Signature.small := by
    simp [Scopes.small, Table.map, Table.values]
  have hany : s.small.functionList.any Signature.isMissing = s.functionList.any Signature.isMissing := by
    rw [(perm_functionList s.small).any_eq, (perm_functionList s).any_eq, hvalues, List.any_map]
    rfl
  cases h : s.functionList.any Signature.isMissing with
  | false =>
    rw [checkForwards_eq s h, checkForwards_eq s.small (hany.trans h)]
    exact rfl
  | true =>
    obtain ⟨label, he⟩ := checkForwards_eq_error s h
    obtain ⟨label', he'⟩ := checkForwards_eq_error s.small (hany.trans h)
    rw [he, he']
    exact .error rfl

theorem Program.compile_small (p : Program) : Commutes smallCode p.compile p.small.compile := by
  obtain ⟨name, parameters, ⟨fs, vs, ss⟩⟩ := p
  refine .bind (compileVariables_small vs) fun a => .bind (compileFunctions_small fs) fun b => ?_
  refine .bind (compileAll_small ss) fun d => .bind .scopes fun s => .bind (.check (checkForwards_small s)) fun _ => ?_
  refine .pure ?_
  simp only [smallCode_append, smallCode_emitBasic]
  rfl

theorem compileTree_small (p : Program) : Agrees smallCode (compileTree p) (compileTree p.small) := by
  have hp := p.compile_small .initial
  have hinitial : Compiler.initial.small = .initial := rfl
  rw [hinitial] at hp
  unfold compileTree
  cases hc : p.compile .initial with
  | ok code d =>
    rw [hc] at hp
    simp only at hp
    rw [hp]
    exact rfl
  | error e d =>
    rw [hc] at hp
    obtain ⟨e', d', hp, hkind⟩ := hp
    rw [hp]
    exact .error hkind

/-- **The letter case of identifiers does not matter.**  Of two programs with the same identifiers up to
letter case, both are compiled, to the same code but for letter case in labels and in labels that are
pushed, or both are rejected, for errors of one kind. -/
theorem compileTree_ignores_case {p q : Program} (h : p.small = q.small) :
    (∃ a b, compileTree p = .ok a ∧ compileTree q = .ok b ∧ smallCode a = smallCode b) ∨
    ∃ e e', compileTree p = .error e ∧ compileTree q = .error e' ∧ e.kind = e'.kind := by
  have hp := compileTree_small p
  have hq := compileTree_small q
  rw [← h] at hq
  cases hcp : compileTree p with
  | ok a =>
    rw [hcp] at hp
    cases hcq : compileTree q with
    | ok b =>
      rw [hcq] at hq
      exact .inl ⟨a, b, rfl, rfl, Except.ok.inj (hp.symm.trans hq)⟩
    | error e =>
      rw [hcq] at hq
      obtain ⟨e', he, -⟩ := hq
      cases hp.symm.trans he
  | error e =>
    rw [hcp] at hp
    obtain ⟨e', he, hkind⟩ := hp
    cases hcq : compileTree q with
    | ok b =>
      rw [hcq] at hq
      cases he.symm.trans hq
    | error e₂ =>
      rw [hcq] at hq
      obtain ⟨e₂', he₂, hkind₂⟩ := hq
      cases he.symm.trans he₂
      exact .inr ⟨e, e₂, rfl, rfl, hkind.symm.trans hkind₂⟩

/-- A function that is announced under one spelling and defined and called under another. -/
def twoSpellings (announced used : String) : Program :=
  ⟨"p", [], .mk
    [.directive ⟨announced, [.value ["n"] .integer], .integer⟩ .forward,
     .body used (.mk [] []
      [.ifThenElse (.binary .less (.access (.name "N")) (.constant (.integer 2)))
        (.assign (.name announced) (.constant (.integer 1)))
        (.assign (.name used) (.call announced [.value (.access (.name "n"))]))])]
    [⟨["x"], .integer⟩]
    [.assign (.name "X") (.call used [.value (.constant (.integer 3))]),
     .call "WriteLn" [.value (.access (.name "x"))]]⟩

theorem small_twoSpellings {a b a' b' : String} (ha : foldAscii a = foldAscii a') (hb : foldAscii b = foldAscii b') :
    (twoSpellings a b).small = (twoSpellings a' b').small := by
  simp only [twoSpellings, Program.small, Block.small, smallFunctions, FunctionDecl.small, Heading.small, smallStmts,
    Stmt.small, Access.small, Expr.small, ha, hb]

theorem compileTree_ignores_case_twoSpellings :
    (twoSpellings "fact" "FACT").small = (twoSpellings "Fact" "fAcT").small ∧
    (compileTree (twoSpellings "fact" "FACT")).toOption.isSome = true ∧
    ((∃ a b, compileTree (twoSpellings "fact" "FACT") = .ok a ∧
      compileTree (twoSpellings "Fact" "fAcT") = .ok b ∧ smallCode a = smallCode b) ∨
    ∃ e e', compileTree (twoSpellings "fact" "FACT") = .error e ∧
      compileTree (twoSpellings "Fact" "fAcT") = .error e' ∧ e.kind = e'.kind) := by
  have hsmall : (twoSpellings "fact" "FACT").small = (twoSpellings "Fact" "fAcT").small :=
    small_twoSpellings (by decide) (by decide)
  exact ⟨hsmall, by decide +kernel, compileTree_ignores_case hsmall⟩

end PascalStack
