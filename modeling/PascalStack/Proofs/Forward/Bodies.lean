import PascalStack.Proofs.Forward.Pairs

/-!
# Pairs of compilations of functions

* `Stmt.follows`              statements whose names the pairing allows for;
* `compileBody_follows`       bodies of functions;
* `FunctionDecl.Fits`         the declarations of functions that the pairing allows for;
* `compileFunctions_follows`  sequences of them.
-/

namespace PascalStack

open Compile

variable {P : Pairing}

/-! ## statements -/

namespace Pairing.Near
variable {c d : Compiler}

theorem activation (h : P.Near c d) : d.activation = c.activation := by
  rw [h.same]

theorem setActivation (h : P.Near c d) (a : Option Activation) :
    P.Near { c with activation := a } { d with activation := a } :=
  ⟨h.scopes, by rw [h.same], h.pending⟩

end Pairing.Near

namespace Pairing.Names
variable {s t : Scopes} {name : String}

theorem allocate (h : P.Names s t) (size : Nat) :
    (t.allocate size).1 = (s.allocate size).1 ∧ P.Names (s.allocate size).2 (t.allocate size).2 := by
  have hsame := h.same
  refine ⟨by rw [hsame]; rfl, ?_, h.functions, h.left, h.right, h.globals⟩
  show { t with nextSlot := (t.nextSlot + size) % wordSize } = _
  rw [hsame]
  rfl

theorem enter (h : P.Names s t) (label : String) : P.Names (s.enter label) (t.enter label) := by
  refine ⟨?_, h.functions, h.left, h.right, h.globals⟩
  rw [h.same]
  rfl

theorem leave (h : P.Names s t) : P.Names s.leave t.leave := by
  refine ⟨?_, h.functions, h.left, h.right, h.globals⟩
  rw [h.same]
  rfl

theorem contains (h : P.Names s t) (hseen : P.Seen (foldName name)) :
    t.functions.contains name = s.functions.contains name :=
  h.isSome_function? hseen

end Pairing.Names

namespace Pairing.Follows
variable {α : Type}

theorem allocate (size : Nat) : P.Follows (Compile.allocate size) (Compile.allocate size) := by
  refine .scopes fun s t h => ?_
  obtain ⟨hslot, hnames⟩ := h.allocate size
  show P.Follows (Compile.setScopes (s.allocate size).2 >>= fun _ => Pure.pure (s.allocate size).1)
    (Compile.setScopes (t.allocate size).2 >>= fun _ => Pure.pure (t.allocate size).1)
  rw [hslot]
  exact .bind (.setScopes hnames) fun _ => .pure _

theorem modifyGet {g : Compiler → α × Compiler}
    (h : ∀ c d, P.Near c d → (g d).1 = (g c).1 ∧ P.Near (g c).2 (g d).2) :
    P.Follows (modifyGet g) (modifyGet g) := by
  intro c d hcd
  obtain ⟨hvalue, hnear⟩ := h c d hcd
  show P.Ends (.ok (g c).1 (g c).2) (.ok (g d).1 (g d).2)
  rw [hvalue]
  exact .ok hnear

theorem nextIf : P.Follows Compile.nextIf Compile.nextIf :=
  .modifyGet fun _ _ h => ⟨by rw [h.same], h.scopes, by rw [h.same], h.pending⟩

theorem nextWhile : P.Follows Compile.nextWhile Compile.nextWhile :=
  .modifyGet fun _ _ h => ⟨by rw [h.same], h.scopes, by rw [h.same], h.pending⟩

theorem nextFor : P.Follows Compile.nextFor Compile.nextFor :=
  .modifyGet fun _ _ h => ⟨by rw [h.same], h.scopes, by rw [h.same], h.pending⟩

end Pairing.Follows

theorem Pairing.Names.declare {s t : Scopes} (h : P.Names s t) {name : String} (hseen : P.Seen (foldName name))
    (v : Variable) : P.Follows (check (s.declare name v) >>= setScopes) (check (t.declare name v) >>= setScopes) := by
  have hcontains : (t.functions.contains name || t.currentTable.contains name)
      = (s.functions.contains name || s.currentTable.contains name) := by
    rw [h.contains hseen]
    rw [h.same]
    rfl
  have hcurrent : t.current = s.current := by rw [h.same]
  unfold Scopes.declare
  rw [hcontains, hcurrent]
  split
  · exact fun _ _ _ => .error
  · cases s.current with
    | some function =>
      refine .setScopes ⟨?_, h.functions, h.left, h.right, h.globals⟩
      rw [h.same]
    | none =>
      refine .setScopes ⟨?_, h.functions, h.left, h.right, P.globals v hseen h.globals⟩
      rw [h.same]

theorem declare_follows {name : String} (hseen : P.Seen (foldName name)) (v : Variable) :
    P.Follows (declare name v) (declare name v) :=
  .scopes fun _ _ h => h.declare hseen v

theorem storeTarget_follows (name : String) : P.Follows (storeTarget name) (storeTarget name) := by
  refine .get fun c d h => ?_
  rw [h.activation]
  cases c.activation with
  | none =>
    refine .scopes fun s t h => ?_
    rw [h.resolve?]
    cases s.resolve? name with
    | some v => exact .pure _
    | none => exact .throw _ _
  | some a =>
    refine .ite (.pure _) (.scopes fun s t h => ?_)
    rw [h.resolve?]
    cases s.resolve? name with
    | some v => exact .pure _
    | none => exact .throw _ _

theorem writableArray_follows (name : String) : P.Follows (writableArray name) (writableArray name) := by
  refine .scopes fun s t h => ?_
  rw [h.indexed]
  refine .bind (.check _) fun v => ?_
  cases v.type with
  | array => exact .pure _
  | _ => exact .throw _ _

theorem condition_follows {e : Expr} (he : P.Sees e.identifiers) (place : Place) :
    P.Follows (condition e place) (condition e place) :=
  .bind (.typeOf he) fun _ => .bind (.check _) fun _ => e.follows he

theorem assign_follows {target : Access} {value : Expr} (ht : P.Sees target.identifiers)
    (hv : P.Sees value.identifiers) : P.Follows (assign target value) (assign target value) := by
  refine .bind (.typeOf hv) fun t => .bind (value.follows hv) fun code => ?_
  cases target using Access.byForm with
  | name id => exact .bind (storeTarget_follows id) fun r => .bind (.check _) fun _ => .pure _
  | element id i =>
    exact .bind (writableArray_follows id) fun v => .bind (.check _) fun _ =>
      .bind (addressOf_follows v ht.right.left (i.follows ht.right.left)) fun _ => .pure _
  | _ => exact .throw _ _

theorem checkWidths_follows {a : Argument} (h : P.Sees a.identifiers) :
    P.Follows (checkWidths a) (checkWidths a) := by
  cases a with
  | value e => exact .pure _
  | wide e width => exact .bind (.typeOf h.right) fun _ => .check _
  | precise e width precision =>
    exact .bind (.typeOf h.right.left) fun _ => .bind (.check _) fun _ =>
      .bind (.typeOf h.right.right) fun _ => .check _

theorem sees_expr {a : Argument} (h : P.Sees a.identifiers) : P.Sees a.expr.identifiers := by
  cases a with
  | value e => exact h
  | wide e width => exact h.left
  | precise e width precision => exact h.left

theorem writeAll_follows (b : Builtin) {arguments : List Argument} (h : P.Sees (argumentIdentifiers arguments)) :
    P.Follows (writeAll b arguments) (writeAll b arguments) := by
  induction arguments with
  | nil => exact .pure _
  | cons a arguments ih =>
    have ha := sees_expr h.left
    refine .bind (checkWidths_follows h.left) fun _ => .bind (.typeOf ha) fun t => ?_
    cases t.write? with
    | none => exact .throw _ _
    | some write => exact .bind (a.expr.follows ha) fun _ => .bind (ih h.right) fun _ => .pure _

theorem readInto_follows {target : Access} (h : P.Sees target.identifiers) :
    P.Follows (readInto target) (readInto target) := by
  cases target using Access.byForm with
  | name id => exact .bind (storeTarget_follows id) fun r => .bind (.check _) fun _ => .pure _
  | element id i =>
    exact .bind (writableArray_follows id) fun v => .bind (.check _) fun _ =>
      .bind (addressOf_follows v h.right.left (i.follows h.right.left)) fun _ => .pure _
  | _ => exact .throw _ _

theorem readLine_follows {arguments : List Argument} (h : P.Sees (argumentIdentifiers arguments)) :
    P.Follows (readLine arguments) (readLine arguments) := by
  rcases arguments with _ | ⟨a, arguments⟩
  · exact .pure _
  · cases a with
    | value e =>
      cases e with
      | access target => exact readInto_follows h.left
      | _ => exact .throw _ _
    | _ => exact .throw _ _

theorem callStatement_follows {name : String} {arguments : List Argument} (hseen : P.Seen (foldName name))
    (h : P.Sees (argumentIdentifiers arguments)) :
    P.Follows (callStatement name arguments) (callStatement name arguments) := by
  unfold callStatement
  cases Builtin.ofName? name with
  | some b =>
    refine .bind (checkArity_follows b _) fun _ => ?_
    cases b with
    | write | writeln => exact .bind (writeAll_follows _ h) fun _ => .pure _
    | read | readln => exact readLine_follows h
    | length | charat => exact .bind (compileBuiltin_follows arguments h _ _) fun _ => .pure _
  | none =>
    refine .scopes fun s t hst => ?_
    have hnone : (t.function? name).isNone = (s.function? name).isNone := by
      rw [← Option.not_isSome, ← Option.not_isSome, hst.isSome_function? hseen]
    rw [hnone]
    refine .guard Iff.rfl (.callee _ hseen fun f g hfg => ?_)
    rw [hfg.label, hfg.parameters]
    exact .bind (compileArguments_follows arguments h _ _ _) fun _ => .pure _

theorem controlVariable_follows {name : String} (hseen : P.Seen (foldName name)) :
    P.Follows (controlVariable name) (controlVariable name) := by
  refine .scopes fun s t h => ?_
  rw [h.resolve?]
  cases s.resolve? name with
  | some v => exact .bind (.check _) fun _ => .pure _
  | none => exact .bind (.allocate 1) fun _ => .bind (declare_follows hseen _) fun _ => .pure _

mutual

theorem Stmt.follows : (s : Stmt) → P.Sees s.identifiers → P.Follows s.compile s.compile
  | .compound body, h => compileAll_follows body h
  | .assign _ _, h => assign_follows h.left h.right
  | .ifThen _ thenBranch, h =>
    .bind .nextIf fun _ => .bind (condition_follows h.left _) fun _ =>
      .bind (thenBranch.follows h.right) fun _ => .pure _
  | .ifThenElse _ thenBranch elseBranch, h =>
    .bind .nextIf fun _ => .bind (condition_follows h.left _) fun _ =>
      .bind (thenBranch.follows h.right.left) fun _ => .bind (elseBranch.follows h.right.right) fun _ => .pure _
  | .whileDo _ body, h =>
    .bind .nextWhile fun _ => .bind (condition_follows h.left _) fun _ =>
      .bind (body.follows h.right) fun _ => .pure _
  | .forDo _ initial _ final body, h =>
    .bind .nextFor fun _ => .bind (controlVariable_follows h.head) fun _ =>
      .bind (.typeOf h.tail.left) fun _ => .bind (.check _) fun _ =>
      .bind (.typeOf h.tail.right.left) fun _ => .bind (.check _) fun _ =>
      .bind (initial.follows h.tail.left) fun _ => .bind (final.follows h.tail.right.left) fun _ =>
      .bind (body.follows h.tail.right.right) fun _ => .pure _
  | .call _ _, h => callStatement_follows h.head h.tail

theorem compileAll_follows : (ss : List Stmt) → P.Sees (stmtIdentifiers ss) →
    P.Follows (compileAll ss) (compileAll ss)
  | [], _ => .pure _
  | s :: ss, h => .bind (s.follows h.left) fun _ => .bind (compileAll_follows ss h.right) fun _ => .pure _

end

/-! ## declarations -/

theorem declareScalars_follows (type : DataType) {names : List String} (h : P.Sees names) :
    P.Follows (declareScalars type names) (declareScalars type names) := by
  induction names with
  | nil => exact .pure _
  | cons name names ih =>
    exact .bind (.allocate 1) fun _ => .bind (declare_follows h.head _) fun _ => .bind (ih h.tail) fun _ => .pure _

theorem declareArrays_follows (low high : Expr) (element : DataType) {names : List String} (h : P.Sees names) :
    P.Follows (declareArrays low high element names) (declareArrays low high element names) := by
  induction names with
  | nil => exact .pure _
  | cons name names ih =>
    rw [declareArrays]
    cases low.constant? with
    | none => exact .throw _ _
    | some l =>
      cases high.constant? with
      | none => exact .throw _ _
      | some u =>
        dsimp only
        cases arraySize? l u with
        | none => exact .throw _ _
        | some size =>
          exact .bind (.allocate size) fun _ => .bind (declare_follows h.head _) fun _ =>
            .bind (ih h.tail) fun _ => .pure _

theorem VarDecl.follows (v : VarDecl) (h : P.Sees v.identifiers) : P.Follows v.compile v.compile := by
  unfold VarDecl.compile
  cases v.type with
  | array low high element =>
    dsimp only
    cases DataType.ofScalar? element with
    | some t => exact declareArrays_follows low high t h.left
    | none => exact .throw _ _
  | _ => exact declareScalars_follows _ h.left

theorem compileVariables_follows {vs : List VarDecl} (h : P.Sees (vs.flatMap VarDecl.identifiers)) :
    P.Follows (compileVariables vs) (compileVariables vs) := by
  induction vs with
  | nil => exact .pure _
  | cons v vs ih =>
    rw [List.flatMap_cons] at h
    exact .bind (v.follows h.left) fun _ => .bind (ih h.right) fun _ => .pure _

theorem declareParameters_follows {ps : List (String × DataType)} (h : P.Sees (ps.map Prod.fst)) :
    P.Follows (declareParameters ps) (declareParameters ps) := by
  induction ps with
  | nil => exact .pure _
  | cons p ps ih =>
    exact .bind (.allocate 1) fun _ => .bind (declare_follows h.head _) fun _ => .bind (ih h.tail) fun _ => .pure _

/-- The parameters of a heading are among its identifiers. -/
theorem parameterList_names {sections : List ParameterSection} {ps : List (String × DataType)}
    (h : parameterList sections = .ok ps) : ∀ p ∈ ps, p.1 ∈ sectionIdentifiers sections := by
  fun_induction parameterList sections generalizing ps with
  | case1 =>
    cases h
    exact fun p hp => absurd hp List.not_mem_nil
  | case2 => cases h
  | case3 => cases h
  | case4 names type rest t _ ih | case6 names type rest t _ ih =>
    obtain ⟨qs, hqs, he⟩ := Scopes.except_bind_eq_ok.mp h
    cases he
    intro p hp
    rcases List.mem_append.mp hp with hp | hp
    · obtain ⟨name, hname, rfl⟩ := List.mem_map.mp hp
      exact List.mem_append_left _ (List.mem_append_left _ hname)
    · exact List.mem_append_right _ (ih hqs p hp)
  | case5 => cases h

/-- The bodies of functions. -/
theorem compileBody_follows (label : String) {heading : Heading} {block : Block}
    (hh : P.Sees (sectionIdentifiers heading.parameters)) (hb : P.Sees block.identifiers) :
    P.Follows (compileBody label heading block) (compileBody label heading block) := by
  obtain ⟨functions, declarations, statements⟩ := block
  unfold compileBody
  refine .guard Iff.rfl ?_
  refine .bind (.check _) fun result => .scopes fun s t h => ?_
  refine .bind (.setScopes (h.enter label)) fun _ => .bind (.allocate 1) fun slot => ?_
  refine .bind (.modify fun _ _ h => h.setActivation _) fun _ => ?_
  refine .checked fun ps hps => ?_
  have hnames : P.Sees (ps.map Prod.fst) := by
    intro name hname
    obtain ⟨p, hp, rfl⟩ := List.mem_map.mp hname
    exact hh p.1 (parameterList_names hps p hp)
  refine .bind (declareParameters_follows hnames) fun slots => ?_
  refine .bind (compileVariables_follows hb.right.left) fun _ => ?_
  refine .bind (compileAll_follows statements hb.right.right) fun _ => ?_
  refine .bind (.modify fun c d h => ⟨h.scopes.leave, ?_, h.pending⟩) fun _ => .pure _
  rw [h.same]

/-! ## declarations of functions -/

/-- The declarations of functions that a pairing allows for. -/
def FunctionDecl.Fits (P : Pairing) : FunctionDecl → Prop
  | .definition heading block => P.Declared (foldName heading.name) ∧
      P.Sees (sectionIdentifiers heading.parameters) ∧ P.Sees block.identifiers
  | .directive heading d => P.Declared (foldName heading.name) ∧ (d = .forward → P.Announced heading)
  | .body name block => P.Completed (foldName name) ∧ P.Sees block.identifiers

theorem Heading.label_signature {h : Heading} {directive : Option Directive} {f : Signature}
    (hf : h.signature directive = .ok f) : f.label = h.name := by
  obtain ⟨-, ps, result, -, -, rfl⟩ := Heading.signature_eq_ok hf
  rfl

namespace Pairing
variable {s t : Scopes} {c d : Compiler} {name : String}

theorem Names.withBody (h : P.Names s t) (hname : P.Declared (foldName name)) :
    P.Names (s.modifyFunction name Signature.withBody) (t.modifyFunction name Signature.withBody) :=
  h.modifyFunction (P.bodied hname (h.functions name))

theorem Names.declareFunction (h : P.Names s t) {f : Signature} (hname : P.Declared (foldName f.label)) :
    P.Follows (check (s.declareFunction f) >>= setScopes) (check (t.declareFunction f) >>= setScopes) := by
  have hcontains := h.contains (P.seen hname)
  have hglobals : t.globals = s.globals := by rw [h.same]
  unfold Scopes.declareFunction
  rw [hcontains, hglobals]
  split
  · exact fun _ _ _ => .error
  · rename_i hnew
    rw [Bool.or_eq_true, not_or, Bool.not_eq_true, Bool.not_eq_true] at hnew
    have hs := Table.contains_eq_false.mp hnew.1
    have ht := Table.contains_eq_false.mp (hcontains.trans hnew.1)
    refine .setScopes ⟨?_, fun id => ?_, h.left.insert hs f, h.right.insert ht f, h.globals⟩
    · rw [h.same]
    · show P.Function _ ((s.functions.insert f.label f).find? id) ((t.functions.insert f.label f).find? id)
      rw [Table.find?_insert, Table.find?_insert]
      by_cases hid : foldName id = foldName f.label
      · rw [if_pos hid, if_pos hid, hid]
        exact P.inserted f hname
      · rw [if_neg hid, if_neg hid]
        exact h.functions id

theorem Near.erasePending (h : P.Near c d) (hname : P.Declared (foldName name)) :
    P.Near { c with pending := c.pending.erase name } { d with pending := d.pending.erase name } := by
  refine ⟨h.scopes, by rw [h.same], fun id => ?_⟩
  show P.Pending _ ((c.pending.erase name).find? id) ((d.pending.erase name).find? id)
  rw [Table.find?_erase, Table.find?_erase]
  by_cases hid : foldName id = foldName name
  · rw [if_pos hid, if_pos hid, hid]
    exact P.erased hname
  · rw [if_neg hid, if_neg hid]
    exact h.pending id

theorem Near.insertPending (h : P.Near c d) {heading : Heading} (hname : P.Declared (foldName heading.name))
    (hheading : P.Announced heading) :
    P.Near { c with pending := c.pending.insert heading.name heading }
      { d with pending := d.pending.insert heading.name heading } := by
  refine ⟨h.scopes, by rw [h.same], fun id => ?_⟩
  show P.Pending _ ((c.pending.insert heading.name heading).find? id)
    ((d.pending.insert heading.name heading).find? id)
  rw [Table.find?_insert, Table.find?_insert]
  by_cases hid : foldName id = foldName heading.name
  · rw [if_pos hid, if_pos hid, hid]
    exact P.announced hname hheading
  · rw [if_neg hid, if_neg hid]
    exact h.pending id

end Pairing

theorem announce_follows {heading : Heading} (hname : P.Declared (foldName heading.name)) :
    P.Follows (announce heading) (announce heading) := by
  refine .checked fun declared hdeclared => .scopes fun s t h => ?_
  have hlabel := Heading.label_signature hdeclared
  have hrel := h.function? (P.seen hname)
  generalize s.function? heading.name = a, t.function? heading.name = b at hrel
  cases hrel with
  | none =>
    refine .scopes fun s t h => ?_
    have hdeclare : P.Follows (check (s.declareFunction declared) >>= setScopes)
        (check (t.declareFunction declared) >>= setScopes) :=
      h.declareFunction (by rw [hlabel]; exact hname)
    have hall := hdeclare.bind fun _ => .pure declared.label
    rwa [bind_assoc, bind_assoc] at hall
  | @some f g hfg =>
    dsimp only
    by_cases hopen : f.directive = some .forward ∧ f.hasBody = false
    · rw [if_pos hopen, if_pos (hfg.open_iff.mp hopen), hfg.parameters, hfg.result, hfg.label]
      refine .guard Iff.rfl (.scopes fun s t h => ?_)
      exact .bind (.setScopes (h.withBody hname)) fun _ => .pure _
    · rw [if_neg hopen, if_neg fun h => hopen (hfg.open_iff.mpr h)]
      exact .throw _ _

theorem definition_follows {heading : Heading} {block : Block}
    (h : (FunctionDecl.definition heading block).Fits P) :
    P.Follows (FunctionDecl.definition heading block).compile (FunctionDecl.definition heading block).compile := by
  obtain ⟨hname, hparameters, hblock⟩ := h
  rw [FunctionDecl.compile]
  refine .bind (announce_follows hname) fun label => ?_
  exact .bind (.modify fun c d h => h.erasePending hname) fun _ => compileBody_follows label hparameters hblock

theorem directive_follows {heading : Heading} {d : Directive} (h : (FunctionDecl.directive heading d).Fits P) :
    P.Follows (FunctionDecl.directive heading d).compile (FunctionDecl.directive heading d).compile := by
  obtain ⟨hname, hheading⟩ := h
  rw [FunctionDecl.compile]
  refine .checked fun f hf => .scopes fun s t hst => ?_
  have hdeclare : P.Follows (check (s.declareFunction f) >>= setScopes) (check (t.declareFunction f) >>= setScopes) :=
    hst.declareFunction (by rw [Heading.label_signature hf]; exact hname)
  by_cases hd : d = .forward
  · rw [if_pos hd]
    have hall := hdeclare.bind fun _ =>
      .bind (.modify fun c d h => h.insertPending hname (hheading hd)) fun _ => .pure ([] : List Line)
    rwa [bind_assoc, bind_assoc] at hall
  · rw [if_neg hd]
    have hall := hdeclare.bind fun _ => .pure ([] : List Line)
    rwa [bind_assoc, bind_assoc] at hall

theorem body_follows {name : String} {block : Block} (h : (FunctionDecl.body name block).Fits P) :
    P.Follows (FunctionDecl.body name block).compile (FunctionDecl.body name block).compile := by
  obtain ⟨hname, hblock⟩ := h
  have hdeclared := P.declared hname
  rw [FunctionDecl.compile]
  refine .scopes fun s t h => ?_
  have hrel := h.function? (P.seen hdeclared)
  generalize s.function? name = a, t.function? name = b at hrel
  cases hrel with
  | none => exact .throw _ _
  | @some f g hfg =>
    dsimp only
    refine .guard hfg.external_iff ?_
    rw [hfg.hasBody, hfg.label]
    refine .guard Iff.rfl (.scopes fun s t h => .bind (.setScopes (h.withBody hdeclared)) fun _ => ?_)
    refine .get fun c d h => ?_
    obtain ⟨hsame, hseen⟩ := P.pending hname (h.pending name)
    rw [hsame]
    cases hp : c.pending.find? name with
    | none => exact .throw _ _
    | some heading =>
      refine .bind (.modify fun c d h => h.erasePending hdeclared) fun _ => ?_
      exact compileBody_follows f.label (hseen heading hp) hblock

/-- **Declarations of functions that the pairing allows for are compiled alike.** -/
theorem FunctionDecl.follows (f : FunctionDecl) (h : f.Fits P) : P.Follows f.compile f.compile := by
  cases f with
  | definition heading block => exact definition_follows h
  | directive heading d => exact directive_follows h
  | body name block => exact body_follows h

theorem compileFunctions_follows {fs : List FunctionDecl} (h : ∀ f ∈ fs, f.Fits P) :
    P.Follows (compileFunctions fs) (compileFunctions fs) := by
  induction fs with
  | nil => exact .pure _
  | cons f fs ih =>
    refine .bind (f.follows (h f (List.mem_cons_self ..))) fun _ => ?_
    exact .bind (ih fun g hg => h g (List.mem_cons_of_mem _ hg)) fun _ => .pure _

end PascalStack
