import PascalStack.Proofs.Spelling.Trees

/-!
# Compilations that reserve nothing

A compilation that fails keeps the state in which it failed.

* `Compile.stateAfter`     the state after a compilation, whether it succeeds or not;
* `Compiler.SameStorage`   nothing was reserved or declared, and no function entered or left;
* `Compile.Quiet`          a compilation that leaves the storage as it was;
* `Expr.compile_quiet`     the compilation of expressions, and of what else only reads.
-/

namespace PascalStack

namespace Compile
variable {α β : Type}

/-- The state after a compilation, also after one that failed. -/
def stateAfter (x : Compile α) (c : Compiler) : Compiler :=
  match x c with
  | .ok _ d => d
  | .error _ d => d

variable {x : Compile α} {f : α → Compile β} {c d : Compiler}

theorem stateAfter_of_ok {a : α} (h : x c = .ok a d) : x.stateAfter c = d := by
  unfold stateAfter
  rw [h]

theorem stateAfter_of_error {e : SemanticError} (h : x c = .error e d) : x.stateAfter c = d := by
  unfold stateAfter
  rw [h]

theorem bind_of_ok {a : α} (h : x c = .ok a d) : (x >>= f) c = f a d := by
  show EStateM.bind x f c = _
  unfold EStateM.bind
  rw [h]

theorem bind_of_error {e : SemanticError} (h : x c = .error e d) : (x >>= f) c = .error e d := by
  show EStateM.bind x f c = _
  unfold EStateM.bind
  rw [h]

theorem stateAfter_bind_of_ok {a : α} (h : x c = .ok a d) : (x >>= f).stateAfter c = (f a).stateAfter d := by
  unfold stateAfter
  rw [bind_of_ok h]

theorem stateAfter_bind_of_error {e : SemanticError} (h : x c = .error e d) :
    (x >>= f).stateAfter c = d :=
  stateAfter_of_error (bind_of_error h)

end Compile

structure Compiler.SameStorage (c d : Compiler) : Prop where
  globals : d.scopes.globals = c.scopes.globals
  locals : d.scopes.locals = c.scopes.locals
  current : d.scopes.current = c.scopes.current
  nextSlot : d.scopes.nextSlot = c.scopes.nextSlot
  activation : d.activation = c.activation

theorem Compiler.SameStorage.refl (c : Compiler) : c.SameStorage c := ⟨rfl, rfl, rfl, rfl, rfl⟩

theorem Compiler.SameStorage.trans {c d e : Compiler} (h : c.SameStorage d) (h' : d.SameStorage e) :
    c.SameStorage e :=
  ⟨h'.globals.trans h.globals, h'.locals.trans h.locals, h'.current.trans h.current,
    h'.nextSlot.trans h.nextSlot, h'.activation.trans h.activation⟩

namespace Compile

/-- A compilation that leaves the storage as it was, whether it succeeds or not. -/
def Quiet {α : Type} (x : Compile α) : Prop := ∀ c : Compiler, c.SameStorage (x.stateAfter c)

namespace Quiet
variable {α β : Type} {x y : Compile α} {f : α → Compile β}

theorem pure (a : α) : Quiet (Pure.pure a) := fun c => .refl c

theorem throw (e : SemanticError) : Quiet (MonadExcept.throw e : Compile α) := fun c => .refl c

theorem bind (hx : Quiet x) (hf : ∀ a, Quiet (f a)) : Quiet (x >>= f) := by
  intro c
  have hc := hx c
  cases h : x c with
  | ok a d =>
    rw [stateAfter_of_ok h] at hc
    rw [stateAfter_bind_of_ok h]
    exact hc.trans (hf a d)
  | error e d =>
    rw [stateAfter_of_error h] at hc
    rw [stateAfter_bind_of_error h]
    exact hc

theorem check (e : Except SemanticError α) : Quiet (Compile.check e) := by
  cases e with
  | ok a => exact .pure a
  | error e => exact .throw e

theorem get : Quiet MonadState.get := fun c => .refl c

theorem scopes : Quiet Compile.scopes := fun c => .refl c

theorem typeOf (e : Expr) : Quiet (Compile.typeOf e) := .bind .scopes fun _ => .check _

theorem modified {g : Compiler → Compiler} (hg : ∀ c : Compiler, c.SameStorage (g c)) : Quiet (modify g) := hg

theorem ite {p : Prop} [Decidable p] (hx : Quiet x) (hy : Quiet y) : Quiet (if p then x else y) := by
  split
  · exact hx
  · exact hy

/-- Names of functions are not storage. -/
theorem setScopes {g : Scopes → Scopes} {y : Compile α}
    (hg : ∀ s : Scopes, (g s).globals = s.globals ∧ (g s).locals = s.locals ∧ (g s).current = s.current ∧
      (g s).nextSlot = s.nextSlot) (hy : Quiet y) :
    Quiet (Compile.scopes >>= fun s => Compile.setScopes (g s) >>= fun _ => y) := by
  intro c
  obtain ⟨h₁, h₂, h₃, h₄⟩ := hg c.scopes
  have hset : c.SameStorage { c with scopes := g c.scopes } := ⟨h₁, h₂, h₃, h₄, rfl⟩
  exact hset.trans (hy _)

/-- The same where the new scopes may be refused. -/
theorem checkScopes {g : Scopes → Except SemanticError Scopes} {y : Compile α}
    (hg : ∀ s t : Scopes, g s = .ok t → t.globals = s.globals ∧ t.locals = s.locals ∧ t.current = s.current ∧
      t.nextSlot = s.nextSlot) (hy : Quiet y) :
    Quiet (Compile.scopes >>= fun s => Compile.check (g s) >>= fun t => Compile.setScopes t >>= fun _ => y) := by
  intro c
  have hs : Compile.scopes c = .ok c.scopes c := rfl
  rw [stateAfter_bind_of_ok hs]
  cases h : g c.scopes with
  | ok t =>
    obtain ⟨h₁, h₂, h₃, h₄⟩ := hg c.scopes t h
    have hset : c.SameStorage { c with scopes := t } := ⟨h₁, h₂, h₃, h₄, rfl⟩
    exact hset.trans (hy _)
  | error e => exact .refl c

end Quiet

/-! ## calls -/

theorem checkArity_quiet (b : Builtin) (count : Nat) : Quiet (checkArity b count) :=
  .ite (.pure _) (.throw _)

theorem callee_quiet (name : String) (count : Nat) : Quiet (callee name count) := by
  refine .bind .scopes fun s => ?_
  cases s.function? name with
  | none => exact .throw _
  | some f =>
    have hrest : Quiet (scopes >>= fun s => setScopes (s.modifyFunction name fun f => { f with called := true })
        >>= fun _ => (if count ≠ f.parameters.length then
          throw (.arityMismatch f.label f.parameters.length count) >>= fun _ : Unit => pure f else pure f)) :=
      .setScopes (fun s => ⟨rfl, rfl, rfl, rfl⟩) (.ite (.bind (.throw _) fun _ => .pure _) (.pure _))
    exact .ite (.bind (.throw _) fun _ => hrest) hrest

theorem addressOf_quiet (v : Variable) (i : Expr) {x : Compile (List Line)} (h : Quiet x) :
    Quiet (addressOf v i x) :=
  .bind (.typeOf i) fun _ => .bind (.check _) fun _ => .bind h fun _ => .pure _

theorem characterOf_quiet (v : Variable) (i : Expr) {x : Compile (List Line)} (h : Quiet x) :
    Quiet (characterOf v i x) :=
  .bind (.typeOf i) fun _ => .bind (.check _) fun _ => .bind h fun _ => .pure _

end Compile

/-! ## expressions -/

open Compile

theorem call_quiet {name : String} {arguments : List Argument}
    (hb : ∀ b ts, Quiet (compileBuiltin b ts arguments))
    (ha : ∀ label k ts, Quiet (compileArguments label k ts arguments)) :
    Quiet (Expr.call name arguments).compile := by
  rw [Expr.compile]
  cases Builtin.ofName? name with
  | some b => exact .ite (.bind (checkArity_quiet b _) fun _ => .bind (hb b _) fun _ => .pure _) (.throw _)
  | none => exact .bind (callee_quiet name _) fun f => .bind (ha f.label 1 _) fun _ => .pure _

theorem name_quiet (id : String) : Quiet (Access.name id).compile := by
  rw [Access.compile]
  cases truthName? id with
  | some b => exact .pure _
  | none =>
    refine .bind .scopes fun s => ?_
    cases s.resolve? id with
    | some v => exact .ite (.bind (.throw _) fun _ => .pure _) (.pure _)
    | none =>
      exact .bind .scopes fun s => .ite (.bind (callee_quiet id 0) fun _ => .pure _) (.throw _)

theorem index_quiet {id : String} {i : Expr} (h : Quiet i.compile) :
    Quiet (Access.index (.name id) [i]).compile := by
  rw [Access.compile]
  refine .bind .scopes fun s => .bind (.check _) fun v => ?_
  cases v.type with
  | array => exact .bind (addressOf_quiet v i h) fun _ => .pure _
  | string => exact characterOf_quiet v i h
  | _ => exact .throw _

mutual

theorem Expr.compile_quiet : (e : Expr) → Quiet e.compile
  | .access a => a.compile_quiet
  | .call _ arguments => call_quiet (compileBuiltin_quiet arguments) (compileArguments_quiet arguments)
  | .binary _ left right =>
    .bind (.typeOf left) fun _ => .bind (.typeOf right) fun _ => .bind (.check _) fun _ =>
      .bind left.compile_quiet fun _ => .bind right.compile_quiet fun _ => .pure _
  | .signed _ operand =>
    .bind (.typeOf operand) fun _ => .bind (.check _) fun _ => .bind operand.compile_quiet fun _ => .pure _
  | .power base exponent =>
    .bind (.check (exponentOf exponent)) fun _ => .bind (.typeOf base) fun _ => .bind (.check _) fun _ =>
      .ite (.pure _) (.bind base.compile_quiet fun _ => .pure _)
  | .not operand =>
    .bind (.typeOf operand) fun _ => .bind (.check _) fun _ => .bind operand.compile_quiet fun _ => .pure _
  | .constant _ => .pure _
  | .set members => compileMembers_quiet members

theorem Access.compile_quiet : (a : Access) → Quiet a.compile
  | .name id => name_quiet id
  | .index (.name _) [i] => index_quiet i.compile_quiet
  | .index (.name _) [] => .throw _
  | .index (.name _) (_ :: _ :: _) => .throw _
  | .index (.index _ _) _ => .throw _
  | .index (.field _ _) _ => .throw _
  | .index (.deref _) _ => .throw _
  | .field _ _ => .throw _
  | .deref _ => .throw _

theorem compileBuiltin_quiet : (arguments : List Argument) → (b : Builtin) → (ts : List DataType) →
    Quiet (compileBuiltin b ts arguments)
  | [], _, [] => .pure _
  | [], _, _ :: _ => .pure _
  | _ :: _, _, [] => .pure _
  | .value e :: arguments, b, _ :: ts =>
    .bind (.typeOf e) fun _ => .bind (.check _) fun _ => .bind e.compile_quiet fun _ =>
      .bind (compileBuiltin_quiet arguments b ts) fun _ => .pure _
  | .wide _ _ :: _, _, _ :: _ => .throw _
  | .precise _ _ _ :: _, _, _ :: _ => .throw _

theorem compileArguments_quiet : (arguments : List Argument) → (label : String) → (k : Nat) →
    (ts : List DataType) → Quiet (compileArguments label k ts arguments)
  | [], _, _, [] => .pure _
  | [], _, _, _ :: _ => .pure _
  | _ :: _, _, _, [] => .pure _
  | .value e :: arguments, label, k, _ :: ts =>
    .bind (.typeOf e) fun _ => .bind (.check _) fun _ => .bind e.compile_quiet fun _ =>
      .bind (compileArguments_quiet arguments label (k + 1) ts) fun _ => .pure _
  | .wide _ _ :: _, _, _, _ :: _ => .throw _
  | .precise _ _ _ :: _, _, _, _ :: _ => .throw _

theorem compileMembers_quiet : (members : List Member) → Quiet (compileMembers members)
  | [] => .pure _
  | .single e :: members =>
    .bind e.compile_quiet fun _ => .bind (compileMembers_quiet members) fun _ => .pure _
  | .range low high :: members =>
    .bind low.compile_quiet fun _ => .bind high.compile_quiet fun _ =>
      .bind (compileMembers_quiet members) fun _ => .pure _

end

/-! ## statements without loops, and the announcement of functions -/

namespace Compile

theorem condition_quiet (e : Expr) (place : Place) : Quiet (condition e place) :=
  .bind (.typeOf e) fun _ => .bind (.check _) fun _ => e.compile_quiet

theorem storeTarget_quiet (name : String) : Quiet (storeTarget name) := by
  refine .bind .get fun c => ?_
  rcases c.activation with _ | a
  · refine .bind .scopes fun s => ?_
    cases s.resolve? name with
    | some v => exact .pure _
    | none => exact .throw _
  · refine .ite (.pure _) (.bind .scopes fun s => ?_)
    cases s.resolve? name with
    | some v => exact .pure _
    | none => exact .throw _

theorem writableArray_quiet (name : String) : Quiet (writableArray name) := by
  refine .bind .scopes fun s => .bind (.check _) fun v => ?_
  cases v.type with
  | array => exact .pure _
  | _ => exact .throw _

theorem assign_quiet (target : Access) (value : Expr) : Quiet (assign target value) := by
  refine .bind (.typeOf value) fun t => .bind value.compile_quiet fun code => ?_
  cases target using Access.byForm with
  | name id => exact .bind (storeTarget_quiet id) fun r => .bind (.check _) fun _ => .pure _
  | element id i =>
    exact .bind (writableArray_quiet id) fun v => .bind (.check _) fun _ =>
      .bind (addressOf_quiet v i i.compile_quiet) fun _ => .pure _
  | _ => exact .throw _

theorem checkWidths_quiet (a : Argument) : Quiet (checkWidths a) := by
  cases a with
  | value e => exact .pure _
  | wide e width => exact .bind (.typeOf width) fun _ => .check _
  | precise e width precision =>
    exact .bind (.typeOf width) fun _ => .bind (.check _) fun _ => .bind (.typeOf precision) fun _ => .check _

theorem writeAll_quiet (b : Builtin) (arguments : List Argument) : Quiet (writeAll b arguments) := by
  induction arguments with
  | nil => exact .pure _
  | cons a arguments ih =>
    refine .bind (checkWidths_quiet a) fun _ => .bind (.typeOf a.expr) fun t => ?_
    cases t.write? with
    | none => exact .throw _
    | some write => exact .bind a.expr.compile_quiet fun _ => .bind ih fun _ => .pure _

theorem readInto_quiet (target : Access) : Quiet (readInto target) := by
  cases target using Access.byForm with
  | name id => exact .bind (storeTarget_quiet id) fun r => .bind (.check _) fun _ => .pure _
  | element id i =>
    exact .bind (writableArray_quiet id) fun v => .bind (.check _) fun _ =>
      .bind (addressOf_quiet v i i.compile_quiet) fun _ => .pure _
  | _ => exact .throw _

theorem readLine_quiet (arguments : List Argument) : Quiet (readLine arguments) := by
  rcases arguments with _ | ⟨a, arguments⟩
  · exact .pure _
  · cases a with
    | value e =>
      cases e with
      | access target => exact readInto_quiet target
      | _ => exact .throw _
    | _ => exact .throw _

theorem callStatement_quiet (name : String) (arguments : List Argument) :
    Quiet (callStatement name arguments) := by
  unfold callStatement
  cases Builtin.ofName? name with
  | some b =>
    refine .bind (checkArity_quiet b _) fun _ => ?_
    cases b with
    | write | writeln => exact .bind (writeAll_quiet _ arguments) fun _ => .pure _
    | read | readln => exact readLine_quiet arguments
    | length | charat => exact .bind (compileBuiltin_quiet arguments _ _) fun _ => .pure _
  | none =>
    have hcall : Quiet (callee name arguments.length >>= fun f =>
        compileArguments f.label 1 f.parameters arguments >>= fun code =>
          pure (code ++ callCode f.label ++ emit [.pop 1])) :=
      .bind (callee_quiet name _) fun f => .bind (compileArguments_quiet arguments _ _ _) fun _ => .pure _
    exact .bind .scopes fun s => .ite (.bind (.throw _) fun _ => hcall) hcall

end Compile

theorem Scopes.declareFunction_storage {s t : Scopes} {f : Signature} (h : s.declareFunction f = .ok t) :
    t.globals = s.globals ∧ t.locals = s.locals ∧ t.current = s.current ∧ t.nextSlot = s.nextSlot := by
  unfold declareFunction at h
  split at h
  · cases h
  · cases h
    exact ⟨rfl, rfl, rfl, rfl⟩

theorem announce_quiet (heading : Heading) : Quiet (announce heading) := by
  refine .bind (.check _) fun declared => .bind .scopes fun s => ?_
  cases s.function? heading.name with
  | none => exact .checkScopes (fun s t => Scopes.declareFunction_storage) (.pure _)
  | some f =>
    have hannounce : Quiet (scopes >>= fun s =>
        setScopes (s.modifyFunction heading.name fun f => { f with hasBody := true }) >>= fun _ => pure f.label) :=
      .setScopes (fun s => ⟨rfl, rfl, rfl, rfl⟩) (.pure _)
    exact .ite (.ite (.bind (.throw _) fun _ => hannounce) hannounce) (.throw _)

end PascalStack
