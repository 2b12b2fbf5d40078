import PascalStack.Proofs.Compiler.Functions
import PascalStack.Proofs.Storage.Reservations

/-!
# Storage is never shared

Declarations, functions, statements and programs are compiled one after the other from the initial state.
Each goes on from the state that the one before left behind, also where that one failed midway.

* `VarDecl.log`, `Stmt.log`, `FunctionDecl.log`, `Program.log`   the slots that are reserved;
* `Item`, `evaluate`, `itemsLog`   what is compiled, the state after it and the slots reserved by it;
* `evaluate_grows`                 the storage after any sequence of items;
* `storage_disjoint`               no slot belongs to two variables or results.
-/

namespace PascalStack

open Compile

/-! ## declarations -/

/-- The storage of the variables of a type, where the type is allowed. -/
def TypeDenoter.storage? : TypeDenoter → Option Storage
  | .array low high element => do
    let t ← DataType.ofScalar? element
    let l ← low.constant?
    let h ← high.constant?
    let _ ← arraySize? l h
    return .array l h t
  | type => (DataType.ofScalar? type).map .scalar

def namesLog (storage : Storage) : List String → Log
  | [] => .nothing
  | name :: names => (reserveLog name storage).andThen (reserve name storage) fun _ => namesLog storage names

def VarDecl.log (v : VarDecl) : Log :=
  v.type.storage?.elim .nothing fun storage => namesLog storage v.names

def variablesLog : List VarDecl → Log
  | [] => .nothing
  | v :: vs => v.log.andThen v.compile fun _ => variablesLog vs

def parametersLog : List (String × DataType) → Log
  | [] => .nothing
  | p :: ps => (reserveLog p.1 (.scalar p.2)).andThen (reserve p.1 (.scalar p.2)) fun _ => parametersLog ps

theorem declareScalars_accounts (type : DataType) (names : List String) :
    Accounts (declareScalars type names) (namesLog (.scalar type) names) := by
  induction names with
  | nil => exact Quiet.accounts (.pure _)
  | cons name names ih =>
    have h := (reserve_accounts name (.scalar type)).bind fun slot =>
      ih.bind_quiet fun rest => .pure (emit [type.initial, .storeg (some slot)] ++ rest)
    rw [reserve_bind] at h
    exact h

theorem declareArrays_accounts {low high : Expr} {l h : Int64} {size : Nat} (hl : low.constant? = some l)
    (hh : high.constant? = some h) (hs : arraySize? l h = some size) (t : DataType) (names : List String) :
    Accounts (declareArrays low high t names) (namesLog (.array l h t) names) := by
  induction names with
  | nil => exact Quiet.accounts (.pure _)
  | cons name names ih =>
    have hacc := (reserve_accounts name (.array l h t)).bind fun base => ih.bind_quiet fun rest =>
      .pure (emit (.pushn size :: (List.range' base size).map fun slot => .storeg (some slot)) ++ rest)
    have hsize : (Storage.array l h t).size = size := (arraySize?_eq hs).symm
    rw [reserve_bind, hsize] at hacc
    unfold declareArrays
    simp only [hl, hh, hs]
    exact hacc

/-- Arrays that are not allowed reserve nothing. -/
theorem declareArrays_quiet {low high : Expr} {element : TypeDenoter} {t : DataType}
    (ht : DataType.ofScalar? element = some t) (h : (TypeDenoter.array low high element).storage? = none)
    (names : List String) : Quiet (declareArrays low high t names) := by
  cases names with
  | nil => exact .pure _
  | cons name names =>
    unfold declareArrays
    cases hl : low.constant? with
    | none => exact .throw _
    | some l =>
      cases hh : high.constant? with
      | none => exact .throw _
      | some k =>
        cases hs : arraySize? l k with
        | none => simp only [hs]; exact .throw _
        | some size =>
          simp only [TypeDenoter.storage?, ht, hl, hh, hs, Option.bind_eq_bind, Option.bind_some] at h
          cases h

theorem VarDecl.compile_accounts (v : VarDecl) : Accounts v.compile v.log := by
  obtain ⟨names, type⟩ := v
  cases type with
  | array low high element =>
    cases ht : DataType.ofScalar? element with
    | none =>
      have hlog : VarDecl.log ⟨names, .array low high element⟩ = .nothing := by
        simp only [VarDecl.log, TypeDenoter.storage?, ht, Option.bind_eq_bind, Option.bind_none, Option.elim_none]
      have hcompile : VarDecl.compile ⟨names, .array low high element⟩ = throw (.unsupported .arrayOfArrays) := by
        simp only [VarDecl.compile, ht]
      rw [hlog, hcompile]
      exact Quiet.accounts (.throw _)
    | some t =>
      have hcompile : VarDecl.compile ⟨names, .array low high element⟩ = declareArrays low high t names := by
        simp only [VarDecl.compile, ht]
      rw [hcompile]
      unfold VarDecl.log
      cases hs : (TypeDenoter.array low high element).storage? with
      | none =>
        exact (declareArrays_quiet ht hs names).accounts
      | some storage =>
        simp only [TypeDenoter.storage?, Option.bind_eq_bind, Option.bind_eq_some_iff] at hs
        obtain ⟨t', ht', l, hl, h, hh, size, hsize, hst⟩ := hs
        cases ht.symm.trans ht'
        cases hst
        exact declareArrays_accounts hl hh hsize t names
  | _ => exact declareScalars_accounts _ names

theorem compileVariables_accounts (vs : List VarDecl) : Accounts (compileVariables vs) (variablesLog vs) := by
  induction vs with
  | nil => exact Quiet.accounts (.pure _)
  | cons v vs ih => exact v.compile_accounts.bind fun _ => ih.bind_quiet fun _ => .pure _

theorem declareParameters_accounts (ps : List (String × DataType)) :
    Accounts (declareParameters ps) (parametersLog ps) := by
  induction ps with
  | nil => exact Quiet.accounts (.pure _)
  | cons p ps ih =>
    have h := (reserve_accounts p.1 (.scalar p.2)).bind fun slot => ih.bind_quiet fun slots => .pure (slot :: slots)
    rw [reserve_bind] at h
    exact h

/-! ## statements -/

/-- A control variable that is not declared gets a slot. -/
def controlLog (name : String) : Log := fun c =>
  if (c.scopes.resolve? name).isSome then [] else reserveLog name (.scalar .integer) c

def loopBounds (initial final : Expr) : Compile (List Line × List Line) := do
  check (expectType .integer (← typeOf initial) .initialValue)
  check (expectType .integer (← typeOf final) .finalValue)
  let initialCode ← initial.compile
  let finalCode ← final.compile
  return (initialCode, finalCode)

mutual

def Stmt.log : Stmt → Log
  | .compound body => stmtsLog body
  | .assign _ _ => .nothing
  | .ifThen c thenBranch => .after nextIf fun _ => .after (condition c .ifCondition) fun _ => thenBranch.log
  | .ifThenElse c thenBranch elseBranch =>
    .after nextIf fun _ => .after (condition c .ifCondition) fun _ =>
      thenBranch.log.andThen thenBranch.compile fun _ => elseBranch.log
  | .whileDo c body => .after nextWhile fun _ => .after (condition c .whileCondition) fun _ => body.log
  | .forDo control initial _ final body =>
    .after nextFor fun _ => (controlLog control).andThen (controlVariable control) fun _ =>
      .after (loopBounds initial final) fun _ => body.log
  | .call _ _ => .nothing

def stmtsLog : List Stmt → Log
  | [] => .nothing
  | s :: ss => s.log.andThen s.compile fun _ => stmtsLog ss

end

theorem nextIf_quiet : Quiet nextIf := fun _ => ⟨rfl, rfl, rfl, rfl, rfl⟩
theorem nextWhile_quiet : Quiet nextWhile := fun _ => ⟨rfl, rfl, rfl, rfl, rfl⟩
theorem nextFor_quiet : Quiet nextFor := fun _ => ⟨rfl, rfl, rfl, rfl, rfl⟩

theorem loopBounds_quiet (initial final : Expr) : Quiet (loopBounds initial final) :=
  .bind (.typeOf initial) fun _ => .bind (.check _) fun _ => .bind (.typeOf final) fun _ =>
    .bind (.check _) fun _ => .bind initial.compile_quiet fun _ => .bind final.compile_quiet fun _ => .pure _

theorem controlVariable_accounts (name : String) : Accounts (controlVariable name) (controlLog name) := by
  intro c he
  have hs : scopes c = .ok c.scopes c := rfl
  have hstate : (controlVariable name).stateAfter c = _ := stateAfter_bind_of_ok hs
  rw [hstate]
  unfold controlLog
  cases hr : c.scopes.resolve? name with
  | some v =>
    have hquiet : Quiet (check (expectType .integer v.type .controlVariable) >>= fun _ => pure v.slot) :=
      .bind (.check _) fun _ => .pure _
    exact hquiet.accounts c he
  | none => exact reserve_accounts name (.scalar .integer) c he

/-- A loop from the parts that matter here. -/
theorem Stmt.compile_forDo (control : String) (initial : Expr) (direction : Direction) (final : Expr)
    (body : Stmt) :
    (Stmt.forDo control initial direction final body).compile =
      nextFor >>= fun k => controlVariable control >>= fun slot => loopBounds initial final >>= fun bounds =>
        body.compile >>= fun code => pure (forCode k slot direction bounds.1 bounds.2 code) := by
  unfold loopBounds
  rw [Stmt.compile]
  simp only [bind_assoc, pure_bind]

mutual

theorem Stmt.compile_accounts : (s : Stmt) → Accounts s.compile s.log
  | .compound body => by
    rw [Stmt.compile, Stmt.log]
    exact compileAll_accounts body
  | .assign target value => by
    rw [Stmt.compile, Stmt.log]
    exact (assign_quiet target value).accounts
  | .ifThen c t => by
    rw [Stmt.compile, Stmt.log]
    exact .quiet_bind nextIf_quiet fun _ => .quiet_bind (condition_quiet c _) fun _ =>
      t.compile_accounts.bind_quiet fun _ => .pure _
  | .ifThenElse c t e => by
    rw [Stmt.compile, Stmt.log]
    exact .quiet_bind nextIf_quiet fun _ => .quiet_bind (condition_quiet c _) fun _ =>
      t.compile_accounts.bind fun _ => e.compile_accounts.bind_quiet fun _ => .pure _
  | .whileDo c body => by
    rw [Stmt.compile, Stmt.log]
    exact .quiet_bind nextWhile_quiet fun _ => .quiet_bind (condition_quiet c _) fun _ =>
      body.compile_accounts.bind_quiet fun _ => .pure _
  | .forDo control initial direction final body => by
    rw [Stmt.compile_forDo, Stmt.log]
    exact .quiet_bind nextFor_quiet fun _ => (controlVariable_accounts control).bind fun _ =>
      .quiet_bind (loopBounds_quiet initial final) fun _ => body.compile_accounts.bind_quiet fun _ => .pure _
  | .call name arguments => by
    rw [Stmt.compile, Stmt.log]
    exact (callStatement_quiet name arguments).accounts

theorem compileAll_accounts : (ss : List Stmt) → Accounts (compileAll ss) (stmtsLog ss)
  | [] => by
    rw [compileAll, stmtsLog]
    exact Quiet.accounts (.pure _)
  | s :: ss => by
    rw [compileAll, stmtsLog]
    exact s.compile_accounts.bind fun _ => (compileAll_accounts ss).bind_quiet fun _ => .pure _

end

/-! ## functions -/

namespace Scopes
variable {s : Scopes} {label id : String} {v : Variable} {owner : Option String}

/-- Entering a function keeps the variables it has. -/
theorem declared?_enter_of_some (h : s.declared? owner id = some v) :
    (s.enter label).declared? owner id = some v := by
  cases owner with
  | none => exact h
  | some other =>
    simp only [declared?, enter]
    split
    · exact h
    · rename_i hnew
      have hne : foldName other ≠ foldName label := by
        intro heq
        obtain ⟨table, ht, _⟩ := Option.bind_eq_some_iff.mp h
        refine hnew (Option.isSome_iff_exists.mpr ⟨table, ?_⟩)
        rw [← Table.find?_congr _ heq]
        exact ht
      rw [Table.find?_insert, if_neg hne]
      exact h

end Scopes

/-- The slot of the result of a function that is entered. -/
theorem Compiler.grows_entered (c : Compiler) (a : Activation) (hslot : a.slot = c.scopes.nextSlot) :
    c.StorageGrows [⟨a.slot, .result a.name⟩]
      { c with scopes := ((c.scopes.enter a.name).allocate 1).2, activation := some a } where
  entered := Scopes.enter_entered c.scopes a.name
  tiles := ⟨hslot, rfl⟩
  symbols {owner id v} hv := by
    have h : (c.scopes.enter a.name).declared? owner id = some v := by cases owner <;> exact hv
    exact .inl (Scopes.declared?_enter h)
  kept {owner id v} hv := by
    have h : (c.scopes.enter a.name).declared? owner id = some v := Scopes.declared?_enter_of_some hv
    cases owner <;> exact h
  declared hr := by cases List.mem_singleton.mp hr
  activation ha := by
    cases ha
    exact .inr (List.mem_singleton_self _)

/-- Leaving a function reserves nothing. -/
theorem Compiler.grows_left (c : Compiler) :
    c.StorageGrows [] { c with activation := none, scopes := c.scopes.leave } where
  entered := nofun
  tiles := rfl
  symbols {owner _ _} hv := .inl (by cases owner <;> exact hv)
  kept {owner _ _} hv := by cases owner <;> exact hv
  declared := nofun
  activation := nofun

structure Body where
  label : String
  heading : Heading
  block : Block

namespace Body

/-- Enters the function and reserves the slot of its result. -/
def enter (b : Body) : Compile Activation := do
  if !b.block.functions.isEmpty then throw (.unsupported .nestedFunction)
  let result ← check b.heading.resultType
  setScopes ((← scopes).enter b.label)
  let slot ← allocate 1
  modify fun c => { c with activation := some ⟨b.label, slot, result⟩ }
  return ⟨b.label, slot, result⟩

/-- Declares what is local and compiles the statements; then leaves the function. -/
def fill (b : Body) (a : Activation) : Compile (List Line) := do
  let parameters ← check (parameterList b.heading.parameters)
  let slots ← declareParameters parameters
  let declarations ← compileVariables b.block.declarations
  let statements ← compileAll b.block.statements
  modify fun c => { c with activation := none, scopes := c.scopes.leave }
  return functionCode a.name a.slot slots declarations statements

theorem compileBody_eq (b : Body) : compileBody b.label b.heading b.block = b.enter >>= b.fill := by
  unfold compileBody enter
  split
  · rfl
  · simp only [bind_assoc, pure_bind]
    rfl

def enterLog (b : Body) : Log := .after b.enter fun a _ => [⟨a.slot, .result a.name⟩]

def log (b : Body) : Log :=
  b.enterLog.andThen b.enter fun _ => .after (check (parameterList b.heading.parameters)) fun parameters =>
    (parametersLog parameters).andThen (declareParameters parameters) fun _ =>
      (variablesLog b.block.declarations).andThen (compileVariables b.block.declarations) fun _ =>
        stmtsLog b.block.statements

/-- A function that cannot be entered leaves the state as it was. -/
theorem enter_cases (b : Body) (c : Compiler) :
    (∃ e, b.enter c = .error e c) ∨
      ∃ t, b.enter c = .ok ⟨b.label, c.scopes.nextSlot, t⟩
        { c with scopes := ((c.scopes.enter b.label).allocate 1).2,
                 activation := some ⟨b.label, c.scopes.nextSlot, t⟩ } := by
  unfold enter
  split
  · exact .inl ⟨_, rfl⟩
  · cases b.heading.resultType with
    | error e => exact .inl ⟨e, rfl⟩
    | ok t => exact .inr ⟨t, rfl⟩

theorem enter_accounts (b : Body) : Accounts b.enter b.enterLog := by
  intro c he
  unfold enterLog Log.after
  rcases b.enter_cases c with ⟨e, h⟩ | ⟨t, h⟩
  · rw [stateAfter_of_error h, h]
    exact (Compiler.SameStorage.refl c).grows he
  · rw [stateAfter_of_ok h, h]
    exact Compiler.grows_entered c ⟨b.label, c.scopes.nextSlot, t⟩ rfl

theorem leave_accounts : Accounts (modify fun c => { c with activation := none, scopes := c.scopes.leave }) .nothing :=
  fun c _ => c.grows_left

theorem accounts (b : Body) : Accounts (compileBody b.label b.heading b.block) b.log := by
  rw [compileBody_eq]
  exact b.enter_accounts.bind fun _ => .quiet_bind (.check _) fun parameters =>
    (declareParameters_accounts parameters).bind fun _ => (compileVariables_accounts _).bind fun _ =>
      (compileAll_accounts _).bind_nothing fun _ => leave_accounts.bind_quiet fun _ => .pure _

/-- The code of a function returns the value of a slot that was reserved for its result. -/
theorem result_mem {b : Body} {c d : Compiler} {code : List Line}
    (h : compileBody b.label b.heading b.block c = .ok code d) :
    ∃ slot parameters declarations statements,
      code = functionCode b.label slot parameters declarations statements ∧ ⟨slot, .result b.label⟩ ∈ b.log c := by
  rw [compileBody_eq, bind_eq_ok] at h
  obtain ⟨a, c₁, henter, hfill⟩ := h
  have hname : a.name = b.label := by
    rcases b.enter_cases c with ⟨e, h⟩ | ⟨t, h⟩
    · cases h.symm.trans henter
    · cases h.symm.trans henter
      rfl
  simp only [fill, bind_eq_ok, pure_eq_ok] at hfill
  obtain ⟨_, _, _, slots, _, _, declarations, _, _, statements, _, _, _, _, _, rfl, rfl⟩ := hfill
  refine ⟨a.slot, slots, declarations, statements, by rw [hname], List.mem_append_left _ ?_⟩
  unfold enterLog Log.after
  rw [henter, ← hname]
  exact List.mem_singleton_self _

end Body

/-- What a declaration of a function does before it compiles a body, if it has one. -/
def FunctionDecl.start : FunctionDecl → Compile (Option Body)
  | .definition heading block => do
    let label ← announce heading
    modify fun c => { c with pending := c.pending.erase heading.name }
    return some ⟨label, heading, block⟩
  | .directive heading d => do
    let f ← check (heading.signature (some d))
    setScopes (← check ((← scopes).declareFunction f))
    if d = .forward then
      modify fun c => { c with pending := c.pending.insert heading.name heading }
    return none
  | .body name block => do
    match (← scopes).function? name with
    | none => throw (.undeclared .function name)
    | some f =>
      if f.directive = some .external then throw (.externalLinkage name)
      if f.hasBody then throw (.duplicate name)
      setScopes ((← scopes).modifyFunction name fun f => { f with hasBody := true })
      match (← get).pending.find? name with
      | none => throw (.duplicate name)
      | some heading =>
        modify fun c => { c with pending := c.pending.erase name }
        return some ⟨f.label, heading, block⟩

def compileBody? (b : Option Body) : Compile (List Line) :=
  b.elim (return []) fun b => compileBody b.label b.heading b.block

theorem FunctionDecl.compile_eq (f : FunctionDecl) : f.compile = f.start >>= compileBody? := by
  cases f with
  | definition heading block =>
    unfold FunctionDecl.compile FunctionDecl.start
    simp only [bind_assoc, pure_bind]
    rfl
  | directive heading d =>
    unfold FunctionDecl.compile FunctionDecl.start
    simp only [bind_assoc]
    cases d <;> rfl
  | body name block =>
    unfold FunctionDecl.compile FunctionDecl.start
    rw [bind_assoc]
    refine bind_congr fun s => ?_
    cases s.function? name with
    | none => rfl
    | some f =>
      dsimp only
      split
      · rfl
      · split
        · rfl
        · simp only [bind_assoc]
          refine bind_congr fun _ => bind_congr fun _ => bind_congr fun c => ?_
          cases c.pending.find? name with
          | none => rfl
          | some heading => rfl

def FunctionDecl.log (f : FunctionDecl) : Log := .after f.start fun b => b.elim .nothing Body.log

theorem FunctionDecl.start_quiet (f : FunctionDecl) : Quiet f.start := by
  have herase (name : String) (b : Body) : Quiet (modify (fun c : Compiler => { c with pending := c.pending.erase name })
      >>= fun _ => pure (some b)) :=
    .bind (.modified fun _ => ⟨rfl, rfl, rfl, rfl, rfl⟩) fun _ => .pure _
  cases f with
  | definition heading block => exact .bind (announce_quiet heading) fun label => herase _ _
  | directive heading d =>
    have hinsert : Quiet (if d = .forward then
        modify (fun c : Compiler => { c with pending := c.pending.insert heading.name heading }) >>= fun _ =>
          pure (none : Option Body) else pure none) :=
      .ite (.bind (.modified fun _ => ⟨rfl, rfl, rfl, rfl, rfl⟩) fun _ => .pure _) (.pure _)
    exact .bind (.check _) fun f => .checkScopes (fun s t => Scopes.declareFunction_storage) hinsert
  | body name block =>
    refine .bind .scopes fun s => ?_
    cases s.function? name with
    | none => exact .throw _
    | some f =>
      have hrest : Quiet (scopes >>= fun s =>
          setScopes (s.modifyFunction name fun f => { f with hasBody := true }) >>= fun _ => do
            match (← get).pending.find? name with
            | none => throw (.duplicate name)
            | some heading =>
              modify fun c => { c with pending := c.pending.erase name }
              return some (Body.mk f.label heading block)) := by
        refine .setScopes (fun s => ⟨rfl, rfl, rfl, rfl⟩) (.bind .get fun c => ?_)
        cases c.pending.find? name with
        | none => exact .throw _
        | some heading => exact herase _ _
      have hsecond := Quiet.ite (p := f.hasBody) (.bind (.throw (.duplicate name)) fun _ : Unit => hrest) hrest
      exact .ite (.bind (.throw _) fun _ => hsecond) hsecond

theorem compileBody?_accounts (b : Option Body) : Accounts (compileBody? b) (b.elim .nothing Body.log) := by
  cases b with
  | none => exact Quiet.accounts (.pure _)
  | some b => exact b.accounts

theorem FunctionDecl.compile_accounts (f : FunctionDecl) : Accounts f.compile f.log := by
  rw [f.compile_eq]
  exact .quiet_bind f.start_quiet compileBody?_accounts

/-- Code of a function that returns the value of a slot reserved for its result; code of a mere heading is
empty. -/
def ReturnsReserved (log : List Reservation) (code : List Line) : Prop :=
  code = [] ∨ ∃ label slot parameters declarations statements,
    code = functionCode label slot parameters declarations statements ∧ ⟨slot, .result label⟩ ∈ log

theorem ReturnsReserved.mono {log log' : List Reservation} {code : List Line} (h : ReturnsReserved log code)
    (hsub : log ⊆ log') : ReturnsReserved log' code := by
  refine h.imp id ?_
  rintro ⟨label, slot, parameters, declarations, statements, hcode, hr⟩
  exact ⟨label, slot, parameters, declarations, statements, hcode, hsub hr⟩

theorem FunctionDecl.returnsReserved {f : FunctionDecl} {c d : Compiler} {code : List Line}
    (h : f.compile c = .ok code d) : ReturnsReserved (f.log c) code := by
  rw [f.compile_eq, bind_eq_ok] at h
  obtain ⟨b, c₁, hstart, hbody⟩ := h
  unfold FunctionDecl.log Log.after
  rw [hstart]
  cases b with
  | none => exact .inl (pure_eq_ok.mp hbody).1.symm
  | some b => exact .inr ⟨b.label, b.result_mem hbody⟩

def functionsLog : List FunctionDecl → Log
  | [] => .nothing
  | f :: fs => f.log.andThen f.compile fun _ => functionsLog fs

theorem compileFunctions_accounts (fs : List FunctionDecl) :
    Accounts (compileFunctions fs) (functionsLog fs) := by
  induction fs with
  | nil => exact Quiet.accounts (.pure _)
  | cons f fs ih => exact f.compile_accounts.bind fun _ => ih.bind_quiet fun _ => .pure _

def Program.log (p : Program) : Log :=
  (variablesLog p.block.declarations).andThen (compileVariables p.block.declarations) fun _ =>
    (functionsLog p.block.functions).andThen (compileFunctions p.block.functions) fun _ =>
      stmtsLog p.block.statements

/-- The log of a function is part of the log of the functions it stands among. -/
theorem functionsLog_mid {fs rest : List FunctionDecl} {f : FunctionDecl} {c d : Compiler} {code : List Line}
    (h : compileFunctions fs c = .ok code d) : f.log d ⊆ functionsLog (fs ++ f :: rest) c := by
  induction fs generalizing c code with
  | nil =>
    cases h
    exact List.subset_append_left _ _
  | cons g fs ih =>
    simp only [compileFunctions, bind_eq_ok, pure_eq_ok] at h
    obtain ⟨_, c₁, hg, _, _, hfs, _, rfl⟩ := h
    refine List.subset_append_of_subset_right _ ?_
    unfold Log.after
    rw [hg]
    exact ih hfs

/-- The log of the functions of a program is part of the log of the program. -/
theorem Program.functionsLog_subset {p : Program} {c d : Compiler} {code : List Line}
    (h : compileVariables p.block.declarations c = .ok code d) :
    functionsLog p.block.functions d ⊆ p.log c := by
  refine List.subset_append_of_subset_right _ ?_
  unfold Log.after
  rw [h]
  exact List.subset_append_left _ _

theorem Program.compile_accounts (p : Program) : Accounts p.compile p.log :=
  (compileVariables_accounts _).bind fun _ => (compileFunctions_accounts _).bind fun _ =>
    (compileAll_accounts _).bind_quiet fun _ => .bind .scopes fun _ => .bind (.check _) fun _ => .pure _

/-! ## one after the other -/

/-- What can be compiled on its own. -/
inductive Item where
  | declaration (v : VarDecl)
  | function (f : FunctionDecl)
  | statement (s : Stmt)
  | program (p : Program)

namespace Item

def compile : Item → Compile (List Line)
  | declaration v => v.compile
  | function f => f.compile
  | statement s => s.compile
  | program p => p.compile

def log : Item → Log
  | declaration v => v.log
  | function f => f.log
  | statement s => s.log
  | program p => p.log

theorem compile_accounts (i : Item) : Accounts i.compile i.log := by
  cases i with
  | declaration v => exact v.compile_accounts
  | function f => exact f.compile_accounts
  | statement s => exact s.compile_accounts
  | program p => exact p.compile_accounts

end Item

def evaluate : List Item → Compiler → Compiler
  | [], c => c
  | i :: items, c => evaluate items (i.compile.stateAfter c)

def itemsLog : List Item → Log
  | [], _ => []
  | i :: items, c => i.log c ++ itemsLog items (i.compile.stateAfter c)

theorem evaluate_append (items items' : List Item) (c : Compiler) :
    evaluate (items ++ items') c = evaluate items' (evaluate items c) := by
  induction items generalizing c with
  | nil => rfl
  | cons i items ih => exact ih _

theorem itemsLog_append (items items' : List Item) (c : Compiler) :
    itemsLog (items ++ items') c = itemsLog items c ++ itemsLog items' (evaluate items c) := by
  induction items generalizing c with
  | nil => rfl
  | cons i items ih =>
    rw [List.cons_append, itemsLog, ih, itemsLog, List.append_assoc]
    rfl

theorem evaluate_grows (items : List Item) {c : Compiler} (he : c.scopes.Entered) :
    c.StorageGrows (itemsLog items c) (evaluate items c) := by
  induction items generalizing c with
  | nil => exact (Compiler.SameStorage.refl c).grows he
  | cons i items ih =>
    have hi := i.compile_accounts c he
    exact hi.trans (ih hi.entered)

theorem Compiler.initial_entered : Compiler.initial.scopes.Entered := nofun

def slotsUsed (items : List Item) : Nat := (evaluate items .initial).scopes.nextSlot

/-- Storage that is never shared, seen after `items` and after each stretch of them from the start.

* `disjoint`, `below`   reservations have no slot in common and lie below the slots in use;
* `symbols`             every variable that was ever declared is still there, in slots reserved for it;
* `named`               slots reserved for a variable are those of the variable;
* `entered`             the function being compiled, or given up, has a slot for its result;
* `returned`, `returnedIn`   so have the functions that were compiled, on their own or in a program. -/
structure SeparateStorage (items : List Item) : Prop where
  disjoint : (itemsLog items .initial).Pairwise fun r r' => r.stop ≤ r'.slot
  below : ∀ r ∈ itemsLog items .initial, r.stop ≤ slotsUsed items
  monotone : ∀ {before rest}, items = before ++ rest → slotsUsed before ≤ slotsUsed items
  symbols : ∀ {before rest owner id v}, items = before ++ rest →
    (evaluate before .initial).scopes.declared? owner id = some v →
    (evaluate items .initial).scopes.declared? owner id = some v ∧
      ∃ r ∈ itemsLog items .initial, r.Holds owner id v
  named : ∀ {slot owner id storage}, ⟨slot, .named owner id storage⟩ ∈ itemsLog items .initial →
    (evaluate items .initial).scopes.declared? owner id = some ⟨slot, storage.shape⟩
  entered : ∀ {before rest a}, items = before ++ rest → (evaluate before .initial).activation = some a →
    ⟨a.slot, .result a.name⟩ ∈ itemsLog items .initial
  returned : ∀ {before f rest code d}, items = before ++ .function f :: rest →
    f.compile (evaluate before .initial) = .ok code d → ReturnsReserved (itemsLog items .initial) code
  returnedIn : ∀ {before p rest fs f fs' declarations functions code c₁ c₂ d},
    items = before ++ .program p :: rest → p.block.functions = fs ++ f :: fs' →
    compileVariables p.block.declarations (evaluate before .initial) = .ok declarations c₁ →
    compileFunctions fs c₁ = .ok functions c₂ → f.compile c₂ = .ok code d →
    ReturnsReserved (itemsLog items .initial) code

theorem itemsLog_before {items before rest : List Item} (h : items = before ++ rest) :
    itemsLog before .initial ⊆ itemsLog items .initial := by
  rw [h, itemsLog_append]
  exact List.subset_append_left _ _

theorem itemsLog_mid {items before rest : List Item} {i : Item} (h : items = before ++ i :: rest) :
    i.log (evaluate before .initial) ⊆ itemsLog items .initial := by
  rw [h, itemsLog_append]
  exact List.subset_append_of_subset_right _ (List.subset_append_left _ _)

/-- Slots are counted exactly as long as there are words enough. -/
theorem slotsUsed_eq {items : List Item} (h : total (itemsLog items .initial) < wordSize) :
    slotsUsed items = total (itemsLog items .initial) := by
  have htiles := (evaluate_grows items Compiler.initial_entered).tiles
  have hstop := htiles.stop (Nat.lt_of_le_of_lt (Nat.le_of_eq (Nat.zero_add _)) h)
  exact hstop.trans (Nat.zero_add _)

/-- **Storage is never shared**, as long as there are words enough to count the slots. -/
theorem storage_disjoint (items : List Item) (hwords : total (itemsLog items .initial) < wordSize) :
    SeparateStorage items := by
  have hgrows := evaluate_grows items Compiler.initial_entered
  have hcount : Compiler.initial.scopes.nextSlot + total (itemsLog items .initial) < wordSize :=
    Nat.lt_of_le_of_lt (Nat.le_of_eq (Nat.zero_add _)) hwords
  have hbefore (before : List Item) := evaluate_grows before Compiler.initial_entered
  exact {
    disjoint := hgrows.tiles.pairwise hcount
    below := fun r hr => (hgrows.tiles.bounds hcount r hr).2
    monotone := by
      intro before rest h
      have hsum : total (itemsLog items .initial) =
          total (itemsLog before .initial) + total (itemsLog rest (evaluate before .initial)) := by
        rw [h, itemsLog_append, total_append]
      rw [slotsUsed_eq hwords, slotsUsed_eq (by omega), hsum]
      exact Nat.le_add_right _ _
    symbols := by
      intro before rest owner id v h hv
      refine ⟨?_, ?_⟩
      · rw [h, evaluate_append]
        exact (evaluate_grows rest (hbefore before).entered).kept hv
      · rcases (hbefore before).symbols hv with hnone | ⟨r, hr, hof⟩
        · cases owner <;> cases hnone
        · exact ⟨r, itemsLog_before h hr, hof⟩
    named := hgrows.declared
    entered := by
      intro before rest a h ha
      rcases (hbefore before).activation ha with hnone | hr
      · cases hnone
      · exact itemsLog_before h hr
    returned := fun h hf => (FunctionDecl.returnsReserved hf).mono (itemsLog_mid h)
    returnedIn := by
      intro before p rest fs f fs' declarations functions code c₁ c₂ d h hfs hdecls hfuns hf
      have hlog : f.log c₂ ⊆ p.log (evaluate before .initial) := by
        refine List.Subset.trans ?_ (Program.functionsLog_subset hdecls)
        rw [hfs]
        exact functionsLog_mid hfuns
      exact (FunctionDecl.returnsReserved hf).mono (List.Subset.trans hlog (itemsLog_mid h)) }

/-- An array, a declaration that is refused at its second name, a function whose body is given up at an
unknown name, a loop that still belongs to this function, and a program. -/
def interrupted : List Item :=
  let one : Expr := .constant (.integer 1)
  let three : Expr := .constant (.integer 3)
  [.declaration ⟨["a"], .array one three .integer⟩,
   .declaration ⟨["b", "A", "c"], .real⟩,
   .function (.definition ⟨"f", [.value ["x"] .integer], .integer⟩
     ⟨[], [⟨["a"], .array one one .char⟩],
       [.forDo "i" one .to three (.assign (.name "f") one), .assign (.name "y") one]⟩),
   .statement (.forDo "j" one .to three (.compound [])),
   .program ⟨"p", [], ⟨[], [⟨["s"], .string⟩], []⟩⟩]

example : itemsLog interrupted .initial =
    [⟨0, .named none "a" (.array 1 3 .integer)⟩, ⟨3, .named none "b" (.scalar .real)⟩,
     ⟨4, .refused (.scalar .real)⟩, ⟨5, .result "f"⟩, ⟨6, .named (some "f") "x" (.scalar .integer)⟩,
     ⟨7, .named (some "f") "a" (.array 1 1 .char)⟩, ⟨8, .named (some "f") "i" (.scalar .integer)⟩,
     ⟨9, .named (some "f") "j" (.scalar .integer)⟩, ⟨10, .named (some "f") "s" (.scalar .string)⟩] := by
  decide +kernel

theorem storage_disjoint_interrupted :
    total (itemsLog interrupted .initial) < wordSize ∧ SeparateStorage interrupted := by
  have h : total (itemsLog interrupted .initial) < wordSize := by decide +kernel
  exact ⟨h, storage_disjoint interrupted h⟩

end PascalStack
