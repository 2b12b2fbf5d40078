import PascalStack.Proofs.Semantics.Memory
import PascalStack.Compiler.Program

/-!
# Evaluation of program trees

The meaning of a program, given by recursion on its tree.  Nothing here mentions code: of the compiler
only the places of variables are used.

* `Expr.eval`, `Access.eval`   expressions; operands and arguments are evaluated from left to right;
* `Context`             the names in sight of a statement;
* `Stmt.exec`           statements; a loop makes at most a given number of turns;
* `Routine`, `Layout`   the functions of a program and the slots of its variables;
* `Layout.callAt`       calls of functions, nested at most to a given depth;
* `Program.exec`        whole programs;
* `Program.Ends`, `Program.Faults`, `Program.Diverges`   how the evaluation of a program comes out.
-/

namespace PascalStack

/-- The type of an expression; integer if it has none. -/
def Scopes.typeOf (S : Scopes) (e : Expr) : DataType := (S.infer e).toOption.getD .integer

/-- The arithmetic of an operator; that of integers if its operands do not fit. -/
def Scopes.arithmetic (S : Scopes) (op : BinaryOp) (left right : Expr) : Arithmetic :=
  (operandArithmetic op (S.typeOf left) (S.typeOf right)).toOption.getD .integer

open Eval

mutual

/-- The value of an expression; `call` gives the results of functions.  What has no meaning, such as a
set, has the value zero. -/
@[simp] def Expr.eval (w : Watch) (S : Scopes) (call : String → List Value → Eval Value) : Expr → Eval Value
  | .access a => typed w (S.typeOf (.access a)) (a.eval w S call)
  | .call name arguments => typed w (S.typeOf (.call name arguments)) <|
    match Builtin.ofName? name with
    | some b => do
      let vs ← evalArguments w S call b.parameters arguments
      lift (b.apply vs)
    | none =>
      match S.function? name with
      | some f => do
        let vs ← evalArguments w S call f.parameters arguments
        call f.label vs
      | none => return .zero
  | .binary op left right => typed w (S.typeOf (.binary op left right)) do
    let arithmetic := S.arithmetic op left right
    let l ← left.eval w S call
    let l ← lift (Conversion.apply (arithmetic.conversion (S.typeOf left)) l)
    let r ← right.eval w S call
    let r ← lift (Conversion.apply (arithmetic.conversion (S.typeOf right)) r)
    lift (op.apply arithmetic l r)
  | .signed sign operand => typed w (S.typeOf (.signed sign operand)) do
    let v ← operand.eval w S call
    lift (sign.apply (S.typeOf operand) v)
  | .power base exponent => typed w (S.typeOf (.power base exponent)) <|
    match exponentOf exponent with
    | .ok (n + 1) => do
      let v ← base.eval w S call
      lift (powerOf (S.typeOf base) v n)
    | _ => return unit (S.typeOf base)
  | .not operand => typed w (S.typeOf (.not operand)) do
    let v ← operand.eval w S call
    return .ofBool (!v.isTrue)
  | .constant c => typed w (S.typeOf (.constant c)) (return c.value)
  | .set _ => return .zero

/-- The value of a variable, of a part of one, or of a function without arguments. -/
@[simp] def Access.eval (w : Watch) (S : Scopes) (call : String → List Value → Eval Value) : Access → Eval Value
  | .name id =>
    match truthName? id with
    | some b => return .ofBool b
    | none =>
      match S.resolve? id with
      | some v => loadSlot w v.slot
      | none =>
        match S.function? id with
        | some f => call f.label []
        | none => return .zero
  | .index (.name id) [i] =>
    match S.resolve? id with
    | some v =>
      if v.type = .array then do
        let index ← i.eval w S call
        note w (.element S.current id index)
        let slot ← lift (v.elementSlot "pushg" index)
        loadSlot w slot
      else do
        let text ← loadSlot w v.slot
        let position ← i.eval w S call
        lift (characterAt text position)
    | none => return .zero
  | .index _ _ => return .zero
  | .field _ _ => return .zero
  | .deref _ => return .zero

def evalArguments (w : Watch) (S : Scopes) (call : String → List Value → Eval Value) :
    List DataType → List Argument → Eval (List Value)
  | t :: ts, .value e :: arguments => do
    let v ← e.eval w S call
    let v ← lift (Conversion.apply (conversionTo t (S.typeOf e)) v)
    let vs ← evalArguments w S call ts arguments
    return v :: vs
  | _, _ => return []

end

/-- The names in sight of a statement, and the function it stands in. -/
structure Context where
  scopes : Scopes
  activation : Option Activation

namespace Context

/-- The slot and type of a name on the left of an assignment; inside a function its own name is its
result. -/
def target (x : Context) (name : String) : Nat × DataType :=
  let declared := (x.scopes.resolve? name).map fun v => (v.slot, v.type)
  match x.activation with
  | some a =>
    if foldAscii a.name = foldAscii name then (a.slot, a.result) else declared.getD (0, .integer)
  | none => declared.getD (0, .integer)

def variableOf (x : Context) (name : String) : Variable :=
  (x.scopes.resolve? name).getD ⟨0, .scalar .integer⟩

end Context

/-- Turns of a loop, as long as `test` holds; at most `n` of them. -/
def turns (test : Eval Bool) (body : Eval Unit) : (n : Nat) → Eval Unit
  | 0 => throw .unfinished
  | n + 1 => do
    if ← test then
      body
      turns test body n
    else
      return

section
variable (w : Watch) (x : Context) (call : String → List Value → Eval Value)

/-- Stores a value of a type in a variable or an element of an array.  The index is evaluated after
the value. -/
def storeValue (target : Access) (type : DataType) (v : Value) : Eval Unit :=
  match target with
  | .name id => do
    let v ← lift (Conversion.apply (conversionTo (x.target id).2 type) v)
    storeSlot (x.target id).1 v
  | .index (.name id) [i] => do
    let v ← lift (Conversion.apply (conversionTo (x.variableOf id).element type) v)
    let index ← i.eval w x.scopes call
    note w (.element x.scopes.current id index)
    let slot ← lift ((x.variableOf id).elementSlot "storeg" index)
    storeSlot slot v
  | _ => return

/-- The type of the values that a variable or an element of an array takes. -/
def Context.targetType (target : Access) : DataType :=
  match target with
  | .name id => (x.target id).2
  | .index (.name id) _ => (x.variableOf id).element
  | _ => .integer

def writeValues : List Argument → Eval Unit
  | [] => return
  | a :: arguments => do
    let v ← a.expr.eval w x.scopes call
    let text ← lift ((x.scopes.typeOf a.expr).writing v)
    write text
    writeValues arguments

def execCall (name : String) (arguments : List Argument) : Eval Unit :=
  match Builtin.ofName? name with
  | some .write => writeValues w x call arguments
  | some .writeln => do
    writeValues w x call arguments
    write "\n"
  | some .read | some .readln =>
    match arguments with
    | .value (.access target) :: _ => do
      let line ← readLine
      let v ← lift ((x.targetType target).reading line)
      storeValue w x call target (x.targetType target) v
    | _ => do
      let _ ← readLine
  | some .length | some .charat | none => do
    let _ ← (Expr.call name arguments).eval w x.scopes call

variable (n : Nat)

mutual

/-- The effect of a statement, if each loop makes at most `n` turns. -/
@[simp] def Stmt.exec : Stmt → Eval Unit
  | .compound body => execAll body
  | .assign target value => do
    let v ← value.eval w x.scopes call
    storeValue w x call target (x.scopes.typeOf value) v
  | .ifThen c thenBranch => do
    let v ← c.eval w x.scopes call
    if v.isTrue then thenBranch.exec else return
  | .ifThenElse c thenBranch elseBranch => do
    let v ← c.eval w x.scopes call
    if v.isTrue then thenBranch.exec else elseBranch.exec
  | .whileDo c body =>
    turns (do return (← c.eval w x.scopes call).isTrue) body.exec n
  | .forDo control initial direction final body => do
    let slot := (x.variableOf control).slot
    let first ← initial.eval w x.scopes call
    storeSlot slot first
    turns
      (do
        let current ← loadSlot w slot
        let last ← final.eval w x.scopes call
        return (← lift ((Basic.order direction.test).binary current last)).isTrue)
      (do
        body.exec
        let current ← loadSlot w slot
        let next ← lift ((Basic.arith direction.step).binary current (.integer 1))
        storeSlot slot next)
      n
  | .call name arguments => execCall w x call name arguments

@[simp] def execAll : List Stmt → Eval Unit
  | [] => return
  | s :: ss => do
    s.exec
    execAll ss

end

end

/-! ## declarations -/

def fill (v : Value) : List Nat → Eval Unit
  | [] => return
  | slot :: slots => do
    storeSlot slot v
    fill v slots

/-- Gives a variable its first value; the elements of an array start as zero. -/
def VarDecl.initialise (S : Scopes) (v : VarDecl) (name : String) : Eval Unit :=
  match S.resolve? name, v.type with
  | none, _ => return
  | some w, .array low high _ =>
    match low.constant?, high.constant? with
    | some l, some h => fill .zero (List.range' w.slot ((arraySize? l h).getD 0))
    | _, _ => return
  | some w, _ => storeSlot w.slot w.type.initialValue

def initialiseAll (S : Scopes) (v : VarDecl) : List String → Eval Unit
  | [] => return
  | name :: names => do
    v.initialise S name
    initialiseAll S v names

def declareVariables (S : Scopes) : List VarDecl → Eval Unit
  | [] => return
  | v :: vs => do
    initialiseAll S v v.names
    declareVariables S vs

/-- Stores arguments in the slots of parameters; the last one first. -/
def storeParameters (S : Scopes) : List (String × Value) → Eval Unit
  | [] => return
  | (name, v) :: rest => do
    storeParameters S rest
    storeSlot ((S.resolve? name).getD ⟨0, .scalar .integer⟩).slot v

/-! ## functions and programs -/

/-- A function with a body. -/
structure Routine where
  activation : Activation
  parameters : List (String × DataType)
  block : Block

/-- The functions of a program, and the names of all its variables and functions. -/
structure Layout where
  scopes : Scopes
  routines : List Routine

namespace Layout

def routine? (L : Layout) (label : String) : Option Routine :=
  L.routines.find? fun r => r.activation.name = label

/-- What is in sight inside a function. -/
def contextOf (L : Layout) (r : Routine) : Context :=
  ⟨{ L.scopes with current := some r.activation.name }, some r.activation⟩

/-- Calls a function.  Calls are nested to a depth of at most `n`. -/
def callAt (w : Watch) (L : Layout) : (n : Nat) → (label : String) → List Value → Eval Value
  | 0, _, _ => throw .unfinished
  | n + 1, label, arguments =>
    match L.routine? label with
    | none => return .zero
    | some r => do
      let x := L.contextOf r
      storeParameters x.scopes ((r.parameters.map Prod.fst).zip arguments)
      declareVariables x.scopes r.block.declarations
      execAll w x (L.callAt w n) n r.block.statements
      loadSlot w r.activation.slot

/-- What is in sight in the statements of the program. -/
def context (L : Layout) : Context := ⟨L.scopes, none⟩

end Layout

/-- The routine of a heading and a block: its result has a slot of its own. -/
def Heading.routine? (heading : Heading) (label : String) (slot : Nat) (block : Block) :
    Option Routine :=
  match heading.resultType, parameterList heading.parameters with
  | .ok result, .ok parameters => some ⟨⟨label, slot, result⟩, parameters, block⟩
  | _, _ => none

/-- The routine of a declaration.  Its result takes the first free slot, and its label is the name as
it was first declared. -/
def FunctionDecl.routine? (c : Compiler) (f : FunctionDecl) : Option Routine :=
  let label := ((c.scopes.function? f.name).map Signature.label).getD f.name
  match f with
  | .definition heading block => heading.routine? label c.scopes.nextSlot block
  | .directive _ _ => none
  | .body name block =>
    (c.pending.find? name).bind fun heading => heading.routine? label c.scopes.nextSlot block

/-- The routines of declarations that are compiled one after the other. -/
def routinesFrom (c : Compiler) : List FunctionDecl → List Routine
  | [] => []
  | f :: fs =>
    match f.compile c with
    | .ok _ d => (f.routine? c).toList ++ routinesFrom d fs
    | .error _ _ => []

/-- The places of the variables of a program that can be compiled. -/
def Program.layout? (p : Program) : Option Layout :=
  match compileVariables p.block.declarations .initial, p.compile .initial with
  | .ok _ c, .ok _ d => some ⟨d.scopes, routinesFrom c p.block.functions⟩
  | _, _ => none

/-- Evaluates a program with at most `n` turns of each loop and calls nested to a depth of at most `n`. -/
def Program.exec (w : Watch) (p : Program) (L : Layout) (n : Nat) : Eval Unit := do
  declareVariables L.scopes p.block.declarations
  execAll w L.context (L.callAt w n) n p.block.statements

def Program.Ends (p : Program) (input : List UInt8) (m : Memory) : Prop :=
  ∃ L n, p.layout? = some L ∧ p.exec .off L n (.initial input) = .ok () m

def Program.Faults (p : Program) (input : List UInt8) (f : Fault) (m : Memory) : Prop :=
  ∃ L n, p.layout? = some L ∧ p.exec .off L n (.initial input) = .error (.fault f) m

/-- The evaluation goes on for ever: no number of turns is enough. -/
def Program.Diverges (p : Program) (input : List UInt8) : Prop :=
  ∃ L, p.layout? = some L ∧ ∀ n, ∃ m, p.exec .off L n (.initial input) = .error .unfinished m

end PascalStack
