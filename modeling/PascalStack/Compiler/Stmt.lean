import PascalStack.Compiler.Expr

/-!
# Code of statements

The code of a statement leaves the stack as it was.

* `ifLabel`, `whileLabel`, …   the labels of statements;
* `ifCode`, `whileCode`, `forCode`   the code of control statements from the code of their parts;
* `Stmt.compile`   the code of statements.
-/

namespace PascalStack

def elseLabel (k : Nat) : String := "else" ++ naturalText k
def endIfLabel (k : Nat) : String := "endif" ++ naturalText k
def whileLabel (k : Nat) : String := "while" ++ naturalText k
def endWhileLabel (k : Nat) : String := "endwhile" ++ naturalText k
def forLabel (k : Nat) : String := "for" ++ naturalText k
def endForLabel (k : Nat) : String := "endfor" ++ naturalText k

def ifCode (k : Nat) (condition thenCode : List Line) : List Line :=
  condition ++ emit [.jz (endIfLabel k)] ++ thenCode ++ [.label (endIfLabel k)]

def ifElseCode (k : Nat) (condition thenCode elseCode : List Line) : List Line :=
  condition ++ emit [.jz (elseLabel k)] ++ thenCode ++ emit [.jump (endIfLabel k)]
    ++ [.label (elseLabel k)] ++ elseCode ++ [.label (endIfLabel k)]

def whileCode (k : Nat) (condition body : List Line) : List Line :=
  [.label (whileLabel k)] ++ condition ++ emit [.jz (endWhileLabel k)] ++ body
    ++ emit [.jump (whileLabel k)] ++ [.label (endWhileLabel k)]

/-- The test that lets a loop go on. -/
def Direction.test : Direction → Order
  | .to => .lessEqual
  | .downto => .greaterEqual

/-- The step of a loop. -/
def Direction.step : Direction → Arith
  | .to => .add
  | .downto => .sub

/-- The final value is computed anew before each turn. -/
def forCode (k slot : Nat) (direction : Direction) (initial final body : List Line) :
    List Line :=
  initial ++ emit [.storeg (some slot)] ++ [.label (forLabel k)] ++ emit [.pushg (some slot)]
    ++ final ++ emit [.basic (.order direction.test), .jz (endForLabel k)] ++ body
    ++ emit [.pushg (some slot), .pushi 1, .basic (.arith direction.step), .storeg (some slot),
      .jump (forLabel k)]
    ++ [.label (endForLabel k)]

namespace Compile

/-- The slot and type of a name on the left of an assignment; inside a function its own name is its
result. -/
def storeTarget (name : String) : Compile (Nat × DataType) := do
  let fromScope : Compile (Nat × DataType) := do
    match (← scopes).resolve? name with
    | some v => return (v.slot, v.type)
    | none => throw (.undeclared .variable name)
  match (← get).activation with
  | some a => if foldAscii a.name = foldAscii name then return (a.slot, a.result) else fromScope
  | none => fromScope

/-- An array whose elements can be assigned. -/
def writableArray (name : String) : Compile Variable := do
  let v ← check ((← scopes).indexed name)
  match v.type with
  | .array => return v
  | .string => throw (.unsupported .stringElement)
  | _ => throw (.notAnArray name)

/-- The condition of a statement. -/
def condition (e : Expr) (place : Place) : Compile (List Line) := do
  check (expectTruth (← typeOf e) place)
  e.compile

def assign (target : Access) (value : Expr) : Compile (List Line) := do
  let type ← typeOf value
  let code ← value.compile
  match target with
  | .name id =>
    let (slot, targetType) ← storeTarget id
    let conversion ← check (assignConversion targetType type (.assignment id))
    return code ++ emitConversion conversion ++ emit [.storeg (some slot)]
  | .index (.name id) [i] =>
    let v ← writableArray id
    let conversion ← check (assignConversion v.element type (.elementAssignment id))
    let address ← addressOf v i i.compile
    return code ++ emitConversion conversion ++ address ++ emit [.storeg none]
  | .index _ _ => throw (.unsupported .multidimensional)
  | .field _ _ => throw (.unsupported .fieldAssignment)
  | .deref _ => throw (.unsupported .pointerAssignment)

/-- The slot of a control variable.  A name that is not declared becomes an integer variable. -/
def controlVariable (name : String) : Compile Nat := do
  match (← scopes).resolve? name with
  | some v =>
    check (expectType .integer v.type .controlVariable)
    return v.slot
  | none =>
    let slot ← allocate 1
    declare name ⟨slot, .scalar .integer⟩
    return slot

/-- Checks the widths of a value to be written; they have no effect on the code. -/
def checkWidths : Argument → Compile Unit
  | .value _ => pure ()
  | .wide _ width => do check (expectType .integer (← typeOf width) .writeWidth)
  | .precise _ width precision => do
    check (expectType .integer (← typeOf width) .writeWidth)
    check (expectType .integer (← typeOf precision) .writePrecision)

/-- Writes values one after the other. -/
def writeAll (b : Builtin) : List Argument → Compile (List Line)
  | [] => return []
  | a :: arguments => do
    checkWidths a
    let type ← typeOf a.expr
    match type.write? with
    | none => throw (.typeMismatch .scalar (.type type) (.builtin b))
    | some write =>
      let code ← a.expr.compile
      let rest ← writeAll b arguments
      return code ++ emitBasic [write] ++ rest

/-- The instructions that turn a line that was read into a value. -/
def readingOf (type : DataType) : Except SemanticError (List Line) :=
  match type.read? with
  | some ops => .ok (emit ops)
  | none => .error (.unsupported .arrayRead)

/-- Reads a line into a variable. -/
def readInto (target : Access) : Compile (List Line) := do
  match target with
  | .name id =>
    let (slot, type) ← storeTarget id
    let reading ← check (readingOf type)
    return emitBasic [.read] ++ reading ++ emit [.storeg (some slot)]
  | .index (.name id) [i] =>
    let v ← writableArray id
    let reading ← check (readingOf v.element)
    let address ← addressOf v i i.compile
    return emitBasic [.read] ++ reading ++ address ++ emit [.storeg none]
  | .index _ _ => throw (.unsupported .multidimensional)
  | .field _ _ => throw (.unsupported .readFieldOrPointer)
  | .deref _ => throw (.unsupported .readFieldOrPointer)

/-- Reads a line; without an argument it is passed over. -/
def readLine : List Argument → Compile (List Line)
  | [] => return emitBasic [.read] ++ emit [.pop 1]
  | .value (.access target) :: _ => readInto target
  | _ :: _ => throw (.unsupported .readTarget)

/-- A call as a statement; the result of a function is dropped. -/
def callStatement (name : String) (arguments : List Argument) : Compile (List Line) := do
  match Builtin.ofName? name with
  | some b =>
    checkArity b arguments.length
    match b with
    | .write | .writeln =>
      let code ← writeAll b arguments
      return code ++ emitBasic b.epilogue
    | .read | .readln => readLine arguments
    | .length | .charat =>
      let code ← compileBuiltin b b.parameters arguments
      return code ++ emitBasic b.epilogue ++ emit [.pop 1]
  | none =>
    if ((← scopes).function? name).isNone then throw (.undeclared .procedure name)
    let f ← callee name arguments.length
    let code ← compileArguments f.label 1 f.parameters arguments
    return code ++ callCode f.label ++ emit [.pop 1]

end Compile

open Compile

mutual

@[simp] def Stmt.compile : Stmt → Compile (List Line)
  | .compound body => compileAll body
  | .assign target value => assign target value
  | .ifThen c thenBranch => do
    let k ← nextIf
    let conditionCode ← condition c .ifCondition
    let thenCode ← thenBranch.compile
    return ifCode k conditionCode thenCode
  | .ifThenElse c thenBranch elseBranch => do
    let k ← nextIf
    let conditionCode ← condition c .ifCondition
    let thenCode ← thenBranch.compile
    let elseCode ← elseBranch.compile
    return ifElseCode k conditionCode thenCode elseCode
  | .whileDo c body => do
    let k ← nextWhile
    let conditionCode ← condition c .whileCondition
    let bodyCode ← body.compile
    return whileCode k conditionCode bodyCode
  | .forDo control initial direction final body => do
    let k ← nextFor
    let slot ← controlVariable control
    check (expectType .integer (← typeOf initial) .initialValue)
    check (expectType .integer (← typeOf final) .finalValue)
    let initialCode ← initial.compile
    let finalCode ← final.compile
    let bodyCode ← body.compile
    return forCode k slot direction initialCode finalCode bodyCode
  | .call name arguments => callStatement name arguments

/-- Statements one after the other. -/
@[simp] def compileAll : List Stmt → Compile (List Line)
  | [] => return []
  | s :: ss => do
    let code ← s.compile
    let rest ← compileAll ss
    return code ++ rest

end

end PascalStack
