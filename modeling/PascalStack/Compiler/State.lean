import PascalStack.Typing.Infer

/-!
# The state of a compilation

* `Compiler`    names in scope, label counters, the function being compiled, headings without a body;
* `Compile`     computations on this state.  An error leaves the state as it was when it arose;
* `emit`        instructions as lines of code.
-/

namespace PascalStack

/-- The function whose body is being compiled; its result has a slot of its own. -/
structure Activation where
  name : String
  slot : Nat
  result : DataType
deriving DecidableEq

/-- `ifs`, `whiles` and `fors` number the labels of statements; `pending` are the headings announced by
`forward`. -/
structure Compiler where
  scopes : Scopes
  ifs : Nat
  whiles : Nat
  fors : Nat
  activation : Option Activation
  pending : Table Heading

def Compiler.initial : Compiler := ⟨.empty, 0, 0, 0, none, .empty⟩

abbrev Compile := EStateM SemanticError Compiler

namespace Compile
variable {α : Type}

/-- A check on types as a step of a compilation. -/
def check (e : Except SemanticError α) : Compile α :=
  match e with
  | .ok a => pure a
  | .error e => throw e

def scopes : Compile Scopes := return (← get).scopes

def setScopes (s : Scopes) : Compile Unit := modify fun c => { c with scopes := s }

/-- The type of an expression with the names in scope. -/
def typeOf (e : Expr) : Compile DataType := do check ((← scopes).infer e)

/-- Reserves slots. -/
def allocate (size : Nat) : Compile Nat := do
  let (slot, s) := (← scopes).allocate size
  setScopes s
  return slot

def declare (name : String) (v : Variable) : Compile Unit := do
  setScopes (← check ((← scopes).declare name v))

/-- A fresh number for the labels of an `if`. -/
def nextIf : Compile Nat := modifyGet fun c => (c.ifs, { c with ifs := c.ifs + 1 })

/-- A fresh number for the labels of a `while`. -/
def nextWhile : Compile Nat := modifyGet fun c => (c.whiles, { c with whiles := c.whiles + 1 })

/-- A fresh number for the labels of a `for`. -/
def nextFor : Compile Nat := modifyGet fun c => (c.fors, { c with fors := c.fors + 1 })

end Compile

/-- Instructions as lines of code. -/
def emit (ops : List (Op String)) : List Line := ops.map Line.op

/-- Instructions without operands as lines of code. -/
def emitBasic (bs : List Basic) : List Line := emit (bs.map Op.basic)

/-- The instruction of a conversion, if there is one. -/
def emitConversion (c : Option Conversion) : List Line := emit (c.toList.map Conversion.op)

end PascalStack
