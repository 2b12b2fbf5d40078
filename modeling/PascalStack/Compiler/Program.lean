import PascalStack.Compiler.Stmt

/-!
# Code of declarations and programs

The code of a program initialises the global variables and jumps to `main`; the functions come in
between.

* `arraySize?`            the number of elements of an array, if it is allowed;
* `VarDecl.compile`       declares variables and gives them their first values;
* `FunctionDecl.compile`  declares a function, or compiles its body;
* `Program.compile`       compiles a program;
* `compileTree`           compiles a program from the initial state.
-/

namespace PascalStack

/-- The greatest number of elements of an array. -/
def maxArraySize : Int := 65536

/-- The number of elements between two bounds, which must be positive and not too large. -/
def arraySize? (low high : Int64) : Option Nat :=
  let count := high.toInt - low.toInt + 1
  if 1 ≤ count ∧ count ≤ maxArraySize then some count.toNat else none

/-- The parameters of a heading with their types. -/
def parameterList : List ParameterSection → Except SemanticError (List (String × DataType))
  | [] => .ok []
  | .function _ _ _ :: _ => .error (.unsupported .functionalParameter)
  | .value names type :: rest | .reference names type :: rest =>
    match DataType.ofScalar? type with
    | none => .error (.unsupported .arrayParameter)
    | some t => do
      let ps ← parameterList rest
      return names.map (fun name => (name, t)) ++ ps

/-- The type of the result of a heading. -/
def Heading.resultType (h : Heading) : Except SemanticError DataType :=
  match DataType.ofScalar? h.result with
  | some t => .ok t
  | none => .error (.unsupported .arrayResult)

/-- The signature of a heading.  The name may be neither `main` nor predefined. -/
def Heading.signature (h : Heading) (directive : Option Directive) :
    Except SemanticError Signature := do
  if foldAscii h.name = "main" then throw (.unsupported .functionNamedMain)
  if (Builtin.ofName? h.name).isSome then throw (.duplicate h.name)
  let parameters ← parameterList h.parameters
  let result ← h.resultType
  return ⟨h.name, parameters.map Prod.snd, result, directive, directive.isNone, false⟩

namespace Compile

/-- Declares the arrays of a declaration; all elements start as zero. -/
def declareArrays (low high : Expr) (element : DataType) : List String → Compile (List Line)
  | [] => return []
  | name :: names => do
    match low.constant?, high.constant? with
    | none, _ => throw (.nonConstant .lower name)
    | some _, none => throw (.nonConstant .upper name)
    | some l, some h =>
      match arraySize? l h with
      | none => throw (.invalidBounds name l h)
      | some size =>
        let base ← allocate size
        declare name ⟨base, .array l element⟩
        let rest ← declareArrays low high element names
        return emit (.pushn size :: (List.range' base size).map fun slot => .storeg (some slot))
          ++ rest

/-- Declares variables of one value each. -/
def declareScalars (type : DataType) : List String → Compile (List Line)
  | [] => return []
  | name :: names => do
    let slot ← allocate 1
    declare name ⟨slot, .scalar type⟩
    let rest ← declareScalars type names
    return emit [type.initial, .storeg (some slot)] ++ rest

/-- Declares parameters and gives their slots. -/
def declareParameters : List (String × DataType) → Compile (List Nat)
  | [] => return []
  | (name, type) :: rest => do
    let slot ← allocate 1
    declare name ⟨slot, .scalar type⟩
    let slots ← declareParameters rest
    return slot :: slots

end Compile

open Compile

def VarDecl.compile (v : VarDecl) : Compile (List Line) :=
  match v.type with
  | .array low high element =>
    match DataType.ofScalar? element with
    | some t => declareArrays low high t v.names
    | none => throw (.unsupported .arrayOfArrays)
  | .real => declareScalars .real v.names
  | .integer => declareScalars .integer v.names
  | .boolean => declareScalars .boolean v.names
  | .string => declareScalars .string v.names
  | .char => declareScalars .char v.names

def compileVariables : List VarDecl → Compile (List Line)
  | [] => return []
  | v :: vs => do
    let code ← v.compile
    let rest ← compileVariables vs
    return code ++ rest

/-- The code of a function from its parts.  The last argument is on top of the stack. -/
def functionCode (label : String) (result : Nat) (parameters : List Nat)
    (declarations statements : List Line) : List Line :=
  [.label label] ++ emit (parameters.reverse.map fun slot => .storeg (some slot)) ++ declarations
    ++ statements ++ emit [.pushg (some result), .basic .ret]

/-- Compiles the body of a function under its label. -/
def compileBody (label : String) (heading : Heading) (block : Block) : Compile (List Line) := do
  if !block.functions.isEmpty then throw (.unsupported .nestedFunction)
  let result ← check heading.resultType
  setScopes ((← scopes).enter label)
  let slot ← allocate 1
  modify fun c => { c with activation := some ⟨label, slot, result⟩ }
  let parameters ← check (parameterList heading.parameters)
  let slots ← declareParameters parameters
  let declarations ← compileVariables block.declarations
  let statements ← compileAll block.statements
  modify fun c => { c with activation := none, scopes := c.scopes.leave }
  return functionCode label slot slots declarations statements

/-- The label of a function that is about to get a full definition.  It is new, or it was announced by
`forward` with the same types. -/
def announce (heading : Heading) : Compile String := do
  let declared ← check (heading.signature none)
  match (← scopes).function? heading.name with
  | some f =>
    if f.directive = some .forward ∧ f.hasBody = false then
      if f.parameters ≠ declared.parameters ∨ f.result ≠ declared.result then
        throw (.typeMismatch (.signature f.parameters f.result)
          (.signature declared.parameters declared.result) (.definition heading.name))
      setScopes ((← scopes).modifyFunction heading.name fun f => { f with hasBody := true })
      return f.label
    else throw (.duplicate heading.name)
  | none =>
    setScopes (← check ((← scopes).declareFunction declared))
    return declared.label

def FunctionDecl.compile : FunctionDecl → Compile (List Line)
  | .definition heading block => do
    let label ← announce heading
    modify fun c => { c with pending := c.pending.erase heading.name }
    compileBody label heading block
  | .directive heading d => do
    let f ← check (heading.signature (some d))
    setScopes (← check ((← scopes).declareFunction f))
    if d = .forward then
      modify fun c => { c with pending := c.pending.insert heading.name heading }
    return []
  | .body name block => do
    match (← scopes).function? name with
    | none => throw (.undeclared .function name)
    | some f =>
      if f.directive = some .external then throw (.externalLinkage name)
      if f.hasBody then throw (.duplicate name)
      setScopes ((← scopes).modifyFunction name fun f => { f with hasBody := true })
      match (← get).pending.find? name with
      | none => throw (.duplicate name)
      | some heading =>
        modify fun c => { c with pending := c.pending.erase name }
        compileBody f.label heading block

def compileFunctions : List FunctionDecl → Compile (List Line)
  | [] => return []
  | f :: fs => do
    let code ← f.compile
    let rest ← compileFunctions fs
    return code ++ rest

/-- Every function that was called must have got a body. -/
def checkForwards (s : Scopes) : Except SemanticError Unit :=
  match s.functionList.find? fun f =>
      decide (f.directive = some .forward) && !f.hasBody && f.called with
  | some f => .error (.undefinedForward f.label)
  | none => .ok ()

/-- The code of the statements of a block. -/
def Block.compile (b : Block) : Compile (List Line) := compileAll b.statements

def Program.compile (p : Program) : Compile (List Line) := do
  let declarations ← compileVariables p.block.declarations
  let functions ← compileFunctions p.block.functions
  let statements ← p.block.compile
  check (checkForwards (← scopes))
  return declarations ++ emit [.jump "main"] ++ functions ++ [.label "main"] ++ emitBasic [.start]
    ++ statements ++ emitBasic [.stop]

/-- Compiles a program from the initial state. -/
def compileTree (p : Program) : Except SemanticError (List Line) :=
  match p.compile .initial with
  | .ok code _ => .ok code
  | .error e _ => .error e

end PascalStack
