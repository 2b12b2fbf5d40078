import PascalStack.Compiler.State

/-!
# Code of expressions

The code of an expression leaves its value on the stack.

* `BinaryOp.code`       the instructions of an operator after its operands;
* `addressOf`           the slot of an array element, from the value of its index;
* `Expr.compile`, `Access.compile`   the code of expressions.
-/

namespace PascalStack

/-- The instructions of an operator.  There are none for membership, which is rejected before. -/
def BinaryOp.code : BinaryOp → Arithmetic → List Basic
  | .add, .integer => [.arith .add]
  | .subtract, .integer => [.arith .sub]
  | .multiply, .integer => [.arith .mul]
  | .divide, .integer => [.arith .div]
  | .integerDivide, .integer => [.arith .div]
  | .add, .real => [.realArith .add]
  | .subtract, .real => [.realArith .sub]
  | .multiply, .real => [.realArith .mul]
  | .divide, .real => [.realArith .div]
  | .integerDivide, .real => [.realArith .div]
  | .modulo, _ => [.arith .mod]
  | .less, .integer => [.order .less]
  | .lessEqual, .integer => [.order .lessEqual]
  | .greater, .integer => [.order .greater]
  | .greaterEqual, .integer => [.order .greaterEqual]
  | .less, .real => [.realOrder .less]
  | .lessEqual, .real => [.realOrder .lessEqual]
  | .greater, .real => [.realOrder .greater]
  | .greaterEqual, .real => [.realOrder .greaterEqual]
  | .equal, _ => [.equal]
  | .notEqual, _ => [.equal, .not]
  | .and, _ => [.and]
  | .or, _ => [.or]
  | .member, _ => []

/-- The instructions of a sign after its operand. -/
def Sign.code (sign : Sign) (type : DataType) : List (Op String) :=
  match sign, type with
  | .plus, _ => []
  | .minus, .real => [.pushf (-1), .basic (.realArith .mul)]
  | .minus, _ => [.pushi (-1), .basic (.arith .mul)]

/-- The number one of a numeric type. -/
def oneOf (type : DataType) : Op String :=
  if type = .real then .pushf 1 else .pushi 1

def multiplyOf (type : DataType) : Basic :=
  if type = .real then .realArith .mul else .arith .mul

/-- A power by repeated multiplication, after the code of its base; the base is not computed at all for
the power 0. -/
def powerCode (type : DataType) (base : List Line) : Nat → List Line
  | 0 => emit [oneOf type]
  | n + 1 =>
    base ++ emit (List.replicate n (.dup 1)) ++ emitBasic (List.replicate n (multiplyOf type))

/-- The exponent of a power: a constant between 0 and `maxExponent`. -/
def exponentOf (e : Expr) : Except SemanticError Nat :=
  match e.constant? with
  | some n =>
    if n < 0 then .error .dynamicExponent
    else if maxExponent < n then .error (.unsupported (.exponent n))
    else .ok n.toInt.toNat
  | none => .error .dynamicExponent

namespace Compile

/-- Checks the number of arguments of a predefined procedure or function. -/
def checkArity (b : Builtin) (count : Nat) : Compile Unit :=
  if b.arity.accepts count then pure ()
  else throw (.arityMismatch b.name b.arity.expected count)

/-- The function of a call with `count` arguments, which is marked as called. -/
def callee (name : String) (count : Nat) : Compile Signature := do
  match (← scopes).function? name with
  | none => throw (.undeclared .function name)
  | some f =>
    if f.directive = some .external then throw (.externalLinkage f.label)
    setScopes ((← scopes).modifyFunction name fun f => { f with called := true })
    if count ≠ f.parameters.length then
      throw (.arityMismatch f.label f.parameters.length count)
    return f

/-- The slot of an element of `v`, computed on the stack from the index `i`. -/
def addressOf (v : Variable) (i : Expr) (index : Compile (List Line)) : Compile (List Line) := do
  check (expectType .integer (← typeOf i) .arrayIndex)
  let code ← index
  return code ++ emit [.pushi v.low, .basic (.arith .sub), .pushi (Int64.ofNat v.slot),
    .basic (.arith .add)]

/-- A character of the string `v`; positions are counted from 1. -/
def characterOf (v : Variable) (i : Expr) (index : Compile (List Line)) :
    Compile (List Line) := do
  check (expectType .integer (← typeOf i) .stringIndex)
  let code ← index
  return emit [.pushg (some v.slot)] ++ code ++ emit [.pushi 1, .basic (.arith .sub),
    .basic .charat]

end Compile

/-- The code that calls a function after its arguments. -/
def callCode (label : String) : List Line := emit [.pusha label, .basic .call]

open Compile

mutual

@[simp] def Expr.compile : Expr → Compile (List Line)
  | .access a => a.compile
  | .call name arguments =>
    match Builtin.ofName? name with
    | some b =>
      if b.isFunction then do
        checkArity b arguments.length
        let code ← compileBuiltin b b.parameters arguments
        return code ++ emitBasic b.epilogue
      else throw (.unsupported (.procedureAsFunction b))
    | none => do
      let f ← callee name arguments.length
      let code ← compileArguments f.label 1 f.parameters arguments
      return code ++ callCode f.label
  | .binary op left right => do
    let leftType ← typeOf left
    let rightType ← typeOf right
    let arithmetic ← check (operandArithmetic op leftType rightType)
    let leftCode ← left.compile
    let rightCode ← right.compile
    return leftCode ++ emitConversion (arithmetic.conversion leftType)
      ++ rightCode ++ emitConversion (arithmetic.conversion rightType)
      ++ emitBasic (op.code arithmetic)
  | .signed sign operand => do
    let type ← typeOf operand
    check (expectNumeric type .sign)
    let code ← operand.compile
    return code ++ emit (sign.code type)
  | .power base exponent => do
    let n ← check (exponentOf exponent)
    let type ← typeOf base
    check (expectNumeric type .powerBase)
    if n = 0 then return powerCode type [] 0
    let code ← base.compile
    return powerCode type code n
  | .not operand => do
    check (expectTruth (← typeOf operand) .negation)
    let code ← operand.compile
    return code ++ emitBasic [.not]
  | .constant c => return emit [c.push]
  | .set members => compileMembers members

@[simp] def Access.compile : Access → Compile (List Line)
  | .name id =>
    match truthName? id with
    | some b => return emit [.pushi (if b then 1 else 0)]
    | none => do
      match (← scopes).resolve? id with
      | some v =>
        if v.type = .array then throw (.unsupported .arrayValue)
        return emit [.pushg (some v.slot)]
      | none =>
        if ((← scopes).function? id).isSome then
          let f ← callee id 0
          return callCode f.label
        else throw (.undeclared .variable id)
  | .index (.name id) [i] => do
    let v ← check ((← scopes).indexed id)
    match v.type with
    | .array =>
      let code ← addressOf v i i.compile
      return code ++ emit [.pushg none]
    | .string => characterOf v i i.compile
    | _ => throw (.notAnArray id)
  | .index _ _ => throw (.unsupported .multidimensional)
  | .field _ _ => throw (.unsupported .recordField)
  | .deref _ => throw (.unsupported .pointer)

/-- Arguments of a predefined function, which must have the given types. -/
@[simp] def compileBuiltin (b : Builtin) : List DataType → List Argument → Compile (List Line)
  | t :: ts, .value e :: arguments => do
    check (expectType t (← typeOf e) (.builtin b))
    let code ← e.compile
    let rest ← compileBuiltin b ts arguments
    return code ++ rest
  | _ :: _, _ :: _ => throw (.unsupported .formattedArgument)
  | _, _ => return []

/-- Arguments of the function `label` from `position` on, converted to the types of its parameters. -/
@[simp] def compileArguments (label : String) (position : Nat) :
    List DataType → List Argument → Compile (List Line)
  | t :: ts, .value e :: arguments => do
    let conversion ← check (assignConversion t (← typeOf e) (.argument position label))
    let code ← e.compile
    let rest ← compileArguments label (position + 1) ts arguments
    return code ++ emitConversion conversion ++ rest
  | _ :: _, _ :: _ => throw (.unsupported .formattedArgument)
  | _, _ => return []

/-- The members of a set, one after the other; a range leaves both ends. -/
@[simp] def compileMembers : List Member → Compile (List Line)
  | [] => return []
  | .single e :: members => do
    let code ← e.compile
    let rest ← compileMembers members
    return code ++ rest
  | .range low high :: members => do
    let lowCode ← low.compile
    let highCode ← high.compile
    let rest ← compileMembers members
    return lowCode ++ highCode ++ rest

end

end PascalStack
