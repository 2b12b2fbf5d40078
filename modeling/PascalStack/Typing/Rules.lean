import PascalStack.Typing.Scope

/-!
# Which types go together

* `Conversion`            between integer and real;
* `assignConversion`      what it takes to keep a value in a place of another type;
* `Arithmetic`            whether an operator works on integers or on reals;
* `operandArithmetic`     the arithmetic of an operator, if its operands fit.
-/

namespace PascalStack

inductive Conversion where
  | itof
  | ftoi
deriving DecidableEq, Repr

def Conversion.op : Conversion → Op String
  | itof => .basic .itof
  | ftoi => .basic .ftoi

/-- Integer and real are converted into each other; other types must agree, and arrays are never
assigned. -/
def assignConversion (target value : DataType) (place : Place) :
    Except SemanticError (Option Conversion) :=
  if target = value ∧ target ≠ .array then .ok none
  else
    match target, value with
    | .real, .integer => .ok (some .itof)
    | .integer, .real => .ok (some .ftoi)
    | _, _ => .error (.typeMismatch (.type target) (.type value) place)

def expectType (expected found : DataType) (place : Place) : Except SemanticError Unit :=
  if expected = found then .ok ()
  else .error (.typeMismatch (.type expected) (.type found) place)

/-- Conditions are boolean; an integer is taken as true unless it is zero. -/
def expectTruth (type : DataType) (place : Place) : Except SemanticError Unit :=
  match type with
  | .boolean | .integer => .ok ()
  | other => .error (.typeMismatch (.type .boolean) (.type other) place)

def expectNumeric (type : DataType) (place : Place) : Except SemanticError Unit :=
  if type.isNumeric then .ok () else .error (.typeMismatch .numeric (.type type) place)

inductive Arithmetic where
  | integer
  | real
deriving DecidableEq, Repr

/-- What it takes to use an operand of a type. -/
def Arithmetic.conversion : Arithmetic → DataType → Option Conversion
  | real, .integer => some .itof
  | _, _ => none

/-- The arithmetic of two numbers: real as soon as one of them is. -/
def numericArithmetic (left right : DataType) (place : Place) :
    Except SemanticError Arithmetic := do
  expectNumeric left place
  expectNumeric right place
  return if left = .real ∨ right = .real then .real else .integer

/-- Checks the operands of an operator. -/
def operandArithmetic (op : BinaryOp) (left right : DataType) :
    Except SemanticError Arithmetic :=
  let place := Place.operator op
  match op with
  | .and | .or => do
    expectTruth left place
    expectTruth right place
    return .integer
  | .integerDivide | .modulo => do
    expectType .integer left place
    expectType .integer right place
    return .integer
  | .add | .subtract | .multiply | .divide => numericArithmetic left right place
  | .equal | .notEqual =>
    if left.isNumeric && right.isNumeric then numericArithmetic left right place
    else if left = right ∧ left ≠ .array then .ok .integer
    else .error (.typeMismatch (.type left) (.type right) place)
  | .less | .greater | .lessEqual | .greaterEqual =>
    if left = .char ∧ right = .char then .ok .integer else numericArithmetic left right place
  | .member => .error (.unsupportedOperator op)

end PascalStack
