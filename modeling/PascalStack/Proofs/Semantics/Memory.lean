import PascalStack.Machine.Run
import PascalStack.Typing.Infer

/-!
# Memory, and what operations do to values

An evaluation of a tree works on a memory and never on a stack.  Its operations follow the rules of the
machine, down to the faults.

* `Memory`             the slots, the input left and the output;
* `Event`, `Watch`     what an evaluation can be watched for;
* `Eval`               computations on a memory; they may fault, or be cut off unfinished;
* `Basic.unary`, `Basic.binary`, `Basic.written`   what instructions make of values;
* `BinaryOp.apply`, `Sign.apply`, `powerOf`        the operators of the language;
* `Eval.loadSlot`, `Eval.storeSlot`, `Eval.readLine`       access to the memory.
-/

namespace PascalStack

/-- Every slot has a value; the ones never written hold zero. -/
structure Memory where
  slots : Nat → Value
  input : List UInt8
  output : String

def Memory.initial (input : List UInt8) : Memory := ⟨fun _ => .zero, input, ""⟩

def Memory.set (m : Memory) (slot : Nat) (v : Value) : Memory :=
  { m with slots := fun i => if i = slot then v else m.slots i }

/-- What an evaluation can be watched for: the value of a slot that is read, the index of an element of
an array of a function or of a global one, and the value of an expression of a type. -/
inductive Event where
  | read (slot : Nat) (v : Value)
  | element (function : Option String) (array : String) (index : Value)
  | value (type : DataType) (v : Value)

/-- Says of each event whether the evaluation may go on. -/
abbrev Watch := Event → Bool

def Watch.off : Watch := fun _ => true

/-- Why an evaluation stops early: a fault, because it was only allowed so many turns, or because of an
event that is watched for. -/
inductive Halt where
  | fault (f : Fault)
  | unfinished
  | stopped (e : Event)

abbrev Eval := EStateM Halt Memory

/-! ## values as numbers and texts -/

namespace Value

def toInteger (instruction : String) : Value → Except Fault Int64
  | integer n => .ok n
  | v => .error (.typeError instruction (.unexpected .integer v))

/-- An integer counts as a real. -/
def toReal (instruction : String) : Value → Except Fault Float
  | real x => .ok x
  | integer n => .ok (Double.ofInteger n)
  | v => .error (.typeError instruction (.unexpected .real v))

def toText (instruction : String) : Value → Except Fault String
  | string s => .ok s
  | v => .error (.typeError instruction (.unexpected .string v))

def toSlot (instruction : String) (v : Value) : Except Fault Nat := do
  let n ← v.toInteger instruction
  if 0 ≤ n.toInt ∧ n.toInt < maxGlobals then return n.toInt.toNat
  else throw (.invalidAddress n)

end Value

/-! ## instructions on values -/

/-- An instruction that takes one value to another. -/
@[simp] def Basic.unary (b : Basic) (v : Value) : Except Fault Value :=
  match b with
  | .itof => do return .real (← v.toReal b.name)
  | .ftoi => do return .integer (Double.truncate (← v.toReal b.name))
  | .not => return .ofBool (!v.isTrue)
  | .atoi => do
    let text ← v.toText b.name
    match signed? (Text.trim text.toList) with
    | some n => return .integer n
    | none => throw (.typeError b.name (.notInteger text))
  | .atof => do
    let text ← v.toText b.name
    match Double.read? (Text.trim text.toList) with
    | some x => return .real x
    | none => throw (.typeError b.name (.notReal text))
  | .strlen => do return .integer (Int64.ofNat (← v.toText b.name).length)
  | _ => return v

/-- An instruction that takes two values to one.  The right one is looked at first. -/
@[simp] def Basic.binary (b : Basic) (left right : Value) : Except Fault Value :=
  match b with
  | .arith o => do
    let r ← right.toInteger b.name
    let l ← left.toInteger b.name
    return .integer (← o.eval l r)
  | .realArith o => do
    let r ← right.toReal b.name
    let l ← left.toReal b.name
    return .real (← o.eval l r)
  | .order o => do
    let r ← right.toInteger b.name
    let l ← left.toInteger b.name
    return .ofBool (o.holds l r)
  | .realOrder o => do
    let r ← right.toReal b.name
    let l ← left.toReal b.name
    return .ofBool (o.realHolds l r)
  | .equal => return .ofBool (left.same right)
  | .and => return .ofBool (left.isTrue && right.isTrue)
  | .or => return .ofBool (left.isTrue || right.isTrue)
  | .charat => do
    let index ← right.toInteger b.name
    let text ← left.toText b.name
    match charAt? text index with
    | some c => return .integer (Int64.ofNat c.toNat)
    | none => throw (.stringIndex index text.length)
  | _ => return left

def Basic.written (b : Basic) (v : Value) : Except Fault String :=
  match b with
  | .writei => do return integerText (← v.toInteger b.name)
  | .writef => do return Double.plain (← v.toReal b.name)
  | .writes => v.toText b.name
  | .writechr => do
    let code ← v.toInteger b.name
    match character? code with
    | some c => return String.singleton c
    | none => throw (.typeError b.name (.notCharacter code))
  | _ => return ""

/-! ## the operators of the language -/

/-- Sums, differences, products and quotients. -/
def calculate (o : Arith) (p : RealArith) : Arithmetic → Value → Value → Except Fault Value
  | .integer => (Basic.arith o).binary
  | .real => (Basic.realArith p).binary

def compare (o : Order) : Arithmetic → Value → Value → Except Fault Value
  | .integer => (Basic.order o).binary
  | .real => (Basic.realOrder o).binary

/-- The value of an operator.  Both operands of `and` and `or` have been evaluated. -/
def BinaryOp.apply (op : BinaryOp) (a : Arithmetic) (left right : Value) : Except Fault Value :=
  match op with
  | .add => calculate .add .add a left right
  | .subtract => calculate .sub .sub a left right
  | .multiply => calculate .mul .mul a left right
  | .divide => calculate .div .div a left right
  | .integerDivide => calculate .div .div a left right
  | .modulo => (Basic.arith .mod).binary left right
  | .less => compare .less a left right
  | .lessEqual => compare .lessEqual a left right
  | .greater => compare .greater a left right
  | .greaterEqual => compare .greaterEqual a left right
  | .equal => .ok (.ofBool (left.same right))
  | .notEqual => .ok (.ofBool (!left.same right))
  | .and => .ok (.ofBool (left.isTrue && right.isTrue))
  | .or => .ok (.ofBool (left.isTrue || right.isTrue))
  | .member => .ok .zero

def product (type : DataType) : Value → Value → Except Fault Value :=
  calculate .mul .mul (if type = .real then .real else .integer)

def Sign.apply (sign : Sign) (type : DataType) (v : Value) : Except Fault Value :=
  match sign with
  | .plus => .ok v
  | .minus => product type v (if type = .real then .real (-1) else .integer (-1))

def unit (type : DataType) : Value := if type = .real then .real 1 else .integer 1

/-- The power `n + 1` of a value, multiplied by it from the left each time. -/
def powerOf (type : DataType) (v : Value) : Nat → Except Fault Value
  | 0 => .ok v
  | n + 1 => do product type v (← powerOf type v n)

/-- The conversion of a value of one type for a place of another. -/
def conversionTo : (target value : DataType) → Option Conversion
  | .real, .integer => some .itof
  | .integer, .real => some .ftoi
  | _, _ => none

def Conversion.apply : Option Conversion → Value → Except Fault Value
  | none, v => .ok v
  | some .itof, v => Basic.itof.unary v
  | some .ftoi, v => Basic.ftoi.unary v

def Builtin.apply : Builtin → List Value → Except Fault Value
  | .length, [text] => Basic.strlen.unary text
  | .charat, [text, index] => Basic.charat.binary text index
  | _, _ => .ok .zero

def DataType.reading (type : DataType) (line : Value) : Except Fault Value :=
  match type with
  | .integer | .boolean => Basic.atoi.unary line
  | .real => Basic.atof.unary line
  | .char => Basic.charat.binary line (.integer 0)
  | .string | .array => .ok line

def DataType.writing (type : DataType) (v : Value) : Except Fault String :=
  match type with
  | .integer | .boolean => Basic.writei.written v
  | .real => Basic.writef.written v
  | .string => Basic.writes.written v
  | .char => Basic.writechr.written v
  | .array => .ok ""

def DataType.initialValue : DataType → Value
  | .real => .real 0
  | .string => .string ""
  | _ => .integer 0

def Constant.value : Constant → Value
  | .integer n => .integer n
  | .real x => .real x
  | .char c => .integer (Int64.ofNat c.toNat)
  | .string s => .string s
  | .nil => .integer 0

def Variable.address (a : Variable) (index : Value) : Except Fault Value := do
  let distance ← (Basic.arith .sub).binary index (.integer a.low)
  (Basic.arith .add).binary distance (.integer (Int64.ofNat a.slot))

/-- The slot of an element of an array; `instruction` is the one that uses it. -/
def Variable.elementSlot (a : Variable) (instruction : String) (index : Value) :
    Except Fault Nat := do
  (← a.address index).toSlot instruction

/-- A character of a text; positions are counted from 1. -/
def characterAt (text position : Value) : Except Fault Value := do
  Basic.charat.binary text (← (Basic.arith .sub).binary position (.integer 1))

/-! ## access to the memory -/

namespace Eval

def lift {α : Type} (e : Except Fault α) : Eval α :=
  match e with
  | .ok a => pure a
  | .error f => throw (.fault f)

def checkSlot (slot : Nat) : Eval Unit :=
  if slot < maxGlobals then pure () else throw (.fault (.invalidAddress (Exec.slotNumber slot)))

def note (w : Watch) (e : Event) : Eval Unit := if w e then pure () else throw (.stopped e)

def loadSlot (w : Watch) (slot : Nat) : Eval Value := do
  checkSlot slot
  let v := (← get).slots slot
  note w (.read slot v)
  return v

def storeSlot (slot : Nat) (v : Value) : Eval Unit := do
  checkSlot slot
  modify fun m => m.set slot v

/-- The value of an expression of a type. -/
def typed (w : Watch) (type : DataType) (value : Eval Value) : Eval Value := do
  let v ← value
  note w (.value type v)
  return v

def write (text : String) : Eval Unit := modify fun m => { m with output := m.output ++ text }

/-- Takes a line off the input, also if its bytes are no text. -/
def readLine : Eval Value := do
  let (line, rest) := splitLine (← get).input
  modify fun m => { m with input := rest }
  match String.fromUTF8? line.toByteArray with
  | some text => return .string (chomp text)
  | none => throw (.fault .unreadableInput)

end Eval

end PascalStack
