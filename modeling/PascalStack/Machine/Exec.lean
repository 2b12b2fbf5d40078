import PascalStack.Machine.State

/-!
# Running instructions

* `Arith.eval`, `Order.holds`, ...   what the operations compute;
* `Exec.readLine`   takes a line of the input;
* `Basic.exec`      runs an instruction without an operand;
* `Op.exec`         runs an instruction at a position and says where to go on.
-/

namespace PascalStack

/-- Where to go on after an instruction. -/
inductive Flow where
  | goto (position : Nat)
  | stop
deriving DecidableEq, Repr

def Arith.eval : Arith → Int64 → Int64 → Except Fault Int64
  | add, a, b => .ok (a + b)
  | sub, a, b => .ok (a - b)
  | mul, a, b => .ok (a * b)
  | div, a, b => if overflows a b then .error .divisionByZero else .ok (a / b)
  | mod, a, b => if overflows a b then .error .divisionByZero else .ok (a % b)
where
  /-- The quotient is no machine integer. -/
  overflows (a b : Int64) : Bool := b = 0 || (a = Int64.minValue && b = -1)

def RealArith.eval : RealArith → Float → Float → Except Fault Float
  | add, a, b => .ok (a + b)
  | sub, a, b => .ok (a - b)
  | mul, a, b => .ok (a * b)
  | div, a, b => if b == 0 then .error .divisionByZero else .ok (a / b)

def Order.holds : Order → Int64 → Int64 → Bool
  | less, a, b => a < b
  | lessEqual, a, b => a ≤ b
  | greater, a, b => b < a
  | greaterEqual, a, b => b ≤ a

def Order.realHolds : Order → Float → Float → Bool
  | less, a, b => a < b
  | lessEqual, a, b => a ≤ b
  | greater, a, b => b < a
  | greaterEqual, a, b => b ≤ a

/-- The character of a code, if it has one. -/
def character? (code : Int64) : Option Char :=
  if 0 ≤ code.toInt ∧ code.toInt.toNat.isValidChar then some (Char.ofNat code.toInt.toNat) else none

/-- The character at an index counted from 0. -/
def charAt? (text : String) (index : Int64) : Option Char :=
  if 0 ≤ index.toInt then text.toList[index.toInt.toNat]? else none

/-- A line without the line feeds and carriage returns at its end. -/
def chomp (line : String) : String :=
  String.ofList (line.toList.reverse.dropWhile fun c => c = '\n' || c = '\r').reverse

/-- The bytes up to the first line feed and with it, and the bytes after it. -/
def splitLine (bytes : List UInt8) : List UInt8 × List UInt8 :=
  let line := bytes.takeWhile (· != 10)
  let rest := bytes.dropWhile (· != 10)
  (line ++ rest.take 1, rest.drop 1)

namespace Exec

/-- A result as a step of a run. -/
def checked {α : Type} (e : Except Fault α) : Exec α :=
  match e with
  | .ok a => pure a
  | .error f => throw f

/-- Reads a line of the input; at its end this is the empty text. -/
def readLine : Exec String := do
  let (line, rest) := splitLine (← get).input
  modify fun s => { s with input := rest }
  match String.fromUTF8? line.toByteArray with
  | some text => return chomp text
  | none => throw .unreadableInput

def branch (condition : Bool) (target position : Nat) : Flow :=
  .goto (if condition then target else position + 1)

/-- The slot of an instruction, or the one on the stack. -/
def slotOr (slot : Option Nat) (instruction : String) : Exec Nat :=
  match slot with
  | some n => return n
  | none => popSlot instruction

end Exec

open Exec

/-- Runs an instruction that goes on with the next one. -/
def Basic.execPlain (b : Basic) : Exec Unit :=
  match b with
  | .call | .ret | .start | .stop | .nop => return
  | .arith o => do
    let right ← popInteger b.name
    let left ← popInteger b.name
    push (.integer (← checked (o.eval left right)))
  | .realArith o => do
    let right ← popReal b.name
    let left ← popReal b.name
    push (.real (← checked (o.eval left right)))
  | .order o => do
    let right ← popInteger b.name
    let left ← popInteger b.name
    push (.ofBool (o.holds left right))
  | .realOrder o => do
    let right ← popReal b.name
    let left ← popReal b.name
    push (.ofBool (o.realHolds left right))
  | .itof => do push (.real (← popReal b.name))
  | .ftoi => do push (.integer (Double.truncate (← popReal b.name)))
  | .equal => do
    let right ← pop b.name
    let left ← pop b.name
    push (.ofBool (left.same right))
  | .not => do push (.ofBool (!(← pop b.name).isTrue))
  | .and => do
    let right ← pop b.name
    let left ← pop b.name
    push (.ofBool (left.isTrue && right.isTrue))
  | .or => do
    let right ← pop b.name
    let left ← pop b.name
    push (.ofBool (left.isTrue || right.isTrue))
  | .writei => do write (integerText (← popInteger b.name))
  | .writef => do write (Double.plain (← popReal b.name))
  | .writes => do write (← popString b.name)
  | .writechr => do
    let code ← popInteger b.name
    match character? code with
    | some c => write (String.singleton c)
    | none => throw (.typeError b.name (.notCharacter code))
  | .writeln => write "\n"
  | .read => do push (.string (← readLine))
  | .atoi => do
    let text ← popString b.name
    match signed? (Text.trim text.toList) with
    | some n => push (.integer n)
    | none => throw (.typeError b.name (.notInteger text))
  | .atof => do
    let text ← popString b.name
    match Double.read? (Text.trim text.toList) with
    | some x => push (.real x)
    | none => throw (.typeError b.name (.notReal text))
  | .strlen => do push (.integer (Int64.ofNat (← popString b.name).length))
  | .charat => do
    let index ← popInteger b.name
    let text ← popString b.name
    match charAt? text index with
    | some c => push (.integer (Int64.ofNat c.toNat))
    | none => throw (.stringIndex index text.length)

/-- Runs an instruction without an operand. -/
def Basic.exec (b : Basic) (position : Nat) : Exec Flow :=
  match b with
  | .call => do
    let target ← popAddress b.name
    modify fun s => { s with calls := (position + 1) :: s.calls }
    return .goto target
  | .ret => do
    match (← get).calls with
    | back :: rest =>
      modify fun s => { s with calls := rest }
      return .goto back
    | [] => throw .callStackUnderflow
  | .stop => return .stop
  | _ => do
    b.execPlain
    return .goto (position + 1)

/-- Runs an instruction at a position. -/
def Op.exec (op : Op Nat) (position : Nat) : Exec Flow :=
  match op with
  | .pushi n => do push (.integer n); return .goto (position + 1)
  | .pushf x => do push (.real x); return .goto (position + 1)
  | .pushs s => do push (.string s); return .goto (position + 1)
  | .pushn count => do
    modify fun s => { s with stack := List.replicate count .zero ++ s.stack }
    return .goto (position + 1)
  | .pushg slot => do
    push (← loadGlobal (← slotOr slot op.name))
    return .goto (position + 1)
  | .pusha target => do push (.address target); return .goto (position + 1)
  | .storeg slot => do
    let slot ← slotOr slot op.name
    let v ← Exec.pop op.name
    storeGlobal slot v
    return .goto (position + 1)
  | .load offset => do
    let base ← popSlot op.name
    push (← loadGlobal (base + offset))
    return .goto (position + 1)
  | .pop count => do discard count op.name; return .goto (position + 1)
  | .dup count => do duplicate count op.name; return .goto (position + 1)
  | .jump target => return .goto target
  | .jz target => do
    let v ← Exec.pop op.name
    return branch (!v.isTrue) target position
  | .basic b => b.exec position

end PascalStack
