import PascalStack.Code.Quoted
import PascalStack.Number.Double

/-!
# Instructions of the stack machine

* `Basic`        instructions without an operand;
* `Opcode`       the name of an instruction;
* `Op`           an instruction with its operand; jump targets have type `L`;
* `Op.text`      how an instruction is written;
* `Line`         a label or an instruction, and `Line.text` how it is written.
-/

namespace PascalStack

/-- Integer arithmetic. -/
inductive Arith where
  | add | sub | mul | div | mod
deriving DecidableEq, Repr

/-- Real arithmetic. -/
inductive RealArith where
  | add | sub | mul | div
deriving DecidableEq, Repr

/-- Comparisons of numbers. -/
inductive Order where
  | less | lessEqual | greater | greaterEqual
deriving DecidableEq, Repr

inductive Basic where
  | call | ret | start | stop | nop
  | arith (o : Arith)
  | realArith (o : RealArith)
  | order (o : Order)
  | realOrder (o : Order)
  | itof | ftoi | equal | not | and | or
  | writei | writef | writes | writechr | writeln
  | read | atoi | atof | strlen | charat
deriving DecidableEq, Repr

inductive Opcode where
  | pushi | pushf | pushs | pushn | pushg | pusha | storeg | load | pop | dup | jump | jz
  | basic (b : Basic)
deriving DecidableEq, Repr

inductive Op (L : Type) where
  | pushi (n : Int64)
  | pushf (x : Float)
  | pushs (s : String)
  | pushn (count : Nat)
  | pushg (slot : Option Nat)
  | pusha (target : L)
  | storeg (slot : Option Nat)
  | load (offset : Nat)
  | pop (count : Nat)
  | dup (count : Nat)
  | jump (target : L)
  | jz (target : L)
  | basic (b : Basic)
deriving DecidableEq

def Arith.name : Arith → String
  | add => "add" | sub => "sub" | mul => "mul" | div => "div" | mod => "mod"

def RealArith.name : RealArith → String
  | add => "fadd" | sub => "fsub" | mul => "fmul" | div => "fdiv"

def Order.name : Order → String
  | less => "inf" | lessEqual => "infeq" | greater => "sup" | greaterEqual => "supeq"

def Order.realName : Order → String
  | less => "finf" | lessEqual => "finfeq" | greater => "fsup" | greaterEqual => "fsupeq"

def Basic.name : Basic → String
  | call => "call" | ret => "return" | start => "start" | stop => "stop" | nop => "nop"
  | arith o => o.name
  | realArith o => o.name
  | order o => o.name
  | realOrder o => o.realName
  | itof => "itof" | ftoi => "ftoi" | equal => "equal" | not => "not" | and => "and" | or => "or"
  | writei => "writei" | writef => "writef" | writes => "writes" | writechr => "writechr"
  | writeln => "writeln" | read => "read" | atoi => "atoi" | atof => "atof"
  | strlen => "strlen" | charat => "charat"

def Opcode.name : Opcode → String
  | pushi => "pushi" | pushf => "pushf" | pushs => "pushs" | pushn => "pushn" | pushg => "pushg"
  | pusha => "pusha" | storeg => "storeg" | load => "load" | pop => "pop" | dup => "dup"
  | jump => "jump" | jz => "jz"
  | basic b => b.name

def Basic.all : List Basic :=
  [call, ret, start, stop, nop,
   arith .add, arith .sub, arith .mul, arith .div, arith .mod,
   realArith .add, realArith .sub, realArith .mul, realArith .div,
   itof, ftoi, equal, not,
   order .less, order .lessEqual, order .greater, order .greaterEqual,
   realOrder .less, realOrder .lessEqual, realOrder .greater, realOrder .greaterEqual,
   and, or, writei, writef, writes, writechr, writeln, read, atoi, atof, strlen, charat]

def Opcode.all : List Opcode :=
  [pushi, pushf, pushs, pushn, pushg, pusha, storeg, load, pop, dup, jump, jz]
    ++ Basic.all.map basic

/-- The instruction of a name. -/
def Opcode.ofName? (name : String) : Option Opcode := Opcode.all.find? fun o => o.name = name

section
variable {L : Type}

def Op.opcode : Op L → Opcode
  | pushi _ => .pushi
  | pushf _ => .pushf
  | pushs _ => .pushs
  | pushn _ => .pushn
  | pushg _ => .pushg
  | pusha _ => .pusha
  | storeg _ => .storeg
  | load _ => .load
  | pop _ => .pop
  | dup _ => .dup
  | jump _ => .jump
  | jz _ => .jz
  | basic b => .basic b

def Op.name (op : Op L) : String := op.opcode.name

end

/-- The operand of an instruction as it is written. -/
def Op.operand : Op String → Option String
  | pushi n => some (integerText n)
  | pushf x => some (Double.literal x)
  | pushs s => some (Code.quote s)
  | pushn count => some (naturalText count)
  | pushg slot => slot.map naturalText
  | pusha target => some target
  | storeg slot => slot.map naturalText
  | load offset => some (naturalText offset)
  | pop count => some (naturalText count)
  | dup count => some (naturalText count)
  | jump target => some target
  | jz target => some target
  | basic _ => none

def Op.text (op : Op String) : String :=
  match op.operand with
  | some operand => op.name ++ " " ++ operand
  | none => op.name

/-- A line of code; a label names the instruction after it. -/
inductive Line where
  | label (name : String)
  | op (o : Op String)
deriving DecidableEq

def Line.text : Line → String
  | label name => name ++ ":"
  | op o => o.text

end PascalStack
