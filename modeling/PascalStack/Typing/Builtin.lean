import PascalStack.Text.Fold
import PascalStack.Typing.DataType

/-!
# Predefined procedures and functions

* `Builtin`            the predefined names;
* `Builtin.ofName?`    looks a name up without regard to case;
* `Arity`              how many arguments one takes.
-/

namespace PascalStack

inductive Builtin where
  | write | writeln | read | readln | length | charat
deriving DecidableEq, Repr

/-- The numbers of arguments that are accepted. -/
inductive Arity where
  | exactly (n : Nat)
  | atMost (n : Nat)
  | any
deriving DecidableEq

def Arity.accepts : Arity → Nat → Bool
  | exactly n, count => count = n
  | atMost n, count => count ≤ n
  | any, _ => true

/-- The number named in a message about a wrong number of arguments. -/
def Arity.expected : Arity → Nat
  | exactly n => n
  | atMost n => n
  | any => 0

namespace Builtin

def all : List Builtin := [write, writeln, read, readln, length, charat]

def name : Builtin → String
  | write => "write" | writeln => "writeln" | read => "read" | readln => "readln"
  | length => "length" | charat => "charat"

def ofName? (name : String) : Option Builtin := all.find? fun b => b.name = foldAscii name

def arity : Builtin → Arity
  | write | writeln => .any
  | read => .exactly 1
  | readln => .atMost 1
  | length => .exactly 1
  | charat => .exactly 2

/-- The type of the result, for those that are functions. -/
def result? : Builtin → Option DataType
  | length => some .integer
  | charat => some .char
  | _ => none

def isFunction (b : Builtin) : Bool := b.result?.isSome

/-- The types of the arguments of a function. -/
def parameters : Builtin → List DataType
  | length => [.string]
  | charat => [.string, .integer]
  | _ => []

/-- The instructions after the arguments. -/
def epilogue : Builtin → List Basic
  | length => [.strlen]
  | charat => [.charat]
  | writeln => [.writeln]
  | read | readln => [.read]
  | write => []

end Builtin

end PascalStack
