import PascalStack.Code.Op
import PascalStack.Tree.Basic

/-!
# Data types

* `DataType`           the types that values of expressions have;
* `DataType.initial`   the instruction that gives a new variable its value;
* `DataType.write?`, `DataType.read?`   the instructions that write and read a value;
* `Constant.type`, `Constant.push`   the type of a constant and the instruction that pushes it.
-/

namespace PascalStack

inductive DataType where
  | integer | real | boolean | string | char | array
deriving DecidableEq, Repr

namespace DataType

def all : List DataType := [integer, real, boolean, string, char, array]

def name : DataType → String
  | integer => "integer" | real => "real" | boolean => "boolean"
  | string => "string" | char => "char" | array => "array"

/-- The name of a type inside the text of a signature. -/
def caseName : DataType → String
  | integer => "Integer" | real => "Real" | boolean => "Boolean"
  | string => "String" | char => "Char" | array => "Array"

def isNumeric : DataType → Bool
  | integer | real => true
  | _ => false

/-- The type of a variable that is not an array. -/
def ofScalar? : TypeDenoter → Option DataType
  | .real => some real
  | .integer => some integer
  | .boolean => some boolean
  | .string => some string
  | .char => some char
  | .array _ _ _ => none

/-- Pushes the value of a variable before its first assignment. -/
def initial : DataType → Op String
  | real => .pushf 0
  | string => .pushs ""
  | _ => .pushi 0

/-- Writes the value on top of the stack; arrays cannot be written. -/
def write? : DataType → Option Basic
  | integer | boolean => some .writei
  | real => some .writef
  | string => some .writes
  | char => some .writechr
  | array => none

/-- Turns a line that was read into a value; arrays cannot be read. -/
def read? : DataType → Option (List (Op String))
  | integer | boolean => some [.basic .atoi]
  | real => some [.basic .atof]
  | string => some []
  | char => some [.pushi 0, .basic .charat]
  | array => none

end DataType

def Constant.type : Constant → DataType
  | .integer _ => .integer
  | .real _ => .real
  | .char _ => .char
  | .string _ => .string
  | .nil => .integer

/-- A character is pushed as its code, and `nil` as zero. -/
def Constant.push : Constant → Op String
  | .integer n => .pushi n
  | .real x => .pushf x
  | .char c => .pushi (Int64.ofNat c.toNat)
  | .string s => .pushs s
  | .nil => .pushi 0

end PascalStack
