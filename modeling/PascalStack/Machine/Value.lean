import PascalStack.Number.Double

/-!
# Values and faults of the machine

* `Value`          what the stack and the global slots hold;
* `Value.isTrue`   the truth of a value;
* `Value.same`     equality of values, where numbers are compared as numbers;
* `Fault`          why a run or the loading of code stops, and `Fault.message` its text.
-/

namespace PascalStack

inductive Value where
  | integer (n : Int64)
  | real (x : Float)
  | string (s : String)
  | address (a : Nat)
deriving DecidableEq

inductive ValueKind where
  | integer | real | string | address
deriving DecidableEq, Repr

def ValueKind.name : ValueKind → String
  | integer => "inteiro"
  | real => "real"
  | string => "string"
  | address => "endereço"

namespace Value

def kind : Value → ValueKind
  | integer _ => .integer
  | real _ => .real
  | string _ => .string
  | address _ => .address

def text : Value → String
  | integer n => integerText n
  | real x => Double.plain x
  | string s => s
  | address a => "@" ++ naturalText a

/-- Zero and the empty string are false. -/
def isTrue : Value → Bool
  | integer n => n != 0
  | real x => x != 0
  | string s => !s.isEmpty
  | address _ => true

/-- Values of different kinds differ, but an integer may equal a real. -/
def same : Value → Value → Bool
  | integer m, integer n => m == n
  | integer m, real y => Double.ofInteger m == y
  | real x, integer n => Double.ofInteger n == x
  | real x, real y => x == y
  | string s, string t => s == t
  | address a, address b => a == b
  | _, _ => false

def ofBool (b : Bool) : Value := integer (if b then 1 else 0)

/-- The value of a slot that was never written. -/
def zero : Value := integer 0

end Value

/-- What is wrong with a value. -/
inductive TypeCause where
  | unexpected (wanted : ValueKind) (found : Value)
  | notCharacter (code : Int64)
  | notInteger (text : String)
  | notReal (text : String)
deriving DecidableEq

def TypeCause.text : TypeCause → String
  | unexpected wanted found =>
    "esperado " ++ wanted.name ++ ", encontrado " ++ found.kind.name ++ " (" ++ found.text ++ ")"
  | notCharacter code => integerText code ++ " não é um caractere"
  | notInteger text => "'" ++ text ++ "' não é um inteiro"
  | notReal text => "'" ++ text ++ "' não é um real"

inductive Fault where
  | unknownInstruction (name : String) (line : Nat)
  | malformedOperand (instruction operand : String)
  | unknownLabel (label : String)
  | stackUnderflow (instruction : String)
  | typeError (instruction : String) (cause : TypeCause)
  | divisionByZero
  | callStackUnderflow
  | invalidAddress (address : Int64)
  | stringIndex (index : Int64) (length : Nat)
  | stepLimit (limit : Nat)
  | unreadableInput
deriving DecidableEq

/-- The text for bytes that are not UTF-8. -/
def notUtf8 : String := "stream did not contain valid UTF-8"

def Fault.message : Fault → String
  | unknownInstruction name line =>
    "linha " ++ naturalText line ++ ": instrução desconhecida '" ++ name ++ "'"
  | malformedOperand instruction operand =>
    "operando inválido para " ++ instruction ++ ": '" ++ operand ++ "'"
  | unknownLabel label => "rótulo desconhecido '" ++ label ++ "'"
  | stackUnderflow instruction => "pilha vazia em " ++ instruction
  | typeError instruction cause => "erro de tipo em " ++ instruction ++ ": " ++ cause.text
  | divisionByZero => "divisão por zero"
  | callStackUnderflow => "return sem call correspondente"
  | invalidAddress address => "endereço global inválido " ++ integerText address
  | stringIndex index length =>
    "índice " ++ integerText index ++ " fora da string de tamanho " ++ naturalText length
  | stepLimit limit => "limite de " ++ naturalText limit ++ " passos excedido"
  | unreadableInput => notUtf8

end PascalStack
