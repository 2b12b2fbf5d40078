import PascalStack.Number.Integer

/-!
# Program trees

What a source text says, without its spelling.

* `Expr`, `Access`, `Argument`, `Member`   expressions and their parts;
* `Stmt`                                   statements;
* `TypeDenoter`, `VarDecl`, `Heading`, `FunctionDecl`, `Block`  declarations;
* `Program`                                a whole program;
* `Expr.constant?`                         the value of an integer constant with signs.
-/

namespace PascalStack

inductive BinaryOp where
  | equal | notEqual | less | greater | lessEqual | greaterEqual | member
  | add | subtract | or
  | multiply | divide | integerDivide | modulo | and
deriving DecidableEq, Repr

namespace BinaryOp

def all : List BinaryOp :=
  [.equal, .notEqual, .less, .greater, .lessEqual, .greaterEqual, .member,
   .add, .subtract, .or, .multiply, .divide, .integerDivide, .modulo, .and]

def symbol : BinaryOp → String
  | equal => "=" | notEqual => "<>" | less => "<" | greater => ">"
  | lessEqual => "<=" | greaterEqual => ">=" | member => "in"
  | add => "+" | subtract => "-" | or => "or"
  | multiply => "*" | divide => "/" | integerDivide => "div" | modulo => "mod" | and => "and"

def isRelational : BinaryOp → Bool
  | equal | notEqual | less | greater | lessEqual | greaterEqual | member => true
  | _ => false

def isLogical : BinaryOp → Bool
  | and | or => true
  | _ => false

end BinaryOp

inductive Sign where
  | plus
  | minus
deriving DecidableEq, Repr

def Sign.symbol : Sign → String
  | plus => "+"
  | minus => "-"

inductive Direction where
  | to
  | downto
deriving DecidableEq, Repr

inductive Constant where
  | integer (n : Int64)
  | real (x : Float)
  | char (c : Char)
  | string (s : String)
  | nil
deriving DecidableEq

/-- A string literal of one character is a character. -/
def Constant.ofLiteral (s : String) : Constant :=
  match s.toList with
  | [c] => .char c
  | _ => .string s

mutual

inductive Expr where
  | access (a : Access)
  | call (name : String) (arguments : List Argument)
  | binary (op : BinaryOp) (left right : Expr)
  | signed (sign : Sign) (operand : Expr)
  | power (base exponent : Expr)
  | not (operand : Expr)
  | constant (c : Constant)
  | set (members : List Member)

/-- A variable, or a part of one. -/
inductive Access where
  | name (id : String)
  | index (base : Access) (indices : List Expr)
  | field (base : Access) (name : String)
  | deref (base : Access)

/-- An argument of a call; `wide` and `precise` carry the widths of a formatted value. -/
inductive Argument where
  | value (e : Expr)
  | wide (e width : Expr)
  | precise (e width precision : Expr)

/-- An element of a set, or a range of elements. -/
inductive Member where
  | single (e : Expr)
  | range (low high : Expr)

end

instance : Inhabited Expr := ⟨.constant .nil⟩
instance : Inhabited Access := ⟨.name ""⟩

/-- The value written, without its widths. -/
def Argument.expr : Argument → Expr
  | .value e => e
  | .wide e _ => e
  | .precise e _ _ => e

/-- The variable at the root of an access: `v` in `v[i].f^`. -/
def Access.root : Access → String
  | .name id => id
  | .index base _ => base.root
  | .field base _ => base.root
  | .deref base => base.root

/-- An integer constant under any number of signs; the result must fit the machine. -/
def Expr.constant? : Expr → Option Int64
  | .constant (.integer n) => some n
  | .signed .plus e => e.constant?
  | .signed .minus e => e.constant?.bind fun n => machineInteger? (-n.toInt)
  | _ => none

inductive Stmt where
  | compound (body : List Stmt)
  | assign (target : Access) (value : Expr)
  | ifThen (condition : Expr) (thenBranch : Stmt)
  | ifThenElse (condition : Expr) (thenBranch elseBranch : Stmt)
  | whileDo (condition : Expr) (body : Stmt)
  | forDo (control : String) (initial : Expr) (direction : Direction) (final : Expr) (body : Stmt)
  | call (name : String) (arguments : List Argument)

instance : Inhabited Stmt := ⟨.compound []⟩

/-- The statement of no text at all. -/
def Stmt.empty : Stmt := .compound []

mutual

/-- Whether a statement consists of nothing but empty compounds. -/
def Stmt.isEmpty : Stmt → Bool
  | .compound body => allEmpty body
  | _ => false

def allEmpty : List Stmt → Bool
  | [] => true
  | s :: ss => s.isEmpty && allEmpty ss

end

inductive TypeDenoter where
  | real
  | integer
  | boolean
  | string
  | char
  | array (low high : Expr) (element : TypeDenoter)

instance : Inhabited TypeDenoter := ⟨.integer⟩

/-- A group of variables of one type. -/
structure VarDecl where
  names : List String
  type : TypeDenoter
deriving Inhabited

/-- A group of parameters: passed by value, by reference, or a function as a parameter. -/
inductive ParameterSection where
  | value (names : List String) (type : TypeDenoter)
  | reference (names : List String) (type : TypeDenoter)
  | function (name : String) (parameters : List ParameterSection) (result : TypeDenoter)

/-- The name, parameters and result type of a function. -/
structure Heading where
  name : String
  parameters : List ParameterSection
  result : TypeDenoter

def ParameterSection.count : ParameterSection → Nat
  | .value names _ => names.length
  | .reference names _ => names.length
  | .function _ _ _ => 1

def Heading.parameterCount (h : Heading) : Nat :=
  h.parameters.foldr (fun p n => p.count + n) 0

inductive Directive where
  | forward
  | external
deriving DecidableEq, Repr

mutual

/-- Declarations and statements of a program or of a function. -/
inductive Block where
  | mk (functions : List FunctionDecl) (declarations : List VarDecl) (statements : List Stmt)

/-- A function with its body, a heading without a body, or a body for an earlier heading. -/
inductive FunctionDecl where
  | definition (heading : Heading) (block : Block)
  | directive (heading : Heading) (d : Directive)
  | body (name : String) (block : Block)

end

instance : Inhabited Block := ⟨.mk [] [] []⟩

namespace Block

def functions : Block → List FunctionDecl
  | mk functions _ _ => functions

def declarations : Block → List VarDecl
  | mk _ declarations _ => declarations

def statements : Block → List Stmt
  | mk _ _ statements => statements

end Block

def FunctionDecl.name : FunctionDecl → String
  | .definition heading _ => heading.name
  | .directive heading _ => heading.name
  | .body name _ => name

structure Program where
  name : String
  parameters : List String
  block : Block
deriving Inhabited

end PascalStack
