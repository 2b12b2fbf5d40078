import PascalStack.Token.Basic
import PascalStack.Tree.Basic

/-!
# Symbols of the grammar

* `Nonterminal`    the phrases of the language;
* `Symbol`         a terminal, a phrase, or the mark of a repaired error;
* `Symbol.Value`   what the parser keeps for a symbol it has recognised;
* `SyntaxError`, `Recovery`   an unexpected token, and the repair made for it.
-/

namespace PascalStack

inductive Nonterminal where
  | program | programHeading | identifier | identifierList | block
  | functionPart | functionList | functionDecl | directive | heading | functionName
  | parameterSections | parameterSection | variablePart | variableList | varDecl
  | typeDenoter | arrayType
  | compound | sequence | item | statement | openStatement | closedStatement
  | forHead | direction | assignment | procedureCall | access
  | exprList | parameters | argumentList | argument
  | expr | simpleExpr | term | factor | power | primary | constant | functionCall
  | setConstructor | memberList | member
  | sign | relationalOp | addingOp | multiplyingOp
deriving DecidableEq, Repr

/-- A `for` statement before its body. -/
structure ForHead where
  control : String
  initial : Expr
  direction : Direction
  final : Expr

def ForHead.withBody (h : ForHead) (body : Stmt) : Stmt :=
  .forDo h.control h.initial h.direction h.final body

/-- A token that cannot stand where it does, or the end of the text: `position` counts the tokens
before it, and `expected` are the terminals that could have stood there. -/
structure SyntaxError where
  position : Nat
  line : Nat
  token : Option Token
  expected : List Terminal
deriving DecidableEq

/-- An error, and the tokens passed over until parsing could go on. -/
structure Recovery where
  error : SyntaxError
  dropped : List Lexeme
deriving DecidableEq

inductive Symbol where
  | terminal (t : Terminal)
  | nonterminal (n : Nonterminal)
  | error
deriving DecidableEq

/-- What a token carries besides its terminal. -/
abbrev Terminal.Value : Terminal → Type
  | .identifier => String
  | .integer => Int64
  | .real => Float
  | .string => String
  | .keyword _ => Unit
  | .punct _ => Unit

abbrev Nonterminal.Value : Nonterminal → Type
  | .program => Program
  | .programHeading => String × List String
  | .identifier => String
  | .identifierList => List String
  | .block => Block
  | .functionPart => List FunctionDecl
  | .functionList => List FunctionDecl
  | .functionDecl => FunctionDecl
  | .directive => Directive
  | .heading => Heading
  | .functionName => String
  | .parameterSections => List ParameterSection
  | .parameterSection => ParameterSection
  | .variablePart => List VarDecl
  | .variableList => List VarDecl
  | .varDecl => VarDecl
  | .typeDenoter => TypeDenoter
  | .arrayType => TypeDenoter
  | .compound => List Stmt
  | .sequence => List Stmt
  | .item => Option Stmt
  | .statement => Stmt
  | .openStatement => Stmt
  | .closedStatement => Stmt
  | .forHead => ForHead
  | .direction => Direction
  | .assignment => Stmt
  | .procedureCall => Stmt
  | .access => Access
  | .exprList => List Expr
  | .parameters => List Argument
  | .argumentList => List Argument
  | .argument => Argument
  | .expr => Expr
  | .simpleExpr => Expr
  | .term => Expr
  | .factor => Expr
  | .power => Expr
  | .primary => Expr
  | .constant => Constant
  | .functionCall => Expr
  | .setConstructor => List Member
  | .memberList => List Member
  | .member => Member
  | .sign => Sign
  | .relationalOp => BinaryOp
  | .addingOp => BinaryOp
  | .multiplyingOp => BinaryOp

abbrev Symbol.Value : Symbol → Type
  | .terminal t => t.Value
  | .nonterminal n => n.Value
  | .error => Recovery

/-- The contents of a token, as the value of its terminal. -/
def Token.value : (t : Token) → t.terminal.Value
  | .keyword _ => ()
  | .identifier name => name
  | .integer n => n
  | .real x => x
  | .string s => s
  | .punct _ => ()

end PascalStack
