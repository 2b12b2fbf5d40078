import PascalStack.Typing.Builtin

/-!
# Why a program is rejected

* `SemanticError`          the causes;
* `SemanticError.message`  their texts.
-/

namespace PascalStack

/-- What a name was looked up as. -/
inductive NameKind where
  | variable | function | procedure
deriving DecidableEq, Repr

/-- What was wanted or found where types disagree. -/
inductive TypeView where
  | type (t : DataType)
  | numeric
  | scalar
  | signature (parameters : List DataType) (result : DataType)
deriving DecidableEq, Repr

/-- Where types disagree. -/
inductive Place where
  | operator (op : BinaryOp)
  | argument (position : Nat) (function : String)
  | assignment (name : String)
  | elementAssignment (name : String)
  | definition (name : String)
  | builtin (b : Builtin)
  | sign | powerBase | negation | stringIndex | arrayIndex | ifCondition | whileCondition
  | controlVariable | initialValue | finalValue | writeWidth | writePrecision
  | named (text : String)
deriving DecidableEq, Repr

/-- A part of the language for which there is no code. -/
inductive Construct where
  | recordField | pointer | multidimensional | procedureAsFunction (b : Builtin)
  | functionNamedMain | arrayResult | nestedFunction | functionalParameter | arrayParameter
  | arrayOfArrays | exponent (n : Int64) | formattedArgument | arrayValue
  | fieldAssignment | pointerAssignment | stringElement | readTarget | arrayRead
  | readFieldOrPointer
deriving DecidableEq

/-- A bound of an array. -/
inductive BoundSide where
  | lower | upper
deriving DecidableEq, Repr

inductive SemanticError where
  | undeclared (kind : NameKind) (name : String)
  | arityMismatch (name : String) (expected found : Nat)
  | typeMismatch (expected found : TypeView) (place : Place)
  | notAnArray (name : String)
  | nonConstant (side : BoundSide) (array : String)
  | invalidBounds (name : String) (low high : Int64)
  | dynamicExponent
  | unsupportedOperator (op : BinaryOp)
  | unsupported (construct : Construct)
  | duplicate (name : String)
  | undefinedForward (name : String)
  | externalLinkage (name : String)
deriving DecidableEq

/-- The greatest exponent of a power. -/
def maxExponent : Int64 := 64

def NameKind.text : NameKind → String
  | .variable => "variável"
  | function => "função"
  | procedure => "procedimento"

def TypeView.text : TypeView → String
  | type t => t.name
  | numeric => "integer ou real"
  | scalar => "valor escalar"
  | signature parameters result =>
    "[" ++ String.intercalate ", " (parameters.map DataType.caseName) ++ "] -> " ++ result.name

def Place.text : Place → String
  | operator op => "operador '" ++ op.symbol ++ "'"
  | argument position function =>
    "argumento " ++ naturalText position ++ " de '" ++ function ++ "'"
  | assignment name => "atribuição a '" ++ name ++ "'"
  | elementAssignment name => "atribuição a elemento de '" ++ name ++ "'"
  | definition name => "definição de '" ++ name ++ "'"
  | builtin b => b.name
  | sign => "sinal"
  | powerBase => "base da potência"
  | negation => "not"
  | stringIndex => "índice de string"
  | arrayIndex => "índice de array"
  | ifCondition => "condição do if"
  | whileCondition => "condição do while"
  | controlVariable => "variável de controle do for"
  | initialValue => "valor inicial do for"
  | finalValue => "valor final do for"
  | writeWidth => "largura do write"
  | writePrecision => "precisão do write"
  | named text => text

def Construct.text : Construct → String
  | recordField => "acesso a campo de registro"
  | pointer => "desreferência de ponteiro"
  | multidimensional => "array multidimensional"
  | procedureAsFunction b => "procedimento '" ++ b.name ++ "' usado como função"
  | functionNamedMain => "função chamada 'main'"
  | arrayResult => "função que devolve array"
  | nestedFunction => "função aninhada"
  | functionalParameter => "parâmetro funcional"
  | arrayParameter => "parâmetro do tipo array"
  | arrayOfArrays => "array de arrays"
  | exponent n =>
    "expoente " ++ integerText n ++ " (o máximo é " ++ integerText maxExponent ++ ")"
  | formattedArgument => "formatação fora de write"
  | arrayValue => "array usado como valor"
  | fieldAssignment => "atribuição a campo de registro"
  | pointerAssignment => "atribuição por ponteiro"
  | stringElement => "alteração de caractere de string"
  | readTarget => "leitura para algo que não é variável"
  | arrayRead => "leitura de array inteiro"
  | readFieldOrPointer => "leitura para campo ou ponteiro"

def BoundSide.text : BoundSide → String
  | lower => "limite inferior"
  | upper => "limite superior"

namespace SemanticError

def message : SemanticError → String
  | undeclared kind name => kind.text ++ " '" ++ name ++ "' não declarado(a)"
  | arityMismatch name expected found =>
    "'" ++ name ++ "' espera " ++ naturalText expected ++ " argumento(s), recebeu "
      ++ naturalText found
  | typeMismatch expected found place =>
    "tipos incompatíveis em " ++ place.text ++ ": esperado " ++ expected.text ++ ", encontrado "
      ++ found.text
  | notAnArray name => "'" ++ name ++ "' não é um array"
  | nonConstant side array =>
    side.text ++ " do array '" ++ array ++ "' precisa ser uma constante inteira"
  | invalidBounds name low high =>
    "limites inválidos para o array '" ++ name ++ "': " ++ integerText low ++ ".."
      ++ integerText high
  | dynamicExponent => "expoente precisa ser uma constante inteira não negativa"
  | unsupportedOperator op => "operador '" ++ op.symbol ++ "' não suportado"
  | unsupported construct => "construção não suportada: " ++ construct.text
  | duplicate name => "'" ++ name ++ "' já declarado neste escopo"
  | undefinedForward name => "função '" ++ name ++ "' declarada forward nunca recebeu corpo"
  | externalLinkage name => "função '" ++ name ++ "' é external e não pode ser ligada"

/-- A short name of the cause, the same for all names and types involved. -/
def kind : SemanticError → String
  | undeclared _ _ => "undeclared"
  | arityMismatch _ _ _ => "arity_mismatch"
  | typeMismatch _ _ _ => "type_mismatch"
  | notAnArray _ => "not_an_array"
  | nonConstant _ _ => "non_constant"
  | invalidBounds _ _ _ => "invalid_bounds"
  | dynamicExponent => "dynamic_exponent"
  | unsupportedOperator _ => "unsupported_operator"
  | unsupported _ => "unsupported"
  | duplicate _ => "duplicate_declaration"
  | undefinedForward _ => "undefined_forward"
  | externalLinkage _ => "external_linkage"

end SemanticError

end PascalStack
