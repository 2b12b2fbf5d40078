import PascalStack.Number.Double
import PascalStack.Tree.Basic

/-!
# Trees as indented outlines

* `Outline`           lines nested in lines;
* `Outline.rows`      each line with its depth;
* `renderRows`        the text of rows, with a number of blanks for each level of depth;
* `Expr.outline`, `Stmt.outline`, …   the outlines of trees.
-/

namespace PascalStack

/-- A line and the lines under it. -/
inductive Outline where
  | node (text : String) (children : List Outline)

namespace Outline

def leaf (text : String) : Outline := node text []

mutual

/-- The lines of an outline whose first line has depth `depth`. -/
def rows (depth : Nat) : Outline → List (Nat × String)
  | node text children => (depth, text) :: rowsAll (depth + 1) children

/-- The lines of outlines that stand at one depth. -/
def rowsAll (depth : Nat) : List Outline → List (Nat × String)
  | [] => []
  | o :: os => rows depth o ++ rowsAll depth os

end

end Outline

/-- A row as a line of text: `start` blanks, and `indent` more for each level. -/
def renderRow (indent start : Nat) (row : Nat × String) : String :=
  String.ofList (List.replicate (start + indent * row.1) ' ') ++ row.2 ++ "\n"

def renderRows (indent start : Nat) (rows : List (Nat × String)) : String :=
  String.join (rows.map (renderRow indent start))

/-- The text of outlines that start at the margin. -/
def renderOutlines (indent : Nat) (os : List Outline) : String :=
  renderRows indent 0 (Outline.rowsAll 0 os)

/-- Outlines under a title; an empty group has no title either. -/
def groupOutline (title : String) : List Outline → List Outline
  | [] => []
  | os => [.node title os]

/-- A constant as outlines show it; strings are not escaped. -/
def Constant.shown : Constant → String
  | .integer n => integerText n
  | .real x => Double.literal x
  | .char c => "'" ++ c.toString ++ "'"
  | .string s => "'" ++ s ++ "'"
  | .nil => "nil"

mutual

def Expr.outline : Expr → Outline
  | .access a => a.outline
  | .call name arguments =>
    .node "FunctionCall:" (.leaf ("Function: " ++ name) ::
      groupOutline "Params:" (argumentOutlines arguments))
  | .binary op left right =>
    .node ("BinaryExpression (" ++ op.symbol ++ "):")
      [.node "Left:" [left.outline], .node "Right:" [right.outline]]
  | .signed sign operand => .node ("SignedExpression (" ++ sign.symbol ++ "):") [operand.outline]
  | .power base exponent =>
    .node "Exponentiation:" [.node "Base:" [base.outline], .node "Exponent:" [exponent.outline]]
  | .not operand => .node "NotExpression:" [operand.outline]
  | .constant c => .leaf ("Constant: " ++ c.shown)
  | .set members => .node "SetConstructor:" (memberOutlines members)

def Access.outline : Access → Outline
  | .name id => .leaf ("VariableAccess: " ++ id)
  | .index base indices =>
    .node "IndexedVariable:"
      [.node "Variable:" [base.outline], .node "Indices:" (exprOutlines indices)]
  | .field base name =>
    .node "FieldDesignator:" [.node "Variable:" [base.outline], .leaf ("Field: " ++ name)]
  | .deref base => .node "PointerDereference:" [base.outline]

def Argument.outline : Argument → Outline
  | .value e => e.outline
  | .wide e width =>
    .node "FormattedParameter:" [.node "Value:" [e.outline], .node "Width:" [width.outline]]
  | .precise e width precision =>
    .node "FormattedParameter:"
      [.node "Value:" [e.outline], .node "Width:" [width.outline],
       .node "Precision:" [precision.outline]]

def Member.outline : Member → Outline
  | .single e => e.outline
  | .range low high =>
    .node "Range:" [.node "From:" [low.outline], .node "To:" [high.outline]]

def exprOutlines : List Expr → List Outline
  | [] => []
  | e :: es => e.outline :: exprOutlines es

def argumentOutlines : List Argument → List Outline
  | [] => []
  | a :: as => a.outline :: argumentOutlines as

def memberOutlines : List Member → List Outline
  | [] => []
  | m :: ms => m.outline :: memberOutlines ms

end

def Direction.text : Direction → String
  | .to => "to"
  | .downto => "downto"

/-- A compound leaves no line if its statements leave none. -/
def compoundOutline (body : List Outline) : List Outline := groupOutline "CompoundStatement:" body

mutual

def Stmt.outline : Stmt → List Outline
  | .compound body => compoundOutline (stmtOutlines body)
  | .assign target value =>
    [.node "AssignmentStatement:"
      [.node "Variable:" [target.outline], .node "Expression:" [value.outline]]]
  | .ifThen condition thenBranch =>
    [.node "IfStatement:"
      [.node "Condition:" [condition.outline], .node "Then:" thenBranch.outline]]
  | .ifThenElse condition thenBranch elseBranch =>
    [.node "IfStatement:"
      [.node "Condition:" [condition.outline], .node "Then:" thenBranch.outline,
       .node "Else:" elseBranch.outline]]
  | .whileDo condition body =>
    [.node "WhileStatement:"
      [.node "Condition:" [condition.outline], .node "Body:" body.outline]]
  | .forDo control initial direction final body =>
    [.node "ForStatement:"
      [.leaf ("ControlVar: " ++ control), .node "InitialValue:" [initial.outline],
       .leaf ("Direction: " ++ direction.text), .node "FinalValue:" [final.outline],
       .node "Body:" body.outline]]
  | .call name arguments =>
    [.node ("ProcedureCall: " ++ name)
      (groupOutline "Arguments:" (argumentOutlines arguments))]

def stmtOutlines : List Stmt → List Outline
  | [] => []
  | s :: ss => s.outline ++ stmtOutlines ss

end

/-- A bound of an array type in a heading; bounds that are not constant show as `?`. -/
def boundText (e : Expr) : String :=
  match e.constant? with
  | some n => integerText n
  | none => "?"

def TypeDenoter.text : TypeDenoter → String
  | .real => "real"
  | .integer => "integer"
  | .boolean => "boolean"
  | .string => "string"
  | .char => "char"
  | .array low high element =>
    "array[" ++ boundText low ++ ".." ++ boundText high ++ "] of " ++ element.text

def TypeDenoter.outline : TypeDenoter → Outline
  | .array low high element =>
    .node "ArrayType:"
      [.node "Index Range:" [.node "From:" [low.outline], .node "To:" [high.outline]],
       .node "Element Type:" [element.outline]]
  | t => .leaf t.text

def VarDecl.outline (v : VarDecl) : Outline :=
  .node "VariableDeclaration:"
    [.leaf ("Identifiers: " ++ String.intercalate ", " v.names), .node "Type:" [v.type.outline]]

/-- A heading on one line; `sections` are the texts of the parameters. -/
def headingText (name : String) (sections : List String) (result : TypeDenoter) : String :=
  if sections.isEmpty then name ++ ": " ++ result.text
  else name ++ "(" ++ String.intercalate "; " sections ++ "): " ++ result.text

mutual

def ParameterSection.text : ParameterSection → String
  | .value names type => String.intercalate ", " names ++ ": " ++ type.text
  | .reference names type => "var " ++ String.intercalate ", " names ++ ": " ++ type.text
  | .function name parameters result =>
    "function " ++ headingText name (sectionTexts parameters) result

def sectionTexts : List ParameterSection → List String
  | [] => []
  | p :: ps => p.text :: sectionTexts ps

end

def Heading.text (h : Heading) : String :=
  headingText h.name (sectionTexts h.parameters) h.result

def Directive.text : Directive → String
  | .forward => "forward"
  | .external => "external"

mutual

def Block.outline : Block → List Outline
  | .mk functions declarations statements =>
    groupOutline "Functions:" (functionOutlines functions)
      ++ groupOutline "Variables:" (declarations.map VarDecl.outline)
      ++ [.node "Statements:" (compoundOutline (stmtOutlines statements))]

def FunctionDecl.outline : FunctionDecl → Outline
  | .definition heading block =>
    .node "FunctionDeclaration:" [.leaf ("Heading: " ++ heading.text), .node "Body:" block.outline]
  | .directive heading d =>
    .node "FunctionDeclaration:"
      [.leaf ("Heading: " ++ heading.text), .leaf ("Directive: " ++ d.text)]
  | .body name block =>
    .node "FunctionDeclaration:" [.leaf ("Heading: " ++ name), .node "Body:" block.outline]

def functionOutlines : List FunctionDecl → List Outline
  | [] => []
  | f :: fs => f.outline :: functionOutlines fs

end

def Program.headingText (p : Program) : String :=
  if p.parameters.isEmpty then p.name
  else p.name ++ "(" ++ String.intercalate ", " p.parameters ++ ")"

def Program.outline (p : Program) : Outline :=
  .node "Program:" [.leaf ("Heading: " ++ p.headingText), .node "Block:" p.block.outline]

end PascalStack
