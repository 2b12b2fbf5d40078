import PascalStack.Document
import PascalStack.Tree.Basic

/-!
# Trees as documents

Every tree has a form as a document: a node with parts is a record of its parts, a choice is a record with
the name of the case, or its name alone if the case has no contents.

* `Expr.form`, `Stmt.form`, …   the forms of trees;
* `Program.form`                the form of a whole program.
-/

namespace PascalStack

open Document (tagged texts)

def BinaryOp.caseName : BinaryOp → String
  | .equal => "Equal" | .notEqual => "NotEqual" | .less => "Less" | .greater => "Greater"
  | .lessEqual => "LessEqual" | .greaterEqual => "GreaterEqual" | .member => "In"
  | .add => "Add" | .subtract => "Subtract" | .or => "Or"
  | .multiply => "Multiply" | .divide => "Divide" | .integerDivide => "IntegerDivide"
  | .modulo => "Modulo" | .and => "And"

def Sign.caseName : Sign → String
  | .plus => "Plus"
  | .minus => "Minus"

def Direction.caseName : Direction → String
  | .to => "To"
  | .downto => "DownTo"

def Directive.caseName : Directive → String
  | .forward => "Forward"
  | .external => "External"

def Constant.form : Constant → Document
  | .integer n => tagged "Integer" (.integer n)
  | .real x => tagged "Real" (.real x)
  | .char c => tagged "Char" (.text c.toString)
  | .string s => tagged "String" (.text s)
  | .nil => .text "Nil"

mutual

def Expr.form : Expr → Document
  | .access a => tagged "Variable" a.form
  | .call name arguments =>
    tagged "FunctionCall"
      (.record [("name", .text name), ("arguments", .list (argumentForms arguments))])
  | .binary op left right =>
    tagged "Binary"
      (.record [("operator", .text op.caseName), ("left", left.form), ("right", right.form)])
  | .signed sign operand =>
    tagged "Signed" (.record [("sign", .text sign.caseName), ("operand", operand.form)])
  | .power base exponent =>
    tagged "Exponentiation" (.record [("base", base.form), ("exponent", exponent.form)])
  | .not operand => tagged "Not" (.record [("operand", operand.form)])
  | .constant c => tagged "Constant" c.form
  | .set members => tagged "Set" (.record [("members", .list (memberForms members))])

def Access.form : Access → Document
  | .name id => tagged "Identifier" (.text id)
  | .index base indices =>
    tagged "Indexed" (.record [("variable", base.form), ("indices", .list (exprForms indices))])
  | .field base name =>
    tagged "Field" (.record [("variable", base.form), ("field", .text name)])
  | .deref base => tagged "PointerDereference" (.record [("variable", base.form)])

def Argument.form : Argument → Document
  | .value e => tagged "Value" e.form
  | .wide e width =>
    tagged "Formatted"
      (.record [("value", e.form), ("width", width.form), ("precision", .null)])
  | .precise e width precision =>
    tagged "Formatted"
      (.record [("value", e.form), ("width", width.form), ("precision", precision.form)])

def Member.form : Member → Document
  | .single e => tagged "Single" e.form
  | .range low high => tagged "Range" (.record [("low", low.form), ("high", high.form)])

def exprForms : List Expr → List Document
  | [] => []
  | e :: es => e.form :: exprForms es

def argumentForms : List Argument → List Document
  | [] => []
  | a :: as => a.form :: argumentForms as

def memberForms : List Member → List Document
  | [] => []
  | m :: ms => m.form :: memberForms ms

end

/-- The form of a conditional; a missing branch is null. -/
def conditionalForm (condition thenBranch elseBranch : Document) : Document :=
  tagged "If"
    (.record [("condition", condition), ("then_branch", thenBranch), ("else_branch", elseBranch)])

mutual

def Stmt.form : Stmt → Document
  | .compound body => tagged "Compound" (.record [("statements", .list (stmtForms body))])
  | .assign target value =>
    tagged "Assignment" (.record [("target", target.form), ("value", value.form)])
  | .ifThen condition thenBranch => conditionalForm condition.form thenBranch.form .null
  | .ifThenElse condition thenBranch elseBranch =>
    conditionalForm condition.form thenBranch.form elseBranch.form
  | .whileDo condition body =>
    tagged "While" (.record [("condition", condition.form), ("body", body.form)])
  | .forDo control initial direction final body =>
    tagged "For"
      (.record [("control", .text control), ("initial", initial.form),
        ("direction", .text direction.caseName), ("final_value", final.form),
        ("body", body.form)])
  | .call name arguments =>
    tagged "ProcedureCall"
      (.record [("name", .text name), ("arguments", .list (argumentForms arguments))])

def stmtForms : List Stmt → List Document
  | [] => []
  | s :: ss => s.form :: stmtForms ss

end

def TypeDenoter.form : TypeDenoter → Document
  | .real => .text "Real"
  | .integer => .text "Integer"
  | .boolean => .text "Boolean"
  | .string => .text "String"
  | .char => .text "Char"
  | .array low high element =>
    tagged "Array"
      (.record [("low", low.form), ("high", high.form), ("element", element.form)])

def VarDecl.form (v : VarDecl) : Document :=
  .record [("identifiers", texts v.names), ("type_denoter", v.type.form)]

def headingForm (name : String) (parameters : List Document) (result : Document) : Document :=
  .record [("name", .text name), ("parameters", .list parameters), ("result", result)]

mutual

def ParameterSection.form : ParameterSection → Document
  | .value names type => tagged "Value" (.record [("names", texts names), ("ty", type.form)])
  | .reference names type =>
    tagged "Variable" (.record [("names", texts names), ("ty", type.form)])
  | .function name parameters result =>
    tagged "Functional" (headingForm name (sectionForms parameters) result.form)

def sectionForms : List ParameterSection → List Document
  | [] => []
  | p :: ps => p.form :: sectionForms ps

end

def Heading.form (h : Heading) : Document :=
  headingForm h.name (sectionForms h.parameters) h.result.form

mutual

def Block.form : Block → Document
  | .mk functions declarations statements =>
    .record [("functions", .list (functionForms functions)),
      ("variables", .list (declarations.map VarDecl.form)),
      ("statements", .record [("statements", .list (stmtForms statements))])]

def FunctionDecl.form : FunctionDecl → Document
  | .definition heading block =>
    tagged "Definition" (.record [("heading", heading.form), ("block", block.form)])
  | .directive heading d =>
    tagged "Directive" (.record [("heading", heading.form), ("directive", .text d.caseName)])
  | .body name block => tagged "Body" (.record [("name", .text name), ("block", block.form)])

def functionForms : List FunctionDecl → List Document
  | [] => []
  | f :: fs => f.form :: functionForms fs

end

def Program.form (p : Program) : Document :=
  tagged "program"
    (.record [
      ("heading", .record [("name", .text p.name), ("parameters", texts p.parameters)]),
      ("block", p.block.form)])

end PascalStack
