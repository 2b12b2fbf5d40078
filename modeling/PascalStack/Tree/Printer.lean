import PascalStack.Tree.Outline

/-!
# Printing trees

A printer goes through a tree and writes a line for each part of it.  It carries the indentation of the next
line with it, takes a step inwards for what stands under a label, and a step back after it.

* `Printer`            blanks for a step, and blanks before the next line;
* `Printing`           something to print: its text, and the printer after it;
* `Printing.line`, `Printing.nested`, `Printing.labeled`, `Printing.all`, `Printing.group`   its forms;
* `Expr.visit`, `Stmt.visit`, …   the printing of trees;
* `Program.print`      the text of a whole program.
-/

namespace PascalStack

/-- The number of blanks for each level, and their number before the next line. -/
structure Printer where
  indent : Nat
  current : Nat
deriving DecidableEq

abbrev Printing := StateM Printer String

namespace Printing

def line (text : String) : Printing := do
  let printer ← get
  return String.ofList (List.replicate printer.current ' ') ++ text ++ "\n"

/-- Prints one step further in. -/
def nested (body : Printing) : Printing := do
  modify fun printer => { printer with current := printer.current + printer.indent }
  let text ← body
  modify fun printer => { printer with current := printer.current - printer.indent }
  return text

/-- Prints one part after the other. -/
def all : List Printing → Printing
  | [] => return ""
  | part :: parts => do
    let text ← part
    let rest ← all parts
    return text ++ rest

/-- A label, and under it what it is for. -/
def labeled (label : String) (body : Printing) : Printing := all [line label, nested body]

/-- Parts under a label; without parts there is no label either. -/
def group (label : String) : List Printing → Printing
  | [] => return ""
  | parts => labeled label (all parts)

end Printing

open Printing

mutual

def Expr.visit : Expr → Printing
  | .access a => a.visit
  | .call name arguments =>
    labeled "FunctionCall:"
      (all [line ("Function: " ++ name), group "Params:" (argumentVisits arguments)])
  | .binary op left right =>
    labeled ("BinaryExpression (" ++ op.symbol ++ "):")
      (all [labeled "Left:" left.visit, labeled "Right:" right.visit])
  | .signed sign operand => labeled ("SignedExpression (" ++ sign.symbol ++ "):") operand.visit
  | .power base exponent =>
    labeled "Exponentiation:"
      (all [labeled "Base:" base.visit, labeled "Exponent:" exponent.visit])
  | .not operand => labeled "NotExpression:" operand.visit
  | .constant c => line ("Constant: " ++ c.shown)
  | .set members => labeled "SetConstructor:" (all (memberVisits members))

def Access.visit : Access → Printing
  | .name id => line ("VariableAccess: " ++ id)
  | .index base indices =>
    labeled "IndexedVariable:"
      (all [labeled "Variable:" base.visit, labeled "Indices:" (all (exprVisits indices))])
  | .field base name =>
    labeled "FieldDesignator:" (all [labeled "Variable:" base.visit, line ("Field: " ++ name)])
  | .deref base => labeled "PointerDereference:" base.visit

def Argument.visit : Argument → Printing
  | .value e => e.visit
  | .wide e width =>
    labeled "FormattedParameter:" (all [labeled "Value:" e.visit, labeled "Width:" width.visit])
  | .precise e width precision =>
    labeled "FormattedParameter:"
      (all [labeled "Value:" e.visit, labeled "Width:" width.visit,
        labeled "Precision:" precision.visit])

def Member.visit : Member → Printing
  | .single e => e.visit
  | .range low high =>
    labeled "Range:" (all [labeled "From:" low.visit, labeled "To:" high.visit])

def exprVisits : List Expr → List Printing
  | [] => []
  | e :: es => e.visit :: exprVisits es

def argumentVisits : List Argument → List Printing
  | [] => []
  | a :: as => a.visit :: argumentVisits as

def memberVisits : List Member → List Printing
  | [] => []
  | m :: ms => m.visit :: memberVisits ms

end

mutual

def Stmt.visit : Stmt → Printing
  | .compound body => group "CompoundStatement:" (stmtVisits body)
  | .assign target value =>
    labeled "AssignmentStatement:"
      (all [labeled "Variable:" target.visit, labeled "Expression:" value.visit])
  | .ifThen condition thenBranch =>
    labeled "IfStatement:"
      (all [labeled "Condition:" condition.visit, labeled "Then:" thenBranch.visit])
  | .ifThenElse condition thenBranch elseBranch =>
    labeled "IfStatement:"
      (all [labeled "Condition:" condition.visit, labeled "Then:" thenBranch.visit,
        labeled "Else:" elseBranch.visit])
  | .whileDo condition body =>
    labeled "WhileStatement:"
      (all [labeled "Condition:" condition.visit, labeled "Body:" body.visit])
  | .forDo control initial direction final body =>
    labeled "ForStatement:"
      (all [line ("ControlVar: " ++ control), labeled "InitialValue:" initial.visit,
        line ("Direction: " ++ direction.text), labeled "FinalValue:" final.visit,
        labeled "Body:" body.visit])
  | .call name arguments =>
    labeled ("ProcedureCall: " ++ name) (group "Arguments:" (argumentVisits arguments))

/-- The statements of a compound that are not empty. -/
def stmtVisits : List Stmt → List Printing
  | [] => []
  | s :: ss => if s.isEmpty then stmtVisits ss else s.visit :: stmtVisits ss

end

def TypeDenoter.visit : TypeDenoter → Printing
  | .array low high element =>
    labeled "ArrayType:"
      (all [labeled "Index Range:" (all [labeled "From:" low.visit, labeled "To:" high.visit]),
        labeled "Element Type:" element.visit])
  | t => line t.text

def VarDecl.visit (v : VarDecl) : Printing :=
  labeled "VariableDeclaration:"
    (all [line ("Identifiers: " ++ String.intercalate ", " v.names), labeled "Type:" v.type.visit])

mutual

def Block.visit : Block → Printing
  | .mk functions declarations statements =>
    all [group "Functions:" (functionVisits functions),
      group "Variables:" (declarations.map VarDecl.visit),
      labeled "Statements:" (group "CompoundStatement:" (stmtVisits statements))]

def FunctionDecl.visit : FunctionDecl → Printing
  | .definition heading block =>
    labeled "FunctionDeclaration:"
      (all [line ("Heading: " ++ heading.text), labeled "Body:" block.visit])
  | .directive heading d =>
    labeled "FunctionDeclaration:"
      (all [line ("Heading: " ++ heading.text), line ("Directive: " ++ d.text)])
  | .body name block =>
    labeled "FunctionDeclaration:"
      (all [line ("Heading: " ++ name), labeled "Body:" block.visit])

def functionVisits : List FunctionDecl → List Printing
  | [] => []
  | f :: fs => f.visit :: functionVisits fs

end

def Program.visit (p : Program) : Printing :=
  labeled "Program:"
    (all [line ("Heading: " ++ p.headingText), labeled "Block:" p.block.visit])

/-- A program as text, with `indent` blanks a level. -/
def Program.print (p : Program) (indent : Nat) : String := (p.visit.run ⟨indent, 0⟩).1

end PascalStack
