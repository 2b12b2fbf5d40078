import PascalStack.Tree.Basic

/-!
# The identifiers of a tree

* `Expr.identifiers`, `Stmt.identifiers`, …   the names that stand in a tree, in the order of its text;
* `FunctionDecl.identifiers`                  those of a declaration of a function, its own name among them.
-/

namespace PascalStack

mutual

def Expr.identifiers : Expr → List String
  | .access a => a.identifiers
  | .call name arguments => name :: argumentIdentifiers arguments
  | .binary _ left right => left.identifiers ++ right.identifiers
  | .signed _ operand => operand.identifiers
  | .power base exponent => base.identifiers ++ exponent.identifiers
  | .not operand => operand.identifiers
  | .constant _ => []
  | .set members => memberIdentifiers members

def Access.identifiers : Access → List String
  | .name id => [id]
  | .index base indices => base.identifiers ++ exprIdentifiers indices
  | .field base name => base.identifiers ++ [name]
  | .deref base => base.identifiers

def Argument.identifiers : Argument → List String
  | .value e => e.identifiers
  | .wide e width => e.identifiers ++ width.identifiers
  | .precise e width precision => e.identifiers ++ (width.identifiers ++ precision.identifiers)

def Member.identifiers : Member → List String
  | .single e => e.identifiers
  | .range low high => low.identifiers ++ high.identifiers

def argumentIdentifiers : List Argument → List String
  | [] => []
  | a :: arguments => a.identifiers ++ argumentIdentifiers arguments

def memberIdentifiers : List Member → List String
  | [] => []
  | m :: members => m.identifiers ++ memberIdentifiers members

def exprIdentifiers : List Expr → List String
  | [] => []
  | e :: es => e.identifiers ++ exprIdentifiers es

end

mutual

def Stmt.identifiers : Stmt → List String
  | .compound body => stmtIdentifiers body
  | .assign target value => target.identifiers ++ value.identifiers
  | .ifThen condition thenBranch => condition.identifiers ++ thenBranch.identifiers
  | .ifThenElse condition thenBranch elseBranch =>
    condition.identifiers ++ (thenBranch.identifiers ++ elseBranch.identifiers)
  | .whileDo condition body => condition.identifiers ++ body.identifiers
  | .forDo control initial _ final body =>
    control :: (initial.identifiers ++ (final.identifiers ++ body.identifiers))
  | .call name arguments => name :: argumentIdentifiers arguments

def stmtIdentifiers : List Stmt → List String
  | [] => []
  | s :: ss => s.identifiers ++ stmtIdentifiers ss

end

def TypeDenoter.identifiers : TypeDenoter → List String
  | .array low high element => low.identifiers ++ (high.identifiers ++ element.identifiers)
  | .real | .integer | .boolean | .string | .char => []

def VarDecl.identifiers (v : VarDecl) : List String := v.names ++ v.type.identifiers

mutual

def ParameterSection.identifiers : ParameterSection → List String
  | .value names type => names ++ type.identifiers
  | .reference names type => names ++ type.identifiers
  | .function name parameters result => name :: (sectionIdentifiers parameters ++ result.identifiers)

def sectionIdentifiers : List ParameterSection → List String
  | [] => []
  | p :: ps => p.identifiers ++ sectionIdentifiers ps

end

def Heading.identifiers (h : Heading) : List String :=
  h.name :: (sectionIdentifiers h.parameters ++ h.result.identifiers)

mutual

def Block.identifiers : Block → List String
  | .mk functions declarations statements =>
    functionIdentifiers functions ++ (declarations.flatMap VarDecl.identifiers ++ stmtIdentifiers statements)

def FunctionDecl.identifiers : FunctionDecl → List String
  | .definition heading block => heading.identifiers ++ block.identifiers
  | .directive heading _ => heading.identifiers
  | .body name block => name :: block.identifiers

def functionIdentifiers : List FunctionDecl → List String
  | [] => []
  | f :: fs => f.identifiers ++ functionIdentifiers fs

end

theorem FunctionDecl.name_mem_identifiers (f : FunctionDecl) : f.name ∈ f.identifiers := by
  cases f <;> exact List.mem_cons_self ..

end PascalStack
