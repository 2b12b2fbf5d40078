import PascalStack.Grammar.Table
import PascalStack.Token.Lexer

/-!
# Diagnostics and parse reports

* `Diagnostic`          an illegal character, an unexpected token, or an unexpected end;
* `Diagnostic.message`  its text;
* `sortByLine`          diagnostics in order of their lines, otherwise as they were;
* `Report`              the tree of a source text, if there is one, and its diagnostics;
* `report`              reads a source text.
-/

namespace PascalStack

inductive Diagnostic where
  | illegal (line : Nat) (character : Char)
  | unexpected (line : Nat) (token : Token) (expected : List Terminal) (dropped : Nat)
  | unexpectedEnd (line : Nat) (expected : List Terminal)
deriving DecidableEq

namespace Diagnostic

def line : Diagnostic → Nat
  | illegal line _ => line
  | unexpected line _ _ _ => line
  | unexpectedEnd line _ => line

/-- Whether the tokens, and not the characters, are at fault. -/
def isSyntactic : Diagnostic → Bool
  | illegal _ _ => false
  | unexpected _ _ _ _ => true
  | unexpectedEnd _ _ => true

/-- The terminals that could have stood at the place of an error. -/
def expectation (expected : List Terminal) : String :=
  if expected.isEmpty then ""
  else " (esperado: " ++ String.intercalate ", " (expected.map Terminal.name) ++ ")"

def message : Diagnostic → String
  | illegal line character =>
    "linha " ++ naturalText line ++ ": caractere ilegal '" ++ character.toString ++ "'"
  | unexpected line token expected _ =>
    "linha " ++ naturalText line ++ ": erro de sintaxe em " ++ token.kind ++ " '" ++ token.text
      ++ "'" ++ expectation expected
  | unexpectedEnd line expected =>
    "linha " ++ naturalText line ++ ": fim de arquivo inesperado" ++ expectation expected

def ofLexicalError (e : LexicalError) : Diagnostic := illegal e.line e.character

def ofSyntaxError (e : SyntaxError) (dropped : Nat) : Diagnostic :=
  match e.token with
  | some t => unexpected e.line t e.expected dropped
  | none => unexpectedEnd e.line e.expected

def ofRecovery (r : Recovery) : Diagnostic := ofSyntaxError r.error r.dropped.length

end Diagnostic

/-- Puts a diagnostic before the first one that is not on an earlier line. -/
def insertByLine (d : Diagnostic) : List Diagnostic → List Diagnostic
  | [] => [d]
  | x :: xs => if d.line ≤ x.line then d :: x :: xs else x :: insertByLine d xs

/-- Sorts by line and keeps the order of diagnostics on one line. -/
def sortByLine (ds : List Diagnostic) : List Diagnostic := ds.foldr insertByLine []

/-- What reading a source text yields: a tree, which may lack repaired parts, and diagnostics. -/
structure Report where
  tree : Option Program
  diagnostics : List Diagnostic

namespace Report

/-- The number of errors in the order of tokens. -/
def errorCount (r : Report) : Nat := r.diagnostics.countP Diagnostic.isSyntactic

/-- The diagnostics about characters. -/
def lexical (r : Report) : List Diagnostic := r.diagnostics.filter fun d => !d.isSyntactic

def isClean (r : Report) : Bool := r.tree.isSome && r.errorCount = 0

/-- The tree, if nothing had to be repaired. -/
def program? (r : Report) : Option Program :=
  if r.errorCount = 0 then r.tree else none

end Report

/-- The diagnostics of a parse: repaired errors, then the error that ended it. -/
def Outcome.diagnostics (o : Outcome) : List Diagnostic :=
  o.recovered.map Diagnostic.ofRecovery ++
    match o.result with
    | .ok _ => []
    | .error e => [Diagnostic.ofSyntaxError e 0]

/-- Reads a source text. -/
def report (source : String) : Report :=
  let pieces := scan source
  let outcome := Grammar.parse (lexemesOf pieces)
  ⟨outcome.result.toOption,
    sortByLine (outcome.diagnostics ++ (errorsOf pieces).map Diagnostic.ofLexicalError)⟩

end PascalStack
