import PascalStack.Compiler.Program
import PascalStack.Diagnostic
import PascalStack.Token.Stream

/-!
# Compiling a source text

* `CompileError`   why a source text has no code;
* `Session`        a source text and the diagnostics found so far;
* `Session.tokens`, `Session.parse`, `Session.run`   the stages of a compilation;
* `compile`        the code of a source text.
-/

namespace PascalStack

inductive CompileError where
  | ungrammatical (count : Nat) (diagnostics : List Diagnostic)
  | semantic (e : SemanticError)

def CompileError.message : CompileError → String
  | ungrammatical count _ => naturalText count ++ " erro(s) de sintaxe"
  | semantic e => e.message

/-- The code of a tree. -/
def assemble (p : Program) : Except CompileError (List Line) :=
  match compileTree p with
  | .ok code => .ok code
  | .error e => .error (.semantic e)

/-- The tree of a report, if nothing had to be repaired. -/
def Report.accepted (r : Report) : Except CompileError Program :=
  match r.program? with
  | some p => .ok p
  | none => .error (.ungrammatical (max 1 r.errorCount) r.diagnostics)

structure Session where
  source : String
  diagnostics : List Diagnostic

namespace Session

def start (source : String) : Session := ⟨source, []⟩

/-- Notes further diagnostics. -/
def note (s : Session) (ds : List Diagnostic) : Session :=
  { s with diagnostics := s.diagnostics ++ ds }

/-- The number of errors in the order of tokens found so far. -/
def errorCount (s : Session) : Nat := s.diagnostics.countP Diagnostic.isSyntactic

/-- All tokens; illegal characters are noted. -/
def tokens (s : Session) : List Lexeme × Session :=
  match (Lexer.of s.source).drain reachOfRules with
  | some (found, l) => (found.map Prod.fst, s.note (l.errors.map Diagnostic.ofLexicalError))
  | none => ([], s)

/-- The tree; all diagnostics are noted. -/
def parse (s : Session) : Except CompileError Program × Session :=
  let r := report s.source
  (r.accepted, s.note r.diagnostics)

/-- The code; the diagnostics of the tree are noted. -/
def run (s : Session) : Except CompileError (List Line) × Session :=
  let (tree, s) := s.parse
  (tree >>= assemble, s)

end Session

/-- The code of a source text. -/
def compile (source : String) : Except CompileError (List Line) := (Session.start source).run.1

/-- Code as a text, one line for each label or instruction. -/
def codeText (code : List Line) : String := String.intercalate "\n" (code.map Line.text)

end PascalStack
