import PascalStack.CommandLine.Arguments
import PascalStack.CommandLine.Disk
import PascalStack.Machine.Run
import PascalStack.Session
import PascalStack.Tree.Form
import PascalStack.Tree.Printer

/-!
# The two tools

* `compilerSettings`           the settings of the compiler from its command line;
* `CompilerSettings.product`   what the compiler makes of a source text;
* `interpreterSettings`        the settings of the interpreter from its command line;
* `InterpreterSettings.reply`  what a program does under them;
* `Tool.run`                   runs a tool on a disk.
-/

namespace PascalStack.CommandLine

/-- What the compiler shows of a source text. -/
inductive Emit where
  | bytecode | ast | astJson | tokens
deriving DecidableEq, Repr

def Emit.all : List Emit := [bytecode, ast, astJson, tokens]

def Emit.name : Emit → String
  | bytecode => "bytecode"
  | ast => "ast"
  | astJson => "ast-json"
  | tokens => "tokens"

def Emit.ofName? (name : String) : Option Emit := Emit.all.find? fun e => e.name = name

/-- A setting that may be given once and is read by `read?`. -/
def once {α : Type} (old : Option α) (read? : String → Option α) (value : String) : Option α :=
  match old with
  | some _ => none
  | none => read? value

/-- A path is any text but the empty one. -/
def path? (value : String) : Option String := if value.isEmpty then none else some value

def count? (value : String) : Option Nat := unsigned? value.toList

/-- The settings of the compiler; `verbosity` is how often more messages were asked for. -/
structure CompilerSettings where
  file : Option String
  output : Option String
  emit : Option Emit
  indent : Option Nat
  verbosity : Nat

def compilerReader : Reader CompilerSettings where
  switches := [
    ⟨"output", some 'o', .value fun s v =>
      (once s.output path? v).map fun output => { s with output := some output }⟩,
    ⟨"emit", none, .value fun s v =>
      (once s.emit Emit.ofName? v).map fun emit => { s with emit := some emit }⟩,
    ⟨"indent", none, .value fun s v =>
      (once s.indent count? v).map fun indent => { s with indent := some indent }⟩,
    ⟨"verbose", some 'v', .flag fun s => { s with verbosity := s.verbosity + 1 }⟩,
    ⟨"help", some 'h', .refuse .help⟩,
    ⟨"version", some 'V', .refuse .version⟩]
  plain := fun s v => (once s.file path? v).map fun file => { s with file := some file }

def compilerSettings (words : List String) : Except Refusal CompilerSettings :=
  compilerReader.read ⟨none, none, none, none, 0⟩ words

/-- The settings of the interpreter. -/
structure InterpreterSettings where
  file : Option String
  maxSteps : Option Nat
  verbosity : Nat

def interpreterReader : Reader InterpreterSettings where
  switches := [
    ⟨"max-steps", none, .value fun s v =>
      (once s.maxSteps count? v).map fun maxSteps => { s with maxSteps := some maxSteps }⟩,
    ⟨"verbose", some 'v', .flag fun s => { s with verbosity := s.verbosity + 1 }⟩,
    ⟨"help", some 'h', .refuse .help⟩,
    ⟨"version", some 'V', .refuse .version⟩]
  plain := fun s v => (once s.file path? v).map fun file => { s with file := some file }

def interpreterSettings (words : List String) : Except Refusal InterpreterSettings :=
  interpreterReader.read ⟨none, none, 0⟩ words

/-- What a tool leaves behind. -/
structure Reply where
  exit : Nat
  stdout : String
  stderr : String
deriving DecidableEq

/-- Lines, each with a line feed. -/
def unlines (ls : List String) : String := String.join (ls.map fun l => l ++ "\n")

/-- The message about a file that cannot be read. -/
def unreadable (path : String) (e : FileError) : String :=
  "não foi possível ler " ++ path ++ ": " ++ e.message

def tokenLine (x : Lexeme) : String :=
  naturalText x.line ++ "\t" ++ x.token.kind ++ "\t" ++ x.token.text

/-- What the compiler shows, and the session after it. -/
def Emit.text (indent : Nat) (s : Session) : Emit → Except CompileError String × Session
  | tokens => let (ts, s) := s.tokens; (.ok (unlines (ts.map tokenLine)), s)
  | ast => let (p, s) := s.parse; (p.map fun p => p.print indent, s)
  | astJson => let (p, s) := s.parse; (p.map fun p => p.form.render ++ "\n", s)
  | bytecode => let (code, s) := s.run; (code.map fun code => unlines (code.map Line.text), s)

/-- The lines that report an error. -/
def errorLines : CompileError → List String
  | e@(.ungrammatical _ ds) => ds.map Diagnostic.message ++ ["erro: " ++ e.message]
  | e => ["erro: " ++ e.message]

/-- A text to be written, and the warnings before it. -/
structure Product where
  text : String
  warnings : String

/-- What the compiler makes of a source text. -/
def CompilerSettings.product (c : CompilerSettings) (source : String) : Except Reply Product :=
  match (c.emit.getD .bytecode).text (c.indent.getD 2) (.start source) with
  | (.ok text, s) => .ok ⟨text, unlines (s.diagnostics.map fun d => "aviso: " ++ d.message)⟩
  | (.error e, _) => .error ⟨1, "", unlines (errorLines e)⟩

/-- The end of a compilation whose text went to the standard output, or to a file. -/
def Product.reply (p : Product) (written : Option (Except FileError Unit)) : Reply :=
  match written with
  | none => ⟨0, p.text, p.warnings⟩
  | some (.ok ()) => ⟨0, "", p.warnings⟩
  | some (.error e) => ⟨1, "", p.warnings ++ unlines ["erro: " ++ e.message]⟩

/-- The end of a compilation whose source could not be read. -/
def compilerUnreadable (path : String) (e : FileError) : Reply :=
  ⟨1, "", unlines ["erro: " ++ unreadable path e]⟩

/-- The message of the interpreter about an error. -/
def interpreterError (message : String) : String :=
  unlines ["", "--- Erro de Execução ---", message]

inductive Tool where
  | compiler | interpreter
deriving DecidableEq, Repr

namespace Tool

def all : List Tool := [compiler, interpreter]

def name : Tool → String
  | compiler => "compilador"
  | interpreter => "interpretador"

def ofName? (name : String) : Option Tool := all.find? fun t => t.name = name

/-- How a tool is called. -/
def synopsis : Tool → String
  | compiler => "compilador [OPTIONS] <FILE>"
  | interpreter => "interpretador [OPTIONS] <FILE>"

/-- The end of a tool that does not run. -/
def refuse (t : Tool) : Refusal → Reply
  | .usage => ⟨2, "", unlines ["Usage: " ++ t.synopsis]⟩
  | .version => ⟨0, unlines [t.name ++ " 0.1.0"], ""⟩
  | .help => ⟨0, unlines ["Usage: " ++ t.synopsis], ""⟩

end Tool

/-- Runs the compiler on a disk. -/
def compileOn (d : Disk) (words : List String) : Reply × Disk :=
  match compilerSettings words with
  | .error r => (Tool.compiler.refuse r, d)
  | .ok c =>
    match c.file with
    | none => (Tool.compiler.refuse .usage, d)
    | some file =>
      match d.read file with
      | .error e => (compilerUnreadable file e, d)
      | .ok source =>
        match c.product source with
        | .error reply => (reply, d)
        | .ok p =>
          match c.output with
          | none => (p.reply none, d)
          | some path =>
            match d.write path p.text with
            | .ok d => (p.reply (some (.ok ())), d)
            | .error e => (p.reply (some (.error e)), d)

/-- Runs a program under the settings of the interpreter. -/
def InterpreterSettings.reply (i : InterpreterSettings) (text : String) (input : List UInt8) :
    Reply :=
  match load text with
  | .error f => ⟨1, "", interpreterError f.message⟩
  | .ok img =>
    match run img.code i.maxSteps (.initial input) with
    | (none, s) => ⟨0, s.output, ""⟩
    | (some f, s) => ⟨1, s.output, interpreterError f.message⟩

/-- Runs the interpreter on a disk. -/
def interpretOn (d : Disk) (words : List String) (input : List UInt8) : Reply :=
  match interpreterSettings words with
  | .error r => Tool.interpreter.refuse r
  | .ok i =>
    match i.file with
    | none => Tool.interpreter.refuse .usage
    | some file =>
      match d.read file with
      | .error e => ⟨1, "", interpreterError (unreadable file e)⟩
      | .ok text => i.reply text input

/-- Runs a tool on a disk: its reply and the disk after it. -/
def Tool.run (t : Tool) (d : Disk) (words : List String) (input : List UInt8) : Reply × Disk :=
  match t with
  | compiler => compileOn d words
  | interpreter => (interpretOn d words input, d)

end PascalStack.CommandLine
