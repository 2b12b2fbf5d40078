import PascalStack.CommandLine.Tools

/-!
# The program

The first word of the command line is the name of a tool, the others are for the tool.
-/

namespace PascalStack.CommandLine

/-- The error of a code of the operating system. -/
def fileErrorOfCode (code : UInt32) (text : String) : FileError :=
  if code = 2 then .missing
  else if code = 20 then .notFolder
  else if code = 21 then .isFolder
  else if code = 36 then .nameTooLong
  else .other text

def fileError (e : IO.Error) : FileError :=
  match e with
  | .noFileOrDirectory _ code _ | .inappropriateType _ code _ | .invalidArgument _ code _
  | .noSuchThing _ code _ | .resourceExhausted _ code _ => fileErrorOfCode code (toString e)
  | _ => .other (toString e)

def readText (path : String) : IO (Except FileError String) := do
  try
    return decodeText (← IO.FS.readBinFile path).toList
  catch e => return .error (fileError e)

def writeText (path text : String) : IO (Except FileError Unit) := do
  try
    IO.FS.writeFile path text
    return .ok ()
  catch e => return .error (fileError e)

def Reply.show (r : Reply) : IO UInt32 := do
  (← IO.getStderr).putStr r.stderr
  (← IO.getStdout).putStr r.stdout
  return r.exit.toUInt32

def compilerMain (words : List String) : IO UInt32 := do
  match compilerSettings words with
  | .error r => (Tool.compiler.refuse r).show
  | .ok c =>
    match c.file with
    | none => (Tool.compiler.refuse .usage).show
    | some file =>
      match ← readText file with
      | .error e => (compilerUnreadable file e).show
      | .ok source =>
        match c.product source with
        | .error reply => reply.show
        | .ok p =>
          match c.output with
          | none => (p.reply none).show
          | some path => (p.reply (some (← writeText path p.text))).show

/-- Bytes of the standard input up to a line feed or its end. -/
partial def fetchLine (bytes : List UInt8) : IO (List UInt8) := do
  if bytes.contains 10 then return bytes
  let more ← (← IO.getStdin).read 4096
  if more.isEmpty then return bytes
  fetchLine (bytes ++ more.toList)

/-- Runs code step by step; output goes out at once, and input is fetched when it is needed. -/
partial def interact (code : Code) (limit : Option Nat) (steps position : Nat) (s : State) :
    IO (Option Fault) := do
  let s ← match code[position]? with
    | some (.ok (.basic .read)) =>
      (← IO.getStdout).flush
      pure { s with input := ← fetchLine s.input }
    | _ => pure s
  match runFrom code (if limit = some steps then 0 else 1) position s with
  | (.suspended next, s) =>
    if limit = some steps then return some (.stepLimit steps)
    (← IO.getStdout).putStr s.output
    interact code limit (steps + 1) next { s with output := "" }
  | (.finished, s) =>
    (← IO.getStdout).putStr s.output
    return none
  | (.failed f, _) => return some f

def interpreterFailure (message : String) : IO UInt32 := do
  (← IO.getStdout).flush
  (← IO.getStderr).putStr (interpreterError message)
  return 1

def interpreterMain (words : List String) : IO UInt32 := do
  match interpreterSettings words with
  | .error r => (Tool.interpreter.refuse r).show
  | .ok i =>
    match i.file with
    | none => (Tool.interpreter.refuse .usage).show
    | some file =>
      match ← readText file with
      | .error e => interpreterFailure (unreadable file e)
      | .ok text =>
        match load text with
        | .error f => interpreterFailure f.message
        | .ok img =>
          match ← interact img.code i.maxSteps 0 0 (.initial []) with
          | none => return 0
          | some f => interpreterFailure f.message

end PascalStack.CommandLine

open PascalStack.CommandLine in
def main (args : List String) : IO UInt32 := do
  match args with
  | name :: words =>
    match Tool.ofName? name with
    | some .compiler => compilerMain words
    | some .interpreter => interpreterMain words
    | none => (Tool.compiler.refuse .usage).show
  | [] => (Tool.compiler.refuse .usage).show
