import PascalStack.Code.Op
import PascalStack.Machine.Value
import PascalStack.Text.Blank

/-!
# Loading code

Code is text, one label or instruction a line.

* `Instruction`     an instruction as it was written;
* `Image`           the instructions of a text and the positions of its labels;
* `load`            reads a text; unknown instructions and labels are refused;
* `Image.decode`    an instruction with its operand read and its target found.
-/

namespace PascalStack

/-- The greatest number of global slots, `2 ^ 20`. -/
def maxGlobals : Nat := 1048576

structure Instruction where
  opcode : Opcode
  operand : Option String
  line : Nat
deriving DecidableEq

/-- Labels are kept with the number of instructions before them, the latest first. -/
structure Image where
  instructions : Array Instruction
  labels : List (String × Nat)

/-- What a line of code holds. -/
inductive Entry where
  | nothing
  | label (name : String)
  | instruction (name : String) (operand : Option String)
deriving DecidableEq

/-- The characters before a final colon. -/
def beforeColon? : List Char → Option (List Char)
  | [] => none
  | [':'] => some []
  | c :: cs => (beforeColon? cs).map fun r => c :: r

/-- The name of a label: a line without blanks that ends in a colon. -/
def labelName? (line : List Char) : Option String :=
  (beforeColon? line).bind fun name =>
    if name.any Text.isBlank then none else some (String.ofList name)

/-- An instruction is a word in any case, and the rest of the line is its operand. -/
def readInstruction (line : List Char) : Entry :=
  let word := line.takeWhile fun c => !Text.isBlank c
  let name := String.ofList (word.map Char.toLower)
  match line.dropWhile fun c => !Text.isBlank c with
  | [] => .instruction name none
  | _ :: rest => .instruction name (some (String.ofList (Text.trim rest)))

/-- Empty lines and lines that start with two slashes hold nothing. -/
def readEntry (raw : List Char) : Entry :=
  match Text.trim raw with
  | [] => .nothing
  | '/' :: '/' :: _ => .nothing
  | line =>
    match labelName? line with
    | some name => .label name
    | none => readInstruction line

namespace Image

def empty : Image := ⟨#[], []⟩

def target? (img : Image) (label : String) : Option Nat := img.labels.lookup label

/-- Adds a line of code. -/
def add (img : Image) (number : Nat) (line : List Char) : Except Fault Image :=
  match readEntry line with
  | .nothing => .ok img
  | .label name => .ok { img with labels := (name, img.instructions.size) :: img.labels }
  | .instruction name operand =>
    match Opcode.ofName? name with
    | some opcode =>
      .ok { img with instructions := img.instructions.push ⟨opcode, operand, number⟩ }
    | none => .error (.unknownInstruction name number)

/-- Adds lines of code, the first of which has the given number. -/
def addAll (img : Image) (number : Nat) : List (List Char) → Except Fault Image
  | [] => .ok img
  | line :: rest =>
    match img.add number line with
    | .ok next => next.addAll (number + 1) rest
    | .error f => .error f

end Image

namespace Instruction

def name (i : Instruction) : String := i.opcode.name

/-- The operand, which must be there. -/
def required (i : Instruction) : Except Fault String :=
  match i.operand with
  | some operand => .ok operand
  | none => .error (.malformedOperand i.name "")

/-- The operand, read by `read?`. -/
def parsed {α : Type} (i : Instruction) (read? : String → Option α) : Except Fault α := do
  let operand ← i.required
  match read? operand with
  | some a => return a
  | none => throw (.malformedOperand i.name operand)

/-- A number of values; one if there is no operand. -/
def count (i : Instruction) : Except Fault Nat :=
  if i.operand.isSome then i.parsed fun t => unsigned? t.toList else .ok 1

/-- A global slot, which may be left to the stack. -/
def slot (i : Instruction) : Except Fault (Option Nat) :=
  if i.operand.isSome then do return some (← i.parsed fun t => unsigned? t.toList) else .ok none

/-- The number of zeros to push; there are no more than global slots. -/
def zeros (i : Instruction) : Except Fault Nat := do
  let n ← i.parsed fun t => unsigned? t.toList
  if maxGlobals < n then throw (.malformedOperand i.name (naturalText n))
  return n

end Instruction

namespace Image

/-- The position of the label that an instruction names. -/
def targetOf (img : Image) (i : Instruction) : Except Fault Nat := do
  let label ← i.required
  match img.target? label with
  | some position => return position
  | none => throw (.unknownLabel label)

/-- An instruction with its operand read.  An operand that cannot be read is a fault of the run, not
of loading. -/
def decode (img : Image) (i : Instruction) : Except Fault (Op Nat) :=
  match i.opcode with
  | .pushi => do return .pushi (← i.parsed fun t => signed? t.toList)
  | .pushf => do return .pushf (← i.parsed fun t => Double.read? t.toList)
  | .pushs => do return .pushs (← i.parsed Code.quoted?)
  | .pushn => do return .pushn (← i.zeros)
  | .pushg => do return .pushg (← i.slot)
  | .pusha => do return .pusha (← img.targetOf i)
  | .storeg => do return .storeg (← i.slot)
  | .load => do return .load (← i.parsed fun t => unsigned? t.toList)
  | .pop => do return .pop (← i.count)
  | .dup => do return .dup (← i.count)
  | .jump => do return .jump (← img.targetOf i)
  | .jz => do return .jz (← img.targetOf i)
  | .basic b => .ok (.basic b)

/-- The instructions as they are run. -/
def code (img : Image) : Array (Except Fault (Op Nat)) := img.instructions.map img.decode

/-- Checks the target of an instruction that names one. -/
def checkTarget (img : Image) (i : Instruction) : Except Fault Unit :=
  match i.opcode with
  | .jump | .jz | .pusha => do let _ ← img.targetOf i
  | _ => .ok ()

/-- Checks all targets in order. -/
def checkTargets (img : Image) : List Instruction → Except Fault Unit
  | [] => .ok ()
  | i :: rest =>
    match img.checkTarget i with
    | .ok () => checkTargets img rest
    | .error f => .error f

/-- Puts a label into a list ordered by name, in place of an earlier one of the same name. -/
def insertLabel (label : String × Nat) : List (String × Nat) → List (String × Nat)
  | [] => [label]
  | x :: xs =>
    if label.1 < x.1 then label :: x :: xs
    else if label.1 = x.1 then label :: xs
    else x :: insertLabel label xs

/-- The labels with their positions, ordered by name. -/
def labelList (img : Image) : List (String × Nat) := img.labels.foldr insertLabel []

end Image

/-- Loads a text: every line is read, and then every target is checked. -/
def load (text : String) : Except Fault Image := do
  let img ← Image.empty.addAll 1 (Text.lines text.toList)
  img.checkTargets img.instructions.toList
  return img

end PascalStack
