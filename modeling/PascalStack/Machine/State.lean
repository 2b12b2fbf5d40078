import PascalStack.Machine.Image

/-!
# The state of the machine

* `State`     the operand stack, the global slots, the return stack, the input left and the output;
* `Exec`      computations on a state.  A fault leaves the state as it was when it arose;
* `pop`, `popInteger`, ...   take values off the stack; the name of the instruction is for the fault.
-/

namespace PascalStack

/-- The tops of both stacks are at the heads of the lists. -/
structure State where
  stack : List Value
  globals : Array Value
  calls : List Nat
  input : List UInt8
  output : String

/-- The state in which a machine starts. -/
def State.initial (input : List UInt8) : State := ⟨[], #[], [], input, ""⟩

abbrev Exec := EStateM Fault State

namespace Exec

def push (v : Value) : Exec Unit := modify fun s => { s with stack := v :: s.stack }

def pop (instruction : String) : Exec Value := do
  match (← get).stack with
  | v :: rest =>
    modify fun s => { s with stack := rest }
    return v
  | [] => throw (.stackUnderflow instruction)

/-- The fault of an instruction that found a value of another kind. -/
def unexpected {α : Type} (instruction : String) (wanted : ValueKind) (found : Value) : Exec α :=
  throw (.typeError instruction (.unexpected wanted found))

def popInteger (instruction : String) : Exec Int64 := do
  match ← pop instruction with
  | .integer n => return n
  | v => unexpected instruction .integer v

/-- An integer counts as a real. -/
def popReal (instruction : String) : Exec Float := do
  match ← pop instruction with
  | .real x => return x
  | .integer n => return Double.ofInteger n
  | v => unexpected instruction .real v

def popString (instruction : String) : Exec String := do
  match ← pop instruction with
  | .string s => return s
  | v => unexpected instruction .string v

/-- A global slot is an integer from 0 up to the greatest number of slots. -/
def popSlot (instruction : String) : Exec Nat := do
  let n ← popInteger instruction
  if 0 ≤ n.toInt ∧ n.toInt < maxGlobals then return n.toInt.toNat
  else throw (.invalidAddress n)

def popAddress (instruction : String) : Exec Nat := do
  match ← pop instruction with
  | .address a => return a
  | v => unexpected instruction .address v

/-- A slot as a machine integer, for a message; slots beyond the integers are shown as the greatest. -/
def slotNumber (slot : Nat) : Int64 := (machineInteger? slot).getD Int64.maxValue

def checkSlot (slot : Nat) : Exec Unit :=
  if slot < maxGlobals then return else throw (.invalidAddress (slotNumber slot))

/-- Reads a global slot; one that was never written holds zero. -/
def loadGlobal (slot : Nat) : Exec Value := do
  checkSlot slot
  return ((← get).globals[slot]?).getD .zero

/-- Writes a global slot; the slots below it come into being as zeros. -/
def storeGlobal (slot : Nat) (v : Value) : Exec Unit := do
  checkSlot slot
  modify fun s =>
    { s with globals := (s.globals.rightpad (slot + 1) .zero).setIfInBounds slot v }

/-- The values on top of the stack, the top first. -/
def top (count : Nat) (instruction : String) : Exec (List Value) := do
  let vs := (← get).stack.take count
  if vs.length < count then throw (.stackUnderflow instruction)
  return vs

/-- Copies the values on top of the stack, in their order. -/
def duplicate (count : Nat) (instruction : String) : Exec Unit := do
  let vs ← top count instruction
  modify fun s => { s with stack := vs ++ s.stack }

/-- Drops the values on top of the stack. -/
def discard (count : Nat) (instruction : String) : Exec Unit := do
  let _ ← top count instruction
  modify fun s => { s with stack := s.stack.drop count }

def write (text : String) : Exec Unit := modify fun s => { s with output := s.output ++ text }

end Exec

end PascalStack
