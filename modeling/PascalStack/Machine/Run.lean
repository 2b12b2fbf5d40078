import PascalStack.Machine.Exec

/-!
# Runs

* `step`      runs the instruction at a position of decoded code;
* `runFrom`   runs at most a number of instructions;
* `run`       runs loaded code from its first instruction, with or without a limit of steps;
* `execute`   loads and runs a text under the usual limit.
-/

namespace PascalStack

/-- Decoded code. -/
abbrev Code := Array (Except Fault (Op Nat))

/-- How far a run came. -/
inductive Status where
  | finished
  | failed (f : Fault)
  | suspended (position : Nat)
deriving DecidableEq

/-- Runs the instruction at a position; there is none past the end. -/
def step (code : Code) (position : Nat) (s : State) : Status × State :=
  match code[position]? with
  | none => (.finished, s)
  | some (.error f) => (.failed f, s)
  | some (.ok op) =>
    match op.exec position s with
    | .ok (.goto next) s => (.suspended next, s)
    | .ok .stop s => (.finished, s)
    | .error f s => (.failed f, s)

/-- Runs at most `fuel` instructions from a position. -/
def runFrom (code : Code) : (fuel : Nat) → (position : Nat) → State → Status × State
  | 0, position, s => if position < code.size then (.suspended position, s) else (.finished, s)
  | fuel + 1, position, s =>
    match step code position s with
    | (.suspended next, s) => runFrom code fuel next s
    | result => result

/-- The number of steps of a run without a limit, `2 ^ 62`: more than can ever be made. -/
def unlimited : Nat := 4611686018427387904

/-- The fault of a run that used up its steps. -/
def Status.fault? (limit : Nat) : Status → Option Fault
  | finished => none
  | failed f => some f
  | suspended _ => some (.stepLimit limit)

/-- Runs code from its first instruction. -/
def run (code : Code) (limit : Option Nat) (s : State) : Option Fault × State :=
  let steps := limit.getD unlimited
  let (status, s) := runFrom code steps 0 s
  (status.fault? steps, s)

/-- The usual limit of steps. -/
def usualLimit : Nat := 5000000

/-- Loads and runs a text: what it writes, unless it fails. -/
def execute (text : String) (input : List UInt8) : Except Fault String := do
  let img ← load text
  match run img.code (some usualLimit) (.initial input) with
  | (none, s) => return s.output
  | (some f, _) => throw f

end PascalStack
