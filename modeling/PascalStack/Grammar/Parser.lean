import PascalStack.Grammar.Automaton

/-!
# Running an automaton with repair of errors

The stack holds, for each symbol recognised so far, the state after it and its value.  When no move
is possible the stack is cut back to a state that takes an error mark after which the lookahead can
follow; tokens are passed over until there is one.

* `Frame`, `Config`      the stack, and the repairs already completed;
* `Automaton.reduce`     one reduction;
* `Automaton.settle`     reductions until the lookahead can be shifted, or nothing can be done;
* `Automaton.repair`     the search for a place to go on after an error;
* `Automaton.parse`      the run over a list of tokens.
-/

namespace PascalStack

/-- A recognised symbol, its value and the state after it. -/
structure Frame where
  state : Nat
  symbol : Symbol
  value : symbol.Value

/-- The repair that an error mark stands for. -/
def Frame.recovery? : Frame → Option Recovery
  | ⟨_, .error, r⟩ => some r
  | _ => none

/-- The program that a frame stands for. -/
def Frame.program? : Frame → Option Program
  | ⟨_, .nonterminal .program, p⟩ => some p
  | _ => none

/-- The state on top of a stack; the empty stack is in the start state. -/
def topState (stack : List Frame) : Nat := (stack.map Frame.state).headD 0

/-- The stack, top first, and the repairs whose error marks have been reduced, oldest first. -/
structure Config where
  stack : List Frame
  recovered : List Recovery

/-- Gives the values of frames, which must be those of the symbols, to an action. -/
def feed {R : Type} : (rhs : List Symbol) → Action rhs R → List Frame → Option R
  | [], result, [] => some result
  | X :: rest, action, f :: fs =>
    if h : f.symbol = X then feed rest (action (h ▸ f.value)) fs else none
  | _, _, _ => none

/-- What a parse makes of its input: a program or the error that ended it, and the repairs made. -/
structure Outcome where
  result : Except SyntaxError Program
  recovered : List Recovery

/-- Where a run of reductions ends. -/
inductive Settled where
  | shift (state : Nat)
  | accept
  | stuck

namespace Automaton

/-- Replaces the frames of the right side of a rule by one frame of its left side. -/
def reduce (A : Automaton) (rule : Nat) (c : Config) : Option Config :=
  A.rules[rule]?.bind fun r =>
    let popped := (c.stack.take r.rhs.length).reverse
    let rest := c.stack.drop r.rhs.length
    (feed r.rhs r.action popped).bind fun value =>
      (A.goto? (topState rest) r.lhs).map fun state =>
        ⟨⟨state, .nonterminal r.lhs, value⟩ :: rest,
          c.recovered ++ popped.filterMap Frame.recovery?⟩

/-- Reduces while the lookahead asks for it. -/
def settleUpTo (A : Automaton) (ahead : Option Terminal) :
    (fuel : Nat) → Config → Config × Settled
  | 0, c => (c, .stuck)
  | fuel + 1, c =>
    match A.move (topState c.stack) ahead with
    | .shift state => (c, .shift state)
    | .accept => (c, .accept)
    | .fail => (c, .stuck)
    | .reduce rule =>
      match A.reduce rule c with
      | some next => settleUpTo A ahead fuel next
      | none => (c, .stuck)

def settle (A : Automaton) (ahead : Option Terminal) (c : Config) : Config × Settled :=
  A.settleUpTo ahead (budget c.stack.length) c

/-- Puts an error mark on a stack, if the lookahead can follow it there. -/
def repairHere (A : Automaton) (ahead : Option Terminal) (r : Recovery) (stack : List Frame) :
    Option (List Frame) :=
  (A.repair? (topState stack)).bind fun state =>
    if A.leads ahead (state :: stack.map Frame.state) then some (⟨state, .error, r⟩ :: stack)
    else none

/-- Cuts the stack back as little as possible so that an error mark can be put on it. -/
def repair (A : Automaton) (ahead : Option Terminal) (r : Recovery) :
    List Frame → Option (List Frame)
  | [] => A.repairHere ahead r []
  | f :: rest =>
    match A.repairHere ahead r (f :: rest) with
    | some stack => some stack
    | none => repair A ahead r rest

/-- The error of a token, or of the end of the text, that the stack cannot go on with. -/
def errorAt (A : Automaton) (position line : Nat) (token : Option Token) (c : Config) :
    SyntaxError :=
  ⟨position, line, token, A.expected (c.stack.map Frame.state)⟩

/-- Accepts at the end of the text, or fails with the error `e`. -/
def finish (A : Automaton) (e : SyntaxError) (c : Config) : Outcome :=
  match A.settle none c with
  | (c, .accept) =>
    match c.stack.head?.bind Frame.program? with
    | some p => ⟨.ok p, c.recovered⟩
    | none => ⟨.error e, c.recovered⟩
  | (c, _) => ⟨.error e, c.recovered⟩

/-- Repairs an error at the end of the text. -/
def finishAfter (A : Automaton) (r : Recovery) (c : Config) : Outcome :=
  match A.repair none r c.stack with
  | some stack => A.finish r.error ⟨stack, c.recovered⟩
  | none => ⟨.error r.error, c.recovered⟩

/-- The end of the text without an error pending. -/
def atEnd (A : Automaton) (position line : Nat) (c : Config) : Outcome :=
  match A.settle none c with
  | (c, .accept) => A.finish (A.errorAt position line none c) c
  | (c, _) => A.finishAfter ⟨A.errorAt position line none c, []⟩ c

/-- Shifts a token. -/
def shift (state : Nat) (t : Token) (c : Config) : Config :=
  ⟨⟨state, .terminal t.terminal, t.value⟩ :: c.stack, c.recovered⟩

/-- Reads the tokens from `position` on; `line` is the line of the token before.  `pending` is an
error for which no repair has been found yet. -/
def parseFrom (A : Automaton) :
    List Lexeme → (position line : Nat) → (pending : Option Recovery) → Config → Outcome
  | [], position, line, none, c => A.atEnd position line c
  | [], _, _, some r, c => A.finishAfter r c
  | x :: rest, position, _, pending, c =>
    let ahead := some x.token.terminal
    let (c, settled) :=
      match pending with
      | none => A.settle ahead c
      | some _ => (c, .stuck)
    match settled with
    | .shift state => parseFrom A rest (position + 1) x.line none (shift state x.token c)
    | _ =>
      let r := pending.getD ⟨A.errorAt position x.line (some x.token) c, []⟩
      match A.repair ahead r c.stack with
      | some stack =>
        match A.settle ahead ⟨stack, c.recovered⟩ with
        | (c, .shift state) =>
          parseFrom A rest (position + 1) x.line none (shift state x.token c)
        | (c, _) => ⟨.error r.error, c.recovered⟩
      | none =>
        parseFrom A rest (position + 1) x.line (some ⟨r.error, r.dropped ++ [x]⟩) c

/-- Parses a list of tokens. -/
def parse (A : Automaton) (tokens : List Lexeme) : Outcome :=
  A.parseFrom tokens 0 0 none ⟨[], []⟩

end Automaton

end PascalStack
