import PascalStack.Grammar.Rules

/-!
# Shift and reduce automata

An automaton reads tokens with one token of lookahead.  It is given by data: the rules, and for each
state a row that says what to do.

* `Row`, `Automaton`    the data;
* `Automaton.move`      what a state does on a lookahead;
* `Automaton.leads`     whether a stack of states reaches a shift of the lookahead, or acceptance;
* `Automaton.expected`  the terminals that a stack of states can go on with.
-/

namespace PascalStack

/-- The place of a lookahead in a set of lookaheads; the end of the text comes last. -/
def lookaheadBit : Option Terminal → Nat
  | some (.keyword k) => k.ctorIdx
  | some .identifier => 29
  | some .integer => 30
  | some .real => 31
  | some .string => 32
  | some (.punct p) => 33 + p.ctorIdx
  | none => 55

/-- What one state does: on a terminal it shifts, it reduces by a rule on a set of lookaheads (bit
`lookaheadBit t` stands for `t`), and it goes on to a state after a phrase.  `repair` is the state after an error
mark, if the state takes one. -/
structure Row where
  shifts : List (Terminal × Nat)
  reductions : List (Nat × Nat)
  gotos : List (Nonterminal × Nat)
  repair : Option Nat

/-- The start state is 0; `accepting` is the state after a whole program. -/
structure Automaton where
  rules : Array Rule
  rows : Array Row
  accepting : Nat

inductive Move where
  | shift (state : Nat)
  | reduce (rule : Nat)
  | accept
  | fail
deriving DecidableEq

/-- The move of a row on a lookahead. -/
def Row.move (row : Row) (ahead : Option Terminal) : Move :=
  match ahead.bind fun t => row.shifts.lookup t with
  | some state => .shift state
  | none =>
    match row.reductions.find? fun (_, set) => set.testBit (lookaheadBit ahead) with
    | some (rule, _) => .reduce rule
    | none => .fail

namespace Automaton

/-- The move of a state on a lookahead; `none` is the end of the text. -/
def move (A : Automaton) (state : Nat) (ahead : Option Terminal) : Move :=
  if state = A.accepting ∧ ahead = none then .accept
  else
    match A.rows[state]? with
    | some row => row.move ahead
    | none => .fail

/-- The state after a phrase. -/
def goto? (A : Automaton) (state : Nat) (n : Nonterminal) : Option Nat :=
  A.rows[state]?.bind fun row => row.gotos.lookup n

/-- The state after an error mark. -/
def repair? (A : Automaton) (state : Nat) : Option Nat :=
  A.rows[state]?.bind Row.repair

/-- The number of moves allowed before a shift: each reduction that does not shorten the stack is
followed by few others that do not. -/
def budget (height : Nat) : Nat := 64 * (height + 4)

/-- The stack of states after a reduction. -/
def reduceStates (A : Automaton) (rule : Nat) (states : List Nat) : Option (List Nat) :=
  A.rules[rule]?.bind fun r =>
    let rest := states.drop r.rhs.length
    (A.goto? (rest.headD 0) r.lhs).map fun state => state :: rest

/-- Whether the moves from a stack of states, top first, end in a shift or in acceptance. -/
def leadsUpTo (A : Automaton) (ahead : Option Terminal) : (fuel : Nat) → List Nat → Bool
  | 0, _ => false
  | fuel + 1, states =>
    match A.move (states.headD 0) ahead with
    | .shift _ => true
    | .accept => true
    | .fail => false
    | .reduce rule =>
      match A.reduceStates rule states with
      | some next => leadsUpTo A ahead fuel next
      | none => false

def leads (A : Automaton) (ahead : Option Terminal) (states : List Nat) : Bool :=
  A.leadsUpTo ahead (budget states.length) states

/-- The terminals that can come next. -/
def expected (A : Automaton) (states : List Nat) : List Terminal :=
  Terminal.all.filter fun t => A.leads (some t) states

end Automaton

end PascalStack
