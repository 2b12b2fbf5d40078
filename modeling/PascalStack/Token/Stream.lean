import PascalStack.Token.Lexer

/-!
# Tokens on demand

Places in a text are counted in bytes.  A matcher finds one token after the other in a text of its own.  A lexer
starts one on the source text, and another behind an illegal character if more than that has been read; it turns
the places of a match into places of the source, and these into lines.

* `byteCount`, `textFrom`   texts and places;
* `LineIndex`      the places at which lines start, and a search for the line of a place;
* `Matcher`        finds tokens, and where there is none;
* `Lexer`          a source text, what has been read of it, and the illegal characters noted so far;
* `Lexer.next`     the next token, and `Lexer.drain` all that are left.

There is no result, `none`, where a text would be cut inside a character, or of a loop that is not over after the
turns it is given: one for each character, and one more.
-/

namespace PascalStack

/-! ## places -/

def byteCount : List Char → Nat
  | [] => 0
  | c :: cs => c.utf8Size + byteCount cs

/-- The text from a place on, which has to be the start of a character or the end. -/
def textFrom : List Char → (place : Nat) → Option (List Char)
  | [], place => if place = 0 then some [] else none
  | c :: cs, place =>
    if place = 0 then some (c :: cs)
    else if c.utf8Size ≤ place then textFrom cs (place - c.utf8Size)
    else none

/-- The places of the line feeds in a text that starts at `place`. -/
def lineFeeds (place : Nat) : List Char → List Nat
  | [] => []
  | c :: cs =>
    if c = '\n' then place :: lineFeeds (place + c.utf8Size) cs
    else lineFeeds (place + c.utf8Size) cs

structure LineIndex where
  starts : Array Nat

namespace LineIndex

/-- The first line starts with the text, and every other one behind a line feed. -/
def of (text : List Char) : LineIndex := ⟨(0 :: (lineFeeds 0 text).map (· + 1)).toArray⟩

/-- The number of starts that are not behind `place`, if it is between `base` and `base + size`.  Of the starts
with these numbers one half is left out at a time. -/
def search (starts : Array Nat) (place base size : Nat) (hsize : 0 < size)
    (h : base + size ≤ starts.size) : Nat :=
  if size = 1 then
    if starts[base] ≤ place then base + 1 else base
  else if starts[base + size / 2] ≤ place then
    search starts place (base + size / 2) (size - size / 2) (by omega) (by omega)
  else search starts place base (size - size / 2) (by omega) (by omega)
termination_by size

/-- The line of a place, counted from 1. -/
def lineOf (lines : LineIndex) (place : Nat) : Nat :=
  if h : 0 < lines.starts.size then
    search lines.starts place 0 lines.starts.size h (Nat.le_of_eq (Nat.zero_add _))
  else 0

end LineIndex

/-! ## matches -/

inductive Match where
  | ended
  | token (t : Token)
  | illegal

/-- Where the last match of a matcher is in its text, and the text behind it. -/
structure Matcher where
  start : Nat
  stop : Nat
  rest : List Char

/-- How many characters behind `c` a matcher has read when it turns out that no token begins with `c`. -/
abbrev Reach := (c : Char) → (cs : List Char) → Nat

/-- All digits of a number that is too large have been read, both characters of an opening `(*`, and everything
behind a brace or a quote that is not closed. -/
def reachOfRules : Reach := fun c cs =>
  if c.isDigit then (cs.takeWhile Char.isDigit).length
  else
    match c, cs with
    | '(', '*' :: _ => 1
    | '\x7b', _ => cs.length
    | '\'', _ => cs.length
    | _, _ => 0

namespace Matcher

def of (text : List Char) : Matcher := ⟨0, 0, text⟩

/-- A match of `text`, right behind the last one. -/
def read (m : Matcher) (text rest : List Char) : Matcher := ⟨m.stop, m.stop + byteCount text, rest⟩

/-- The next match; white space and comments are passed over. -/
def nextUpTo (reach : Reach) : (turns : Nat) → Matcher → Option (Match × Matcher)
  | 0, _ => none
  | turns + 1, m =>
    match m.rest with
    | [] => some (.ended, m.read [] [])
    | c :: cs =>
      match Piece.first c cs with
      | (.blank text, rest) => (m.read text rest).nextUpTo reach turns
      | (.comment text, rest) => (m.read text rest).nextUpTo reach turns
      | (.token t text, rest) => some (.token t, m.read text rest)
      | (.illegal _, _) => some (.illegal, m.read (c :: cs.take (reach c cs)) (cs.drop (reach c cs)))

def next (reach : Reach) (m : Matcher) : Option (Match × Matcher) := m.nextUpTo reach (m.rest.length + 1)

end Matcher

/-! ## tokens with lines -/

/-- The text of the matcher starts at the place `offset` of the source text. -/
structure Lexer where
  source : List Char
  inner : Matcher
  offset : Nat
  lines : LineIndex
  errors : List LexicalError

namespace Lexer

def of (source : String) : Lexer :=
  ⟨source.toList, .of source.toList, 0, .of source.toList, []⟩

def restartAt (l : Lexer) (place : Nat) : Option Lexer := do
  let rest ← textFrom l.source place
  return { l with offset := place, inner := .of rest }

/-- Notes the character at the place `start`, and goes on right behind it, also if the matcher has read more. -/
def skip (l : Lexer) (start line : Nat) : Option Lexer := do
  let text ← textFrom l.source start
  let c := text.headD '\x00'
  let l := { l with errors := l.errors ++ [⟨line, c⟩] }
  let resume := start + c.utf8Size
  if l.offset + l.inner.stop = resume then return l else l.restartAt resume

/-- The next token, if there is one. -/
def nextUpTo (reach : Reach) : (turns : Nat) → Lexer → Option (Option Lexeme × Lexer)
  | 0, _ => none
  | turns + 1, l => do
    let (found, inner) ← l.inner.next reach
    let l := { l with inner := inner }
    let start := l.offset + inner.start
    let line := l.lines.lineOf start
    match found with
    | .ended => return (none, l)
    | .token t => return (some ⟨line, t⟩, l)
    | .illegal =>
      let l ← l.skip start line
      l.nextUpTo reach turns

def next (reach : Reach) (l : Lexer) : Option (Option Lexeme × Lexer) :=
  l.nextUpTo reach (l.source.length + 1)

/-- The tokens that are left, each with the number of illegal characters noted when it is found. -/
def drainUpTo (reach : Reach) : (turns : Nat) → Lexer → Option (List (Lexeme × Nat) × Lexer)
  | 0, _ => none
  | turns + 1, l => do
    match ← l.next reach with
    | (none, l) => return ([], l)
    | (some x, l) =>
      let (xs, last) ← l.drainUpTo reach turns
      return ((x, l.errors.length) :: xs, last)

def drain (reach : Reach) (l : Lexer) : Option (List (Lexeme × Nat) × Lexer) :=
  l.drainUpTo reach (l.source.length + 1)

end Lexer

end PascalStack
