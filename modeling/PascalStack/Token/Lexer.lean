import PascalStack.Token.Basic

/-!
# Source text as a sequence of pieces

The source is cut into pieces from left to right: runs of white space, closed comments, tokens, and
single characters that start none of these.

* `Piece`          a piece of source text, and `Piece.text` the characters it covers;
* `Piece.first`    the piece at the head of a nonempty text, and the text after it;
* `pieces`         the whole text cut into pieces;
* `locate`         the pieces with the line each one starts on;
* `lexemes`, `lexicalErrors`  the tokens and the illegal characters among them.
-/

namespace PascalStack

inductive Piece where
  | blank (text : List Char)
  | comment (text : List Char)
  | token (t : Token) (text : List Char)
  | illegal (c : Char)
deriving DecidableEq

def Piece.text : Piece → List Char
  | .blank text => text
  | .comment text => text
  | .token _ text => text
  | .illegal c => [c]

/-- White space between tokens. -/
def isGap (c : Char) : Bool :=
  c = ' ' || c = '\t' || c = '\r' || c = '\n' || c = '\x0c'

def isWordStart (c : Char) : Bool := c.isAlpha || c = '_'
def isWordPart (c : Char) : Bool := c.isAlphanum || c = '_'

/-- The keyword that a word spells, in any mixture of capital and small letters. -/
def Keyword.ofWord? (word : List Char) : Option Keyword :=
  let small := String.ofList (word.map Char.toLower)
  Keyword.all.find? fun k => k.text = small

/-- A word is a keyword or a name. -/
def Token.ofWord (word : List Char) : Token :=
  match Keyword.ofWord? word with
  | some k => .keyword k
  | none => .identifier (String.ofList word)

/-- The text up to and with the first `}`, and the text after it. -/
def closeBrace : List Char → Option (List Char × List Char)
  | [] => none
  | c :: cs =>
    if c = '\x7d' then some (['\x7d'], cs)
    else (closeBrace cs).map fun (body, rest) => (c :: body, rest)

/-- The text up to and with the first `*)`, and the text after it. -/
def closeParen : List Char → Option (List Char × List Char)
  | [] => none
  | c :: cs =>
    match c, cs with
    | '*', ')' :: rest => some (['*', ')'], rest)
    | _, _ => (closeParen cs).map fun (body, rest) => (c :: body, rest)

/-- Reads a string after its opening quote: the string, the text up to and with the closing quote,
and the text after it.  A quote followed by another stands for one quote of the string. -/
def closeQuote : List Char → Option (List Char × List Char × List Char)
  | [] => none
  | [c] => if c = '\'' then some ([], [c], []) else none
  | c :: d :: cs =>
    if c = '\'' then
      if d = '\'' then (closeQuote cs).map fun (s, body, rest) => (c :: s, c :: d :: body, rest)
      else some ([], [c], d :: cs)
    else (closeQuote (d :: cs)).map fun (s, body, rest) => (c :: s, c :: body, rest)

/-- The longest sign at the head of the text. -/
def Punct.first? : List Char → Option (Punct × List Char)
  | ':' :: '=' :: r => some (.assign, r)
  | ':' :: r => some (.colon, r)
  | ';' :: r => some (.semicolon, r)
  | '.' :: '.' :: r => some (.dotDot, r)
  | '.' :: r => some (.dot, r)
  | ',' :: r => some (.comma, r)
  | '+' :: r => some (.plus, r)
  | '-' :: r => some (.minus, r)
  | '*' :: '*' :: r => some (.starStar, r)
  | '*' :: r => some (.star, r)
  | '/' :: r => some (.slash, r)
  | '^' :: r => some (.upArrow, r)
  | '=' :: r => some (.equal, r)
  | '<' :: '>' :: r => some (.notEqual, r)
  | '<' :: '=' :: r => some (.lessEqual, r)
  | '<' :: r => some (.less, r)
  | '>' :: '=' :: r => some (.greaterEqual, r)
  | '>' :: r => some (.greater, r)
  | '(' :: r => some (.leftParen, r)
  | ')' :: r => some (.rightParen, r)
  | '[' :: r => some (.leftBracket, r)
  | ']' :: r => some (.rightBracket, r)
  | _ => none

namespace Piece

/-- A word that starts with `c`. -/
def word (c : Char) (cs : List Char) : Piece × List Char :=
  let w := c :: cs.takeWhile isWordPart
  (.token (.ofWord w) w, cs.dropWhile isWordPart)

/-- A number that starts with the digit `c`: digits with a point between them are a real, other
digits are an integer, and `c` alone is illegal if that integer does not fit. -/
def number (c : Char) (cs : List Char) : Piece × List Char :=
  let whole := c :: cs.takeWhile Char.isDigit
  let integer : Piece × List Char :=
    match machineInteger? (Nat.ofDigitChars 10 whole 0) with
    | some n => (.token (.integer n) whole, cs.dropWhile Char.isDigit)
    | none => (.illegal c, cs)
  match cs.dropWhile Char.isDigit with
  | '.' :: d :: r =>
    if d.isDigit then
      let fraction := d :: r.takeWhile Char.isDigit
      (.token (.real (Double.ofDigits whole fraction)) (whole ++ '.' :: fraction),
        r.dropWhile Char.isDigit)
    else integer
  | _ => integer

/-- A sign, or an illegal character. -/
def sign (c : Char) (cs : List Char) : Piece × List Char :=
  match Punct.first? (c :: cs) with
  | some (p, rest) => (.token (.punct p) p.text.toList, rest)
  | none => (.illegal c, cs)

/-- The piece at the head of the text `c :: cs`, and the text after it.  An opening brace, quote or
`(*` that is never closed is an illegal character by itself. -/
def first (c : Char) (cs : List Char) : Piece × List Char :=
  if isGap c then (.blank (c :: cs.takeWhile isGap), cs.dropWhile isGap)
  else if isWordStart c then word c cs
  else if c.isDigit then number c cs
  else
    match c, cs with
    | '\x7b', _ =>
      match closeBrace cs with
      | some (body, rest) => (.comment (c :: body), rest)
      | none => (.illegal c, cs)
    | '(', '*' :: r =>
      match closeParen r with
      | some (body, rest) => (.comment (c :: '*' :: body), rest)
      | none => (.illegal c, cs)
    | '\'', _ =>
      match closeQuote cs with
      | some (s, body, rest) => (.token (.string (String.ofList s)) (c :: body), rest)
      | none => (.illegal c, cs)
    | _, _ => sign c cs

end Piece

/-- Cuts a text into at most `fuel` pieces. -/
def piecesUpTo : (fuel : Nat) → List Char → List Piece
  | 0, _ => []
  | _, [] => []
  | fuel + 1, c :: cs => (Piece.first c cs).1 :: piecesUpTo fuel (Piece.first c cs).2

/-- The pieces of a text; there are no more of them than characters. -/
def pieces (cs : List Char) : List Piece := piecesUpTo cs.length cs

/-- The line after a text that starts on `line`. -/
def lineAfter (line : Nat) (text : List Char) : Nat := line + text.count '\n'

/-- Pieces with the line each one starts on. -/
def locate (line : Nat) : List Piece → List (Nat × Piece)
  | [] => []
  | p :: ps => (line, p) :: locate (lineAfter line p.text) ps

/-- The pieces of a source text with their lines, counted from 1. -/
def scan (source : String) : List (Nat × Piece) := locate 1 (pieces source.toList)

def lexemesOf (ps : List (Nat × Piece)) : List Lexeme :=
  ps.filterMap fun
    | (line, .token t _) => some ⟨line, t⟩
    | _ => none

def errorsOf (ps : List (Nat × Piece)) : List LexicalError :=
  ps.filterMap fun
    | (line, .illegal c) => some ⟨line, c⟩
    | _ => none

/-- The tokens of a source text. -/
def lexemes (source : String) : List Lexeme := lexemesOf (scan source)

/-- The characters of a source text that belong to no token. -/
def lexicalErrors (source : String) : List LexicalError := errorsOf (scan source)

/-- Each token with the number of illegal characters before it, of which `n` are already counted. -/
def countErrors (n : Nat) : List (Nat × Piece) → List (Lexeme × Nat)
  | [] => []
  | (line, .token t _) :: ps => (⟨line, t⟩, n) :: countErrors n ps
  | (_, .illegal _) :: ps => countErrors (n + 1) ps
  | _ :: ps => countErrors n ps

end PascalStack
