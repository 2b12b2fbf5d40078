import PascalStack.Number.Double

/-!
# Documents

Nested lists and records, written as indented JSON.

* `Document`          a value: nothing, text, a number, a list or a record;
* `Document.render`   its text, two blanks a level.
-/

namespace PascalStack

inductive Document where
  | null
  | text (s : String)
  | integer (n : Int64)
  | real (x : Float)
  | list (items : List Document)
  | record (fields : List (String × Document))

namespace Document

/-- A record of one field, for a case with contents. -/
def tagged (tag : String) (contents : Document) : Document := record [(tag, contents)]

def texts (ss : List String) : Document := list (ss.map text)

/-- Two hexadecimal digits. -/
def hexPair (n : Nat) : List Char := [Nat.digitChar (n / 16), Nat.digitChar (n % 16)]

/-- A character of a text.  Quotes, backslashes and control characters are escaped. -/
def escapeChar (c : Char) : List Char :=
  match c with
  | '"' => ['\\', '"']
  | '\\' => ['\\', '\\']
  | '\n' => ['\\', 'n']
  | '\r' => ['\\', 'r']
  | '\t' => ['\\', 't']
  | '\x08' => ['\\', 'b']
  | '\x0c' => ['\\', 'f']
  | c => if c.toNat < 32 then ['\\', 'u', '0', '0'] ++ hexPair c.toNat else [c]

def quote (s : String) : String :=
  String.ofList ('"' :: (s.toList.flatMap escapeChar ++ ['"']))

/-- A line feed and the blanks of a level. -/
def newline (depth : Nat) : String := "\n" ++ String.ofList (List.replicate (2 * depth) ' ')

mutual

/-- The text of a document whose closing bracket stands at depth `depth`. -/
def renderAt (depth : Nat) : Document → String
  | null => "null"
  | text s => quote s
  | integer n => integerText n
  | real x => (Double.document? x).getD "null"
  | list [] => "[]"
  | list (d :: ds) =>
    "[" ++ newline (depth + 1) ++ renderAt (depth + 1) d ++ renderItems (depth + 1) ds
      ++ newline depth ++ "]"
  | record [] => "\x7b\x7d"
  | record ((key, d) :: fields) =>
    "\x7b" ++ newline (depth + 1) ++ quote key ++ ": " ++ renderAt (depth + 1) d
      ++ renderFields (depth + 1) fields ++ newline depth ++ "\x7d"

def renderItems (depth : Nat) : List Document → String
  | [] => ""
  | d :: ds => "," ++ newline depth ++ renderAt depth d ++ renderItems depth ds

def renderFields (depth : Nat) : List (String × Document) → String
  | [] => ""
  | (key, d) :: fields =>
    "," ++ newline depth ++ quote key ++ ": " ++ renderAt depth d ++ renderFields depth fields

end

def render (d : Document) : String := renderAt 0 d

end Document

end PascalStack
