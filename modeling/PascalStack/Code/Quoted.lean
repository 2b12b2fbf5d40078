/-!
# Quoted text in code

A string operand stands between double quotes on one line.

* `escape`     the characters of a text between the quotes;
* `unescape?`  reads them back; any other character after a backslash stands for itself;
* `quoted?`    the text of a quoted operand.
-/

namespace PascalStack.Code

/-- Backslashes, double quotes, line ends and tabs are written with a backslash. -/
def escape : List Char → List Char
  | [] => []
  | c :: cs =>
    match c with
    | '\\' => '\\' :: '\\' :: escape cs
    | '"' => '\\' :: '"' :: escape cs
    | '\n' => '\\' :: 'n' :: escape cs
    | '\r' => '\\' :: 'r' :: escape cs
    | '\t' => '\\' :: 't' :: escape cs
    | c => c :: escape cs

/-- The character that `c` stands for after a backslash. -/
def unescapeChar (c : Char) : Char :=
  match c with
  | 'n' => '\n'
  | 't' => '\t'
  | 'r' => '\r'
  | c => c

/-- Reads escaped text; a backslash at the end is refused. -/
def unescape? : List Char → Option (List Char)
  | [] => some []
  | ['\\'] => none
  | '\\' :: c :: cs => (unescape? cs).map fun r => unescapeChar c :: r
  | c :: cs => (unescape? cs).map fun r => c :: r

/-- A text between double quotes. -/
def quote (text : String) : String :=
  String.ofList ('"' :: (escape text.toList ++ ['"']))

/-- The characters before a final double quote. -/
def beforeQuote? : List Char → Option (List Char)
  | [] => none
  | ['"'] => some []
  | c :: cs => (beforeQuote? cs).map fun r => c :: r

/-- The text of an operand that starts and ends with a double quote. -/
def quoted? (operand : String) : Option String :=
  match operand.toList with
  | '"' :: cs => ((beforeQuote? cs).bind unescape?).map String.ofList
  | _ => none

end PascalStack.Code
