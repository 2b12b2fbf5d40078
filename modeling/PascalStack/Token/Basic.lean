import PascalStack.Number.Double

/-!
# Tokens

* `Keyword`, `Punct`   the fixed words and signs of the language;
* `Token`              a word, a sign, a name, a number or a string;
* `Terminal`           a token without its contents, as the grammar sees it;
* `Token.text`         how a token is written;
* `Token.kind`         what it is called in messages;
* `Lexeme`             a token and the line it starts on.
-/

namespace PascalStack

inductive Keyword where
  | program | var | begin | «end» | function | forward | external | «if» | «then» | «else»
  | while | «do» | for | to | downto | array | of | div | mod | and | or | not | nil | «in»
  | real | integer | boolean | string | char
deriving DecidableEq, Repr

inductive Punct where
  | assign | colon | semicolon | dot | comma | dotDot | plus | minus | star | slash | starStar
  | upArrow | equal | notEqual | less | greater | lessEqual | greaterEqual
  | leftParen | rightParen | leftBracket | rightBracket
deriving DecidableEq, Repr

/-- All keywords, in the order in which messages list them. -/
def Keyword.all : List Keyword :=
  [.program, .var, .begin, .end, .function, .forward, .external, .if, .then, .else,
   .while, .do, .for, .to, .downto, .array, .of, .div, .mod, .and, .or, .not, .nil, .in,
   .real, .integer, .boolean, .string, .char]

/-- All signs, in the order in which messages list them. -/
def Punct.all : List Punct :=
  [.assign, .colon, .semicolon, .dot, .comma, .dotDot, .plus, .minus, .star, .slash, .starStar,
   .upArrow, .equal, .notEqual, .less, .greater, .lessEqual, .greaterEqual,
   .leftParen, .rightParen, .leftBracket, .rightBracket]

def Keyword.text : Keyword → String
  | .program => "program" | .var => "var" | .begin => "begin" | .end => "end"
  | .function => "function" | .forward => "forward" | .external => "external"
  | .if => "if" | .then => "then" | .else => "else" | .while => "while" | .do => "do"
  | .for => "for" | .to => "to" | .downto => "downto" | .array => "array" | .of => "of"
  | .div => "div" | .mod => "mod" | .and => "and" | .or => "or" | .not => "not"
  | .nil => "nil" | .in => "in" | .real => "real" | .integer => "integer"
  | .boolean => "boolean" | .string => "string" | .char => "char"

/-- The name of a keyword in messages: a type name is marked by a `T`. -/
def Keyword.kind : Keyword → String
  | .program => "PROGRAM" | .var => "VAR" | .begin => "BEGIN" | .end => "END"
  | .function => "FUNCTION" | .forward => "FORWARD" | .external => "EXTERNAL"
  | .if => "IF" | .then => "THEN" | .else => "ELSE" | .while => "WHILE" | .do => "DO"
  | .for => "FOR" | .to => "TO" | .downto => "DOWNTO" | .array => "ARRAY" | .of => "OF"
  | .div => "DIV" | .mod => "MOD" | .and => "AND" | .or => "OR" | .not => "NOT"
  | .nil => "NIL" | .in => "IN" | .real => "TREAL" | .integer => "TINTEGER"
  | .boolean => "TBOOLEAN" | .string => "TSTRING" | .char => "TCHAR"

def Punct.text : Punct → String
  | .assign => ":=" | .colon => ":" | .semicolon => ";" | .dot => "." | .comma => ","
  | .dotDot => ".." | .plus => "+" | .minus => "-" | .star => "*" | .slash => "/"
  | .starStar => "**" | .upArrow => "^" | .equal => "=" | .notEqual => "<>" | .less => "<"
  | .greater => ">" | .lessEqual => "<=" | .greaterEqual => ">=" | .leftParen => "("
  | .rightParen => ")" | .leftBracket => "[" | .rightBracket => "]"

def Punct.kind : Punct → String
  | .assign => "ASSIGNMENT" | .colon => "COLON" | .semicolon => "SEMICOLON" | .dot => "DOT"
  | .comma => "COMMA" | .dotDot => "DOTDOT" | .plus => "PLUS" | .minus => "MINUS"
  | .star => "STAR" | .slash => "SLASH" | .starStar => "STARSTAR" | .upArrow => "UPARROW"
  | .equal => "EQUAL" | .notEqual => "NOTEQUAL" | .less => "LT" | .greater => "GT"
  | .lessEqual => "LE" | .greaterEqual => "GE" | .leftParen => "LPAREN"
  | .rightParen => "RPAREN" | .leftBracket => "LBRAC" | .rightBracket => "RBRAC"

inductive Token where
  | keyword (k : Keyword)
  | identifier (name : String)
  | integer (n : Int64)
  | real (x : Float)
  | string (s : String)
  | punct (p : Punct)
deriving DecidableEq

/-- A token without its contents. -/
inductive Terminal where
  | keyword (k : Keyword)
  | identifier
  | integer
  | real
  | string
  | punct (p : Punct)
deriving DecidableEq

def Token.terminal : Token → Terminal
  | .keyword k => .keyword k
  | .identifier _ => .identifier
  | .integer _ => .integer
  | .real _ => .real
  | .string _ => .string
  | .punct p => .punct p

/-- All terminals, in the order in which messages list them. -/
def Terminal.all : List Terminal :=
  Keyword.all.map .keyword ++ [.identifier, .integer, .real, .string] ++ Punct.all.map .punct

/-- The name of a terminal in a list of what was expected. -/
def Terminal.name : Terminal → String
  | .keyword k => k.text
  | .identifier => "IDENTIFIER"
  | .integer => "DIGSEQ"
  | .real => "REALNUMBER"
  | .string => "CHARACTER_STRING"
  | .punct p => p.text

/-- The name of a terminal as an unexpected token. -/
def Terminal.kind : Terminal → String
  | .keyword k => k.kind
  | .identifier => "IDENTIFIER"
  | .integer => "DIGSEQ"
  | .real => "REALNUMBER"
  | .string => "CHARACTER_STRING"
  | .punct p => p.kind

def Token.kind (t : Token) : String := t.terminal.kind

/-- Writes every quote twice. -/
def doubleQuotes : List Char → List Char
  | [] => []
  | c :: cs => if c = '\'' then '\'' :: '\'' :: doubleQuotes cs else c :: doubleQuotes cs

/-- A string literal: quotes around the text, and every quote inside it twice. -/
def quoted (s : String) : String :=
  String.ofList ('\'' :: (doubleQuotes s.toList ++ ['\'']))

/-- How a token is written; keywords are written in small letters. -/
def Token.text : Token → String
  | .keyword k => k.text
  | .identifier name => name
  | .integer n => integerText n
  | .real x => Double.literal x
  | .string s => quoted s
  | .punct p => p.text

/-- A token and the line it starts on. -/
structure Lexeme where
  line : Nat
  token : Token
deriving DecidableEq

/-- A character that starts no token, and its line. -/
structure LexicalError where
  line : Nat
  character : Char
deriving DecidableEq

def LexicalError.message (e : LexicalError) : String :=
  "caractere ilegal '" ++ e.character.toString ++ "' na linha " ++ naturalText e.line

end PascalStack
