/-!
# Blanks

* `Text.isBlank`   white space in any script;
* `Text.trim`      a text without blanks at its ends;
* `Text.lines`     a text cut at its line feeds.
-/

namespace PascalStack.Text

/-- White space: tabs, line ends, the space and the spaces of other scripts. -/
def isBlank (c : Char) : Bool :=
  let n := c.toNat
  (9 ≤ n && n ≤ 13) || n = 0x20 || n = 0x85 || n = 0xa0 || n = 0x1680
    || (0x2000 ≤ n && n ≤ 0x200a) || n = 0x2028 || n = 0x2029 || n = 0x202f || n = 0x205f
    || n = 0x3000

def trimStart (cs : List Char) : List Char := cs.dropWhile isBlank

/-- The text up to its last character that is not a blank. -/
def trimEnd (cs : List Char) : List Char := (cs.reverse.dropWhile isBlank).reverse

def trim (cs : List Char) : List Char := trimEnd (trimStart cs)

/-- Puts a character before the first line; a line feed starts a new one. -/
def consLine (c : Char) (ls : List (List Char)) : List (List Char) :=
  if c = '\n' then [] :: ls
  else
    match ls with
    | [] => [[c]]
    | l :: ls => (c :: l) :: ls

/-- The parts between line feeds; there is one more of them than line feeds. -/
def lines (cs : List Char) : List (List Char) := cs.foldr consLine [[]]

end PascalStack.Text
