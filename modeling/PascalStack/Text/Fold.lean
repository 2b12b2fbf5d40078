import PascalStack.Text.Letters

/-!
# Names without regard to case

Two names are the same if they are equal in small letters.

* `Text.lower`   the small form of a character in its context;
* `foldName`     a name in small letters.
-/

namespace PascalStack

namespace Text

def inRanges (ranges : List (Nat × Nat)) (c : Char) : Bool :=
  ranges.any fun (first, last) => first ≤ c.toNat && c.toNat ≤ last

def isCased (c : Char) : Bool := inRanges casedRanges c
def isIgnorable (c : Char) : Bool := inRanges ignorableRanges c

/-- Whether a cased letter comes first, after marks that do not count. -/
def meetsCased (cs : List Char) : Bool :=
  match cs.dropWhile isIgnorable with
  | [] => false
  | c :: _ => isCased c

/-- The small form of a character beyond ASCII; `İ` keeps its dot as a mark of its own. -/
def lowerForeign (c : Char) : List Char :=
  if c = '\u0130' then ['i', '\u0307']
  else
    match capitalRanges.find? fun (first, last, step, _) =>
        first ≤ c.toNat && c.toNat ≤ last && (c.toNat - first) % step = 0 with
    | some (_, _, _, distance) => [Char.ofNat (c.toNat + distance).toNat]
    | none => [c]

/-- The small form of `c` between the characters `before`, nearest first, and `after`.  A capital sigma
at the end of a word has a form of its own. -/
def lower (before : List Char) (c : Char) (after : List Char) : List Char :=
  if c.toNat < 128 then [c.toLower]
  else if c = 'Σ' then [if meetsCased before && !meetsCased after then 'ς' else 'σ']
  else lowerForeign c

/-- The small forms of the characters `cs` after the characters `before`. -/
def lowerFrom (before : List Char) : List Char → List Char
  | [] => []
  | c :: cs => lower before c cs ++ lowerFrom (c :: before) cs

end Text

/-- A name in small letters. -/
def foldName (name : String) : String := String.ofList (Text.lowerFrom [] name.toList)

/-- A text with the capital letters of ASCII made small. -/
def foldAscii (text : String) : String := String.ofList (text.toList.map Char.toLower)

end PascalStack
