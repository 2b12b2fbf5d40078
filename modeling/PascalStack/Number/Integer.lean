/-!
# Decimal integers

Integers are written in decimal digits and read back from them.

* `natural?`    a nonempty run of digits;
* `signed?`     an optional sign and digits, in the range of `Int64`;
* `unsigned?`   an optional `+` and digits, below `2 ^ 64`;
* `Int64.text`  the decimal text of a machine integer.
-/

namespace PascalStack

/-- The number that a nonempty run of decimal digits stands for. -/
def natural? (cs : List Char) : Option Nat :=
  if !cs.isEmpty && cs.all Char.isDigit then some (Nat.ofDigitChars 10 cs 0) else none

/-- The least integer of the machine, `-2 ^ 63`. -/
def minInteger : Int := -9223372036854775808

/-- The greatest integer of the machine, `2 ^ 63 - 1`. -/
def maxInteger : Int := 9223372036854775807

/-- `n` as a machine integer, if it is in range. -/
def machineInteger? (n : Int) : Option Int64 :=
  if minInteger ≤ n ∧ n ≤ maxInteger then some (Int64.ofInt n) else none

/-- An optional sign followed by digits; numbers out of range are refused. -/
def signed? (cs : List Char) : Option Int64 :=
  match cs with
  | '-' :: ds => (natural? ds).bind fun n => machineInteger? (-n)
  | '+' :: ds => (natural? ds).bind fun n => machineInteger? n
  | ds => (natural? ds).bind fun n => machineInteger? n

/-- The number of values of an unsigned machine word, `2 ^ 64`. -/
def wordSize : Nat := 18446744073709551616

/-- An optional `+` followed by digits; numbers that do not fit a word are refused. -/
def unsigned? (cs : List Char) : Option Nat :=
  let ds := match cs with
    | '+' :: ds => ds
    | ds => ds
  (natural? ds).bind fun n => if n < wordSize then some n else none

/-- The decimal text of a machine integer. -/
def integerText (n : Int64) : String := n.toInt.repr

/-- The decimal text of a natural number. -/
def naturalText (n : Nat) : String := n.repr

end PascalStack
