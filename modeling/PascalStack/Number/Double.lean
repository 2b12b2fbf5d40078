import PascalStack.Number.Integer
import PascalStack.Number.Shortest

/-!
# Real numbers and their text

Real numbers are IEEE doubles.  They are written with the fewest digits that read back to the same number
and never with an exponent, except in documents (`Double.document?`).

* `Double.parts`      sign, class and magnitude of a double, from its bits;
* `Double.plain`      the positional text: `2`, `0.5`, `-0`, `inf`, `NaN`;
* `Double.literal`    the same with a fraction part wherever the value is finite: `2.0`;
* `Double.document?`  the form used in documents, with an exponent outside `1e-5 .. 1e16`;
* `Double.read?`      reads digits, fraction and exponent, or a name of infinity or of not-a-number;
* `Double.truncate`   the integer part, at the nearest end of the range if it does not fit.
-/

namespace PascalStack.Double

/-- A double taken apart. -/
inductive Parts where
  | notANumber
  | infinite (negative : Bool)
  | zero (negative : Bool)
  | finite (negative : Bool) (magnitude : Binary)

/-- How many values the fraction field takes, `2 ^ 52`. -/
def fractionRange : Nat := 4503599627370496

/-- How many values the exponent field takes, `2 ^ 11`. -/
def exponentRange : Nat := 2048

/-- Reads the fields of the binary form: one bit of sign, eleven of exponent, 52 of fraction. -/
def parts (x : Float) : Parts :=
  let bits := x.toBits.toNat
  let negative : Bool := bits / (exponentRange * fractionRange) = 1
  let exponent : Nat := bits / fractionRange % exponentRange
  let fraction : Nat := bits % fractionRange
  if exponent + 1 = exponentRange then
    if fraction = 0 then .infinite negative else .notANumber
  else if exponent = 0 then
    if fraction = 0 then .zero negative else .finite negative ⟨fraction, -1074, false⟩
  else
    .finite negative ⟨fractionRange + fraction, (exponent : Int) - 1075, fraction = 0 && exponent ≠ 1⟩

def isFinite (x : Float) : Bool :=
  match parts x with
  | .notANumber | .infinite _ => false
  | .zero _ | .finite _ _ => true

/-- Positional digits of a decimal: zeros fill up to the point, and there is no point without a
fraction. -/
def positional (d : Decimal) : String :=
  let ds := Nat.toDigits 10 d.digits
  if 0 ≤ d.exponent then
    String.ofList (ds ++ List.replicate d.exponent.toNat '0')
  else
    let places := (-d.exponent).toNat
    if places < ds.length then
      String.ofList (ds.take (ds.length - places) ++ '.' :: ds.drop (ds.length - places))
    else
      String.ofList ('0' :: '.' :: (List.replicate (places - ds.length) '0' ++ ds))

/-- Appends `.0` to a text without a point. -/
def withPoint (text : String) : String :=
  if text.toList.contains '.' then text else text ++ ".0"

def signed (negative : Bool) (text : String) : String :=
  if negative then "-" ++ text else text

/-- The shortest positional text; a value half way between two shortest texts takes the larger. -/
def plain (x : Float) : String :=
  match parts x with
  | .notANumber => "NaN"
  | .infinite negative => signed negative "inf"
  | .zero negative => signed negative "0"
  | .finite negative b => signed negative (positional (b.shortest .up))

/-- The text of a real constant: a finite value always has a point. -/
def literal (x : Float) : String :=
  if isFinite x then withPoint (plain x) else plain x

/-- One digit before the point, and an exponent with its sign. -/
def scientific (d : Decimal) : String :=
  let ds := Nat.toDigits 10 d.digits
  let e := d.exponent + ds.length - 1
  let exponent := (if e < 0 then "e-" else "e+") ++ naturalText e.natAbs
  match ds with
  | [] => exponent
  | [c] => String.ofList [c] ++ exponent
  | c :: r => String.ofList (c :: '.' :: r) ++ exponent

/-- The text of a real in a document; values that are not finite have none.  The exponent form is
used below `1e-5` and from `1e16` on. -/
def document? (x : Float) : Option String :=
  match parts x with
  | .notANumber | .infinite _ => none
  | .zero negative => some (signed negative "0.0")
  | .finite negative b =>
    let d := b.shortest .even
    let e := d.exponent + (Nat.toDigits 10 d.digits).length - 1
    if e < -5 ∨ 16 ≤ e then some (signed negative (scientific d))
    else some (signed negative (withPoint (positional d)))

def infinity : Float := Float.ofBits 0x7FF0000000000000
def notANumber : Float := Float.ofBits 0x7FF8000000000000

/-- The double nearest to `m * 10 ^ e`.  Exponents far out of range are decided first, so that no
huge power is computed. -/
def ofDecimal (m : Nat) (e : Int) : Float :=
  let lead := e + (Nat.toDigits 10 m).length
  if m = 0 ∨ lead < -400 then Float.ofScientific 0 true 0
  else if 400 < lead then infinity
  else Float.ofScientific m (e < 0) e.natAbs

/-- The double nearest to the decimal `whole.fraction`. -/
def ofDigits (whole fraction : List Char) : Float :=
  ofDecimal (Nat.ofDigitChars 10 (whole ++ fraction) 0) (-fraction.length)

/-- An exponent mark, an optional sign and digits, to the end of the text. -/
def exponent? : List Char → Option Int
  | [] => some 0
  | c :: cs =>
    if c = 'e' ∨ c = 'E' then
      match cs with
      | '-' :: ds => (natural? ds).map fun n => -n
      | '+' :: ds => (natural? ds).map fun n => n
      | ds => (natural? ds).map fun n => n
    else none

/-- Digits with an optional point, at least one digit in all, and an optional exponent. -/
def magnitude? (cs : List Char) : Option Float :=
  let whole := cs.takeWhile Char.isDigit
  let rest := cs.dropWhile Char.isDigit
  let (fraction, rest) := match rest with
    | '.' :: r => (r.takeWhile Char.isDigit, r.dropWhile Char.isDigit)
    | r => ([], r)
  if whole.isEmpty && fraction.isEmpty then none
  else (exponent? rest).map fun e =>
    ofDecimal (Nat.ofDigitChars 10 (whole ++ fraction) 0) (e - fraction.length)

/-- A magnitude, or a name of infinity or of not-a-number in any case. -/
def unsigned? (cs : List Char) : Option Float :=
  let name := String.ofList (cs.map Char.toLower)
  if name = "inf" ∨ name = "infinity" then some infinity
  else if name = "nan" then some notANumber
  else magnitude? cs

/-- An optional sign before a magnitude. -/
def read? (cs : List Char) : Option Float :=
  match cs with
  | '-' :: r => (unsigned? r).map fun x => -x
  | '+' :: r => unsigned? r
  | r => unsigned? r

/-- The nearest double of a machine integer. -/
def ofInteger (n : Int64) : Float := Float.ofInt n.toInt

/-- The part before the point; beyond the range of `Int64` the nearest end, and zero for a value that
is not a number. -/
def truncate (x : Float) : Int64 :=
  match parts x with
  | .notANumber | .zero _ => 0
  | .infinite negative => Int64.ofInt (if negative then minInteger else maxInteger)
  | .finite negative b =>
    let r := Ratio.scale 2 b.mantissa b.exponent
    let n : Int := r.num / r.den
    Int64.ofInt (max minInteger (min maxInteger (if negative then -n else n)))

end PascalStack.Double
