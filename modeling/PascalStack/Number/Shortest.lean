/-!
# The shortest decimal of a binary number

A finite binary number `m * 2 ^ q` stands for every real number that rounds to it.  Among the
decimals of that interval the one with the fewest digits is taken, and of two with as many digits
the nearer one.

* `Binary`          a magnitude `mantissa * 2 ^ exponent` and what its lower neighbour is like;
* `Decimal`         `digits * 10 ^ exponent`;
* `Binary.shortest` the shortest decimal, given what to do when two are equally near.
-/

namespace PascalStack

/-- A positive magnitude `mantissa * 2 ^ exponent`.  `narrow` says that the next smaller number is
only half a step away, as it is at a power of two. -/
structure Binary where
  mantissa : Nat
  exponent : Int
  narrow : Bool
deriving DecidableEq

/-- A decimal `digits * 10 ^ exponent`. -/
structure Decimal where
  digits : Nat
  exponent : Int
deriving DecidableEq

/-- What to do with a value half way between two decimals. -/
inductive Tie where
  | up
  | even
deriving DecidableEq

/-- A nonnegative fraction; the denominator is positive wherever one is built. -/
structure Ratio where
  num : Nat
  den : Nat
deriving DecidableEq

/-- `n * base ^ e`. -/
def Ratio.scale (base : Nat) (n : Nat) (e : Int) : Ratio :=
  if 0 ≤ e then ⟨n * Nat.pow base e.toNat, 1⟩ else ⟨n, Nat.pow base (-e).toNat⟩

/-- `r * 10 ^ e`. -/
def Ratio.shift (r : Ratio) (e : Int) : Ratio :=
  if 0 ≤ e then ⟨r.num * Nat.pow 10 e.toNat, r.den⟩
  else ⟨r.num, r.den * Nat.pow 10 (-e).toNat⟩

def Ratio.lt (a b : Ratio) : Bool := a.num * b.den < b.num * a.den
def Ratio.le (a b : Ratio) : Bool := a.num * b.den ≤ b.num * a.den

namespace Binary

/-- The value in quarters of a step of the last mantissa bit. -/
def quarters (b : Binary) (n : Nat) : Ratio := Ratio.scale 2 n (b.exponent - 2)

def value (b : Binary) : Ratio := b.quarters (4 * b.mantissa)
def upper (b : Binary) : Ratio := b.quarters (4 * b.mantissa + 2)
def lower (b : Binary) : Ratio := b.quarters (4 * b.mantissa - if b.narrow then 1 else 2)

/-- Whether the real number `r` rounds to `b`: the ends of the interval do if the mantissa is even. -/
def covers (b : Binary) (r : Ratio) : Bool :=
  if b.mantissa % 2 = 0 then b.lower.le r && r.le b.upper else b.lower.lt r && r.lt b.upper

/-- The exponent of the leading decimal digit, sought downwards from `e` with `fuel` steps. -/
def leading (r : Ratio) : (fuel : Nat) → (e : Int) → Int
  | 0, e => e
  | fuel + 1, e => if (Ratio.scale 10 1 e).le r then e else leading r fuel (e - 1)

/-- The two neighbours of `b` on the grid of multiples of `10 ^ k`, tried in order of distance. -/
def onGrid (b : Binary) (tie : Tie) (k : Int) : Option Nat :=
  let r := b.value.shift (-k)
  let low := r.num / r.den
  let rest := 2 * (r.num % r.den)
  let high : Bool :=
    if rest = r.den then
      match tie with
      | .up => true
      | .even => low % 2 = 1
    else r.den < rest
  let first := if high then low + 1 else low
  let second := if high then low else low + 1
  [first, second].find? fun n => b.covers (Ratio.scale 10 n k)

/-- The first grid, from `n` digits on, that holds a decimal of the interval. -/
def search (b : Binary) (tie : Tie) (lead : Int) : (fuel n : Nat) → Decimal
  | 0, _ => ⟨0, 0⟩
  | fuel + 1, n =>
    let k := lead + 1 - n
    match b.onGrid tie k with
    | some d => ⟨d, k⟩
    | none => search b tie lead fuel (n + 1)

end Binary

/-- Moves the trailing zeros of the digits into the exponent. -/
def Decimal.strip : (fuel : Nat) → Decimal → Decimal
  | 0, d => d
  | fuel + 1, d =>
    if d.digits % 10 = 0 ∧ d.digits ≠ 0 then strip fuel ⟨d.digits / 10, d.exponent + 1⟩ else d

/-- The shortest decimal that rounds to `b`; seventeen digits are enough for every double. -/
def Binary.shortest (b : Binary) (tie : Tie) : Decimal :=
  let top : Int := (b.exponent + b.mantissa.log2) * 30103 / 100000 + 1
  let lead := Binary.leading b.value 4 top
  (b.search tie lead 17 1).strip 17

end PascalStack
