/-!
# Shortest decimals

A binary floating-point number stands for every real that rounds to it. Of
the decimals among those reals, `BinaryFormat.shortest` picks one with the
fewest digits, and among these one nearest to the number itself.

The search tries one digit, then two, and so on. For a given count it looks
at the two neighbours of the number on the decimal grid with that many
digits: if any point of the grid reads back to the number, one of these two
does. All comparisons are between natural numbers, over a common denominator.
-/

namespace Backref

-- Powers are those of the core library, whatever hierarchy of algebra is in scope.
attribute [local instance (high)] instPowNat

/-- The layout of a binary floating-point format: a sign bit, then the
exponent, then the fraction. -/
structure BinaryFormat where
  exponentBits : Nat
  fractionBits : Nat
  /-- So many significant digits tell all numbers of the format apart. -/
  enoughDigits : Nat

/-- A positive decimal, `digits * 10 ^ exponent`. -/
structure Decimal where
  digits : Nat
  exponent : Int
  deriving DecidableEq, Repr

/-- What a bit pattern of a binary format means. -/
inductive BinaryValue
  | nan
  | infinity
  | zero
  /-- The number `mantissa * 2 ^ exponent`. `lowest` says that its lower
  neighbour is only half as far away as the upper one. -/
  | normal (mantissa : Nat) (exponent : Int) (lowest : Bool)

namespace BinaryFormat

/-- Numbers of 32 bits. -/
def single : BinaryFormat := ⟨8, 23, 9⟩

/-- Numbers of 64 bits. -/
def double : BinaryFormat := ⟨11, 52, 17⟩

/-- Whether the sign bit is set. -/
def isNegative (f : BinaryFormat) (bits : Nat) : Bool :=
  bits / 2 ^ (f.exponentBits + f.fractionBits) % 2 == 1

/-- The meaning of a bit pattern, its sign apart. -/
def magnitude (f : BinaryFormat) (bits : Nat) : BinaryValue :=
  let fraction := bits % 2 ^ f.fractionBits
  let exponent := bits / 2 ^ f.fractionBits % 2 ^ f.exponentBits
  let bias : Int := 2 ^ (f.exponentBits - 1) - 1 + f.fractionBits
  if exponent = 2 ^ f.exponentBits - 1 then
    if fraction = 0 then .infinity else .nan
  else if exponent = 0 then
    if fraction = 0 then .zero else .normal fraction (1 - bias) false
  else
    .normal (2 ^ f.fractionBits + fraction) (exponent - bias) (fraction == 0 && exponent != 1)

end BinaryFormat

namespace Decimal

/-- The decimal without zeros at its end. -/
def trim : (fuel : Nat) → Decimal → Decimal
  | 0, d => d
  | fuel + 1, d => if d.digits % 10 = 0 then trim fuel ⟨d.digits / 10, d.exponent + 1⟩ else d

/-- The number of decimal digits of a number. -/
def length (n : Nat) : Nat := (Nat.toDigits 10 n).length

end Decimal

/-- A positive number with its half-way points to both neighbours, over one
denominator. The half-way points read back to the number when `closed`. -/
structure Rounding where
  low : Nat
  value : Nat
  high : Nat
  denominator : Nat
  closed : Bool

namespace Rounding

/-- The reals that round to `mantissa * 2 ^ exponent`, ties going to the even mantissa. -/
def ofBinary (mantissa : Nat) (exponent : Int) (lowest : Bool) : Rounding :=
  let scale := 2 ^ (exponent - 2).toNat
  { low := (4 * mantissa - if lowest then 1 else 2) * scale
    value := 4 * mantissa * scale
    high := (4 * mantissa + 2) * scale
    denominator := 2 ^ (2 - exponent).toNat
    closed := mantissa % 2 == 0 }

/-- The power of ten of the leading digit. -/
def leading (r : Rounding) : Int :=
  if r.denominator ≤ r.value then
    Decimal.length (r.value / r.denominator) - 1
  else
    let inverse := (r.denominator + r.value - 1) / r.value
    0 - (Decimal.length (inverse - 1) : Int)

/-- Whether `n * 10 ^ k` rounds to the number. -/
def contains (r : Rounding) (n : Nat) (k : Int) : Bool :=
  let point := n * 10 ^ k.toNat * r.denominator
  let scale := 10 ^ (-k).toNat
  if r.closed then r.low * scale ≤ point && point ≤ r.high * scale
  else r.low * scale < point && point < r.high * scale

/-- The better of the number's two neighbours on the grid of multiples of
`10 ^ k`, if one of them rounds to the number. A tie goes to the upper one. -/
def onGrid? (r : Rounding) (k : Int) : Option Decimal :=
  let above := r.value * 10 ^ (-k).toNat
  let unit := 10 ^ k.toNat * r.denominator
  let n := above / unit
  let rest := above % unit
  let lower := r.contains n k
  let upper := r.contains (n + 1) k
  if lower && !(upper && unit ≤ 2 * rest) then some ⟨n, k⟩
  else if upper then some ⟨n + 1, k⟩
  else none

/-- The shortest decimal with at most `count` digits that rounds to the number. -/
def shortest? (r : Rounding) (count : Nat) : Option Decimal :=
  let top := r.leading
  (List.range count).findSome? fun (i : Nat) => r.onGrid? (top - i)

end Rounding

/-- The shortest decimal that reads back to `mantissa * 2 ^ exponent`. -/
def BinaryFormat.shortest (f : BinaryFormat) (mantissa : Nat) (exponent : Int)
    (lowest : Bool) : Decimal :=
  match (Rounding.ofBinary mantissa exponent lowest).shortest? f.enoughDigits with
  | some d => d.trim (Decimal.length d.digits)
  | none => ⟨mantissa, exponent⟩

end Backref
