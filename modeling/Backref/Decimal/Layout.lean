import Backref.Decimal.Shortest

/-!
# The text of a decimal

How a shortest decimal is laid out: positionally inside a range of
magnitudes, with an exponent outside of it. The choices are fields of a
`DecimalLayout`.
-/

namespace Backref

/-- The choices that fix the text of a floating-point number. -/
structure DecimalLayout where
  /-- The least power of ten of a leading digit that is written positionally. -/
  positionalFrom : Int
  /-- Numbers with this power of ten or more are written with an exponent. -/
  positionalBelow : Int
  /-- What follows a whole number that is written positionally. -/
  wholeSuffix : String
  exponentMark : String
  nan : String
  infinity : String

namespace DecimalLayout

/-- The text of a positive decimal. -/
def decimal (l : DecimalLayout) (d : Decimal) : String :=
  let digits := Nat.toDigits 10 d.digits
  let leading : Int := d.exponent + digits.length - 1
  if l.positionalFrom ≤ leading ∧ leading < l.positionalBelow then
    if 0 ≤ d.exponent then
      String.ofList (digits ++ List.replicate d.exponent.toNat '0') ++ l.wholeSuffix
    else if 0 ≤ leading then
      let whole := leading.toNat + 1
      String.ofList (digits.take whole ++ '.' :: digits.drop whole)
    else
      String.ofList ('0' :: '.' :: List.replicate (-leading - 1).toNat '0' ++ digits)
  else
    let fraction := if digits.length ≤ 1 then [] else '.' :: digits.drop 1
    String.ofList (digits.take 1 ++ fraction) ++ l.exponentMark ++ toString leading

/-- The text of the number that a bit pattern stands for. The sign of a zero
shows, that of a not-a-number does not. -/
def number (l : DecimalLayout) (f : BinaryFormat) (bits : Nat) : String :=
  let signed (text : String) := if f.isNegative bits then "-" ++ text else text
  match f.magnitude bits with
  | .nan => l.nan
  | .infinity => signed l.infinity
  | .zero => signed ("0" ++ l.wholeSuffix)
  | .normal mantissa exponent lowest => signed (l.decimal (f.shortest mantissa exponent lowest))

end DecimalLayout

end Backref
