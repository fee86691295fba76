/-!
# Text as 16-bit units

A character up to `U+FFFF` is one unit, any other a pair of surrogates. Not
every sequence of units is the text of something: reading one back puts the
replacement character `U+FFFD` in the place of each surrogate without a
partner.
-/

namespace Backref.Utf16

/-- The units of one character. -/
def unitsOf (c : Char) : List UInt16 :=
  if c.toNat < 0x10000 then
    [UInt16.ofNat c.toNat]
  else
    [UInt16.ofNat (0xD800 + (c.toNat - 0x10000) / 0x400),
      UInt16.ofNat (0xDC00 + (c.toNat - 0x10000) % 0x400)]

/-- The units of a text. -/
def units (text : String) : List UInt16 :=
  text.toList.flatMap unitsOf

/-- The first half of a surrogate pair. -/
def isHigh (u : UInt16) : Bool := 0xD800 ≤ u && u < 0xDC00

/-- The second half of a surrogate pair. -/
def isLow (u : UInt16) : Bool := 0xDC00 ≤ u && u < 0xE000

/-- The character of a unit that stands alone. -/
def single (u : UInt16) : Char :=
  if isHigh u || isLow u then '\uFFFD' else Char.ofNat u.toNat

/-- The character of a surrogate pair. -/
def paired (high low : UInt16) : Char :=
  Char.ofNat (0x10000 + (high.toNat - 0xD800) * 0x400 + (low.toNat - 0xDC00))

/-- The text of a sequence of units, after what has been read already. -/
def textAfter (seen : String) : List UInt16 → String
  | [] => seen
  | [u] => seen.push (single u)
  | u :: v :: rest =>
    if isHigh u && isLow v then textAfter (seen.push (paired u v)) rest
    else textAfter (seen.push (single u)) (v :: rest)

/-- The text of a sequence of units. -/
def text (us : List UInt16) : String := textAfter "" us

end Backref.Utf16
