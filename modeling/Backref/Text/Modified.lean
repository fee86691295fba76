import Backref.Bytes.Reader
import Backref.Text.Utf16

/-!
# Modified UTF-8

The form in which class files hold text. Each 16-bit unit is written by
itself: the units from 1 to `0x7F` in one byte, 0 and the units up to `0x7FF`
in two, all others in three, surrogates included.

Reading is more lenient than writing: bytes that are a text in standard
UTF-8 are taken as that text.
-/

namespace Backref.Modified

/-- A unit in modified UTF-8. -/
def encodeUnit (u : UInt16) : Bytes :=
  let n := u.toNat
  if 1 ≤ n ∧ n ≤ 0x7F then
    [UInt8.ofNat n]
  else if n ≤ 0x7FF then
    [UInt8.ofNat (0xC0 + n / 0x40), UInt8.ofNat (0x80 + n % 0x40)]
  else
    [UInt8.ofNat (0xE0 + n / 0x1000), UInt8.ofNat (0x80 + n / 0x40 % 0x40),
      UInt8.ofNat (0x80 + n % 0x40)]

/-- A sequence of units in modified UTF-8. -/
def encodeUnits (us : List UInt16) : Bytes := us.flatMap encodeUnit

/-- A text in modified UTF-8. -/
def encode (text : String) : Bytes := encodeUnits (Utf16.units text)

/-- The bytes that stand behind the first one of a unit. -/
def isContinuation (b : UInt8) : Bool := 0x80 ≤ b && b < 0xC0

/-- The unit that a lead byte and continuation bytes spell, given the bits of
the lead byte. -/
def join (lead : Nat) (continuation : Bytes) : UInt16 :=
  UInt16.ofNat (continuation.foldl (fun n b => n * 0x40 + (b.toNat - 0x80)) lead)

/-- Reads units from bytes that start at `position`, behind those in `seen`. -/
def unitsAfter (position : Nat) (seen : Array UInt16) : Bytes → Except Fault (Array UInt16)
  | [] => .ok seen
  | a :: rest =>
    if 0x01 ≤ a ∧ a ≤ 0x7F then
      unitsAfter (position + 1) (seen.push (join a.toNat [])) rest
    else if 0xC0 ≤ a ∧ a ≤ 0xDF then
      match rest with
      | [] => .error .outOfBounds
      | b :: rest =>
        if isContinuation b then
          unitsAfter (position + 2) (seen.push (join (a.toNat - 0xC0) [b])) rest
        else .error (.malformed (.continuationByte b (position + 1)))
    else if 0xE0 ≤ a ∧ a ≤ 0xEF then
      match rest with
      | [] => .error .outOfBounds
      | b :: rest =>
        if isContinuation b then
          match rest with
          | [] => .error .outOfBounds
          | c :: rest =>
            if isContinuation c then
              unitsAfter (position + 3) (seen.push (join (a.toNat - 0xE0) [b, c])) rest
            else .error (.malformed (.continuationByte c (position + 2)))
        else .error (.malformed (.continuationByte b (position + 1)))
    else .error (.malformed (.leadByte a position))

/-- The text of bytes in standard UTF-8. -/
def standard? (bytes : Bytes) : Option String := String.fromUTF8? ⟨bytes.toArray⟩

/-- The text of bytes in standard or modified UTF-8. -/
def decode (bytes : Bytes) : Except Fault String :=
  match standard? bytes with
  | some text => .ok text
  | none =>
    match unitsAfter 0 #[] bytes with
    | .ok us => .ok (Utf16.text us.toList)
    | .error fault => .error fault

end Backref.Modified

namespace Backref.Reader

/-- Reads a text of `n` bytes. The bytes are passed over even if they are no text. -/
def text (n : Nat) : Reader String := do
  match Modified.decode (← take n) with
  | .ok text => pure text
  | .error fault => throw fault

end Backref.Reader
