import Backref.Text.Modified

/-!
# The written form of a constant

A constant is written as the tag of its kind and then its parts: text as a
16-bit byte count and modified UTF-8, numbers and indices as big-endian
integers.
-/

namespace Backref

namespace Constant

/-- The written form of a constant. -/
def encode (c : Constant) : Bytes :=
  FixedWidth.encode c.kind.tag ++
    match c with
    | utf8 text =>
      let body := Modified.encode text
      FixedWidth.encode (UInt16.ofNat body.length) ++ body
    | integer value => FixedWidth.encode value
    | float bits => FixedWidth.encode bits
    | long value => FixedWidth.encode value
    | double bits => FixedWidth.encode bits
    | classInfo name => FixedWidth.encode name
    | string text => FixedWidth.encode text
    | memberRef _ owner signature => FixedWidth.encode owner ++ FixedWidth.encode signature
    | nameAndType name descriptor => FixedWidth.encode name ++ FixedWidth.encode descriptor
    | methodHandle kind member => FixedWidth.encode kind ++ FixedWidth.encode member
    | methodType descriptor => FixedWidth.encode descriptor
    | dynamic bootstrap signature =>
      FixedWidth.encode bootstrap ++ FixedWidth.encode signature
    | invokeDynamic bootstrap signature =>
      FixedWidth.encode bootstrap ++ FixedWidth.encode signature
    | moduleInfo name => FixedWidth.encode name
    | packageInfo name => FixedWidth.encode name

open Reader in
/-- Reads the parts of a constant of a given kind. -/
def readParts : Kind → Reader Constant
  | .utf8 => do return utf8 (← text (← int UInt16).toNat)
  | .integer => do return integer (← int Int32)
  | .float => do return float (← int UInt32)
  | .long => do return long (← int Int64)
  | .double => do return double (← int UInt64)
  | .classInfo => do return classInfo (← int UInt16)
  | .string => do return string (← int UInt16)
  | .fieldRef => do return memberRef .field (← int UInt16) (← int UInt16)
  | .methodRef => do return memberRef .method (← int UInt16) (← int UInt16)
  | .interfaceMethodRef => do return memberRef .interfaceMethod (← int UInt16) (← int UInt16)
  | .nameAndType => do return nameAndType (← int UInt16) (← int UInt16)
  | .methodHandle => do return methodHandle (← int UInt8) (← int UInt16)
  | .methodType => do return methodType (← int UInt16)
  | .dynamic => do return dynamic (← int UInt16) (← int UInt16)
  | .invokeDynamic => do return invokeDynamic (← int UInt16) (← int UInt16)
  | .moduleInfo => do return moduleInfo (← int UInt16)
  | .packageInfo => do return packageInfo (← int UInt16)

/-- Reads the constant that stands at an index of the pool. -/
def read (index : Nat) : Reader Constant := do
  let tag ← Reader.int UInt8
  match Kind.ofTag? tag with
  | none => Reader.malformed (.constantTag tag index)
  | some kind => readParts kind

end Constant

end Backref
