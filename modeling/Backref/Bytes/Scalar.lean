import Backref.Bytes.Reader

/-!
# Integers of mixed widths

One type for the eight integer types that byte strings hold, for callers
that choose the type at run time. Writing a sequence of integers is `encodeAll`;
`readAt` reads one at an offset and says where the next one starts.
-/

namespace Backref

/-- The eight integer types. -/
inductive Scalar.Kind
  | u8 | i8 | u16 | i16 | u32 | i32 | u64 | i64
  deriving DecidableEq, Repr

/-- An integer of one of the eight types. -/
inductive Scalar
  | u8 (value : UInt8)
  | i8 (value : Int8)
  | u16 (value : UInt16)
  | i16 (value : Int16)
  | u32 (value : UInt32)
  | i32 (value : Int32)
  | u64 (value : UInt64)
  | i64 (value : Int64)
  deriving DecidableEq, Repr

namespace Scalar

/-- The number of bytes that an integer of this type takes. -/
def Kind.width : Kind → Nat
  | .u8 | .i8 => 1
  | .u16 | .i16 => 2
  | .u32 | .i32 => 4
  | .u64 | .i64 => 8

/-- The integer of this type with the same low bits as `n`. -/
def Kind.ofInt (k : Kind) (n : Int) : Scalar :=
  match k with
  | .u8 => .u8 (UInt8.ofInt n)
  | .i8 => .i8 (Int8.ofInt n)
  | .u16 => .u16 (UInt16.ofInt n)
  | .i16 => .i16 (Int16.ofInt n)
  | .u32 => .u32 (UInt32.ofInt n)
  | .i32 => .i32 (Int32.ofInt n)
  | .u64 => .u64 (UInt64.ofInt n)
  | .i64 => .i64 (Int64.ofInt n)

/-- The type of an integer. -/
def kind : Scalar → Kind
  | u8 _ => .u8
  | i8 _ => .i8
  | u16 _ => .u16
  | i16 _ => .i16
  | u32 _ => .u32
  | i32 _ => .i32
  | u64 _ => .u64
  | i64 _ => .i64

/-- The number that an integer is. -/
def toInt : Scalar → Int
  | u8 v => v.toNat
  | i8 v => v.toInt
  | u16 v => v.toNat
  | i16 v => v.toInt
  | u32 v => v.toNat
  | i32 v => v.toInt
  | u64 v => v.toNat
  | i64 v => v.toInt

/-- The big-endian form of an integer. -/
def encode : Scalar → Bytes
  | u8 v => FixedWidth.encode v
  | i8 v => FixedWidth.encode v
  | u16 v => FixedWidth.encode v
  | i16 v => FixedWidth.encode v
  | u32 v => FixedWidth.encode v
  | i32 v => FixedWidth.encode v
  | u64 v => FixedWidth.encode v
  | i64 v => FixedWidth.encode v

/-- The integer of a given type with a big-endian form. -/
def decode (k : Kind) (bs : Bytes) : Scalar :=
  match k with
  | .u8 => u8 (FixedWidth.decode bs)
  | .i8 => i8 (FixedWidth.decode bs)
  | .u16 => u16 (FixedWidth.decode bs)
  | .i16 => i16 (FixedWidth.decode bs)
  | .u32 => u32 (FixedWidth.decode bs)
  | .i32 => i32 (FixedWidth.decode bs)
  | .u64 => u64 (FixedWidth.decode bs)
  | .i64 => i64 (FixedWidth.decode bs)

/-- A scalar is decoded as one of the kind that was asked for. -/
theorem kind_decode (k : Kind) (bs : Bytes) : (decode k bs).kind = k := by
  cases k <;> rfl

/-- No kind of scalar is empty. -/
theorem Kind.width_pos (k : Kind) : 0 < k.width := by
  cases k <;> decide

/-- A scalar takes as many bytes as its kind is wide. -/
@[simp] theorem length_encode (v : Scalar) : v.encode.length = v.kind.width := by
  cases v <;> exact FixedWidth.length_encode _

/-- An integer is read from its form. -/
theorem decode_encode (v : Scalar) : decode v.kind v.encode = v := by
  cases v <;> exact congrArg _ (FixedWidth.decode_encode _)

/-- As many bytes as an integer takes are the form of the integer that they are read as. -/
theorem encode_decode {k : Kind} {bs : Bytes} (h : bs.length = k.width) :
    (decode k bs).encode = bs := by
  cases k <;> exact FixedWidth.encode_decode bs h

/-- The integers of a sequence, written one after the other. -/
def encodeAll (values : List Scalar) : Bytes := values.flatMap encode

/-- The integer at an offset, and the offset behind it. -/
def readAt (k : Kind) (data : Bytes) (offset : Nat) : Except Fault (Scalar × Nat) :=
  if offset + k.width ≤ data.length then
    .ok (decode k ((data.drop offset).take k.width), offset + k.width)
  else
    .error .outOfBounds

/-- Reads integers of the given types from an offset on, one after the other. -/
def readAllAt (data : Bytes) : List Kind → Nat → Except Fault (List Scalar × Nat)
  | [], offset => .ok ([], offset)
  | k :: ks, offset => do
    let (value, offset) ← readAt k data offset
    let (values, offset) ← readAllAt data ks offset
    return (value :: values, offset)

end Scalar

/-- Reads an integer of a type that is chosen at run time. -/
def Reader.scalar (k : Scalar.Kind) : Reader Scalar := do
  return Scalar.decode k (← take k.width)

end Backref
