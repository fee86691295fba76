/-!
# Big-endian numbers

A byte string read as a number in base 256, most significant byte first, and
the fixed-width integers that class files are made of.

Main results:

* `BigEndian.value_digits`, `BigEndian.digits_value` — writing a number in
  `w` digits and reading it back are inverse up to reduction modulo `256 ^ w`;
* the class `FixedWidth` carries the same two facts for every integer type
  that has an instance, so a caller never reasons about single bytes.
-/

namespace Backref

-- Powers are those of the core library, whatever hierarchy of algebra is in scope.
attribute [local instance (high)] instPowNat

/-- A byte string. -/
abbrev Bytes := List UInt8

namespace BigEndian

/-- The number whose base-256 digits are the given bytes. -/
def value : Bytes → Nat
  | [] => 0
  | b :: bs => b.toNat * 256 ^ bs.length + value bs

/-- The `width` lowest base-256 digits of a number, most significant first. -/
def digits : (width : Nat) → Nat → Bytes
  | 0, _ => []
  | w + 1, n => UInt8.ofNat (n / 256 ^ w) :: digits w n

/-- A number is written with as many digits as it is given places. -/
@[simp] theorem length_digits (w n : Nat) : (digits w n).length = w := by
  induction w with
  | zero => rfl
  | succ w ih => simp [digits, ih]

/-- The value of some digits is below the power of 256 that their number makes. -/
theorem value_lt (bs : Bytes) : value bs < 256 ^ bs.length := by
  induction bs with
  | nil => simp [value]
  | cons b bs ih =>
    have hb : b.toNat ≤ 255 := Nat.le_of_lt_succ b.toNat_lt
    have := Nat.mul_le_mul_right (256 ^ bs.length) hb
    rw [value, List.length_cons, Nat.pow_succ]
    omega

/-- Digits that are too few for a number have its remainder as their value. -/
theorem value_digits (w n : Nat) : value (digits w n) = n % 256 ^ w := by
  induction w with
  | zero => simp [digits, value, Nat.mod_one]
  | succ w ih =>
    have hsplit : n % (256 ^ w * 256) = n % 256 ^ w + 256 ^ w * (n / 256 ^ w % 256) := Nat.mod_mul
    rw [digits, value, length_digits, ih, UInt8.toNat_ofNat',
      show 256 ^ (w + 1) = 256 ^ w * 256 from rfl, hsplit,
      Nat.mul_comm (256 ^ w), Nat.add_comm]

/-- Only the part of the number below `256 ^ w` shows in `w` digits. -/
theorem digits_add_mul (w n k : Nat) : digits w (n + k * 256 ^ w) = digits w n := by
  induction w generalizing k with
  | zero => rfl
  | succ w ih =>
    have hpos : 0 < 256 ^ w := Nat.pow_pos (by decide)
    have hk : k * 256 ^ (w + 1) = (k * 256) * 256 ^ w := by
      rw [Nat.pow_succ, Nat.mul_assoc, Nat.mul_comm 256]
    have hhead : UInt8.ofNat (n / 256 ^ w + k * 256) = UInt8.ofNat (n / 256 ^ w) := by
      apply UInt8.toNat_inj.mp
      rw [UInt8.toNat_ofNat', UInt8.toNat_ofNat']
      omega
    rw [digits, digits, hk, Nat.add_mul_div_right _ _ hpos, hhead, ih]

/-- Digits are recovered from their value and their number. -/
theorem digits_value (bs : Bytes) : digits bs.length (value bs) = bs := by
  induction bs with
  | nil => rfl
  | cons b bs ih =>
    have hlt := value_lt bs
    have hpos : 0 < 256 ^ bs.length := Nat.pow_pos (by decide)
    rw [List.length_cons, digits, value, Nat.add_comm, digits_add_mul, ih,
      Nat.add_mul_div_right _ _ hpos, Nat.div_eq_of_lt hlt, Nat.zero_add, UInt8.ofNat_toNat]

end BigEndian

/-- Integer types with a big-endian form of fixed width. -/
class FixedWidth (α : Type) where
  /-- The number of bytes of the form. -/
  width : Nat
  encode : α → Bytes
  decode : Bytes → α
  length_encode : ∀ a, (encode a).length = width
  decode_encode : ∀ a, decode (encode a) = a
  encode_decode : ∀ bs : Bytes, bs.length = width → encode (decode bs) = bs

namespace FixedWidth

/-- An integer type is of fixed width when its values are the numbers below
`256 ^ w`, taken as bit patterns. -/
@[reducible] def ofPattern {α : Type} (w : Nat) (pattern : α → Nat) (ofNat : Nat → α)
    (pattern_lt : ∀ a, pattern a < 256 ^ w) (ofNat_pattern : ∀ a, ofNat (pattern a) = a)
    (pattern_ofNat : ∀ n, n < 256 ^ w → pattern (ofNat n) = n) : FixedWidth α where
  width := w
  encode a := BigEndian.digits w (pattern a)
  decode bs := ofNat (BigEndian.value bs)
  length_encode a := BigEndian.length_digits w _
  decode_encode a := by
    rw [BigEndian.value_digits, Nat.mod_eq_of_lt (pattern_lt a), ofNat_pattern]
  encode_decode bs h := by
    subst h
    rw [pattern_ofNat _ (BigEndian.value_lt bs), BigEndian.digits_value]

instance : FixedWidth UInt8 :=
  ofPattern 1 UInt8.toNat UInt8.ofNat (fun a => a.toNat_lt) (fun _ => UInt8.ofNat_toNat)
    (fun n h => by rw [UInt8.toNat_ofNat']; omega)

instance : FixedWidth UInt16 :=
  ofPattern 2 UInt16.toNat UInt16.ofNat (fun a => a.toNat_lt) (fun _ => UInt16.ofNat_toNat)
    (fun n h => by rw [UInt16.toNat_ofNat']; omega)

instance : FixedWidth UInt32 :=
  ofPattern 4 UInt32.toNat UInt32.ofNat (fun a => a.toNat_lt) (fun _ => UInt32.ofNat_toNat)
    (fun n h => by rw [UInt32.toNat_ofNat']; omega)

instance : FixedWidth UInt64 :=
  ofPattern 8 UInt64.toNat UInt64.ofNat (fun a => a.toNat_lt) (fun _ => UInt64.ofNat_toNat)
    (fun n h => by rw [UInt64.toNat_ofNat']; omega)

/-- A signed integer is written as its two's complement pattern. -/
instance : FixedWidth Int8 :=
  ofPattern 1 (fun a => a.toUInt8.toNat) (fun n => (UInt8.ofNat n).toInt8)
    (fun a => a.toUInt8.toNat_lt) (fun a => by simp)
    (fun n h => by
      show (UInt8.ofNat n).toNat = n
      rw [UInt8.toNat_ofNat']; omega)

instance : FixedWidth Int16 :=
  ofPattern 2 (fun a => a.toUInt16.toNat) (fun n => (UInt16.ofNat n).toInt16)
    (fun a => a.toUInt16.toNat_lt) (fun a => by simp)
    (fun n h => by
      show (UInt16.ofNat n).toNat = n
      rw [UInt16.toNat_ofNat']; omega)

instance : FixedWidth Int32 :=
  ofPattern 4 (fun a => a.toUInt32.toNat) (fun n => (UInt32.ofNat n).toInt32)
    (fun a => a.toUInt32.toNat_lt) (fun a => by simp)
    (fun n h => by
      show (UInt32.ofNat n).toNat = n
      rw [UInt32.toNat_ofNat']; omega)

instance : FixedWidth Int64 :=
  ofPattern 8 (fun a => a.toUInt64.toNat) (fun n => (UInt64.ofNat n).toInt64)
    (fun a => a.toUInt64.toNat_lt) (fun a => by simp)
    (fun n h => by
      show (UInt64.ofNat n).toNat = n
      rw [UInt64.toNat_ofNat']; omega)

end FixedWidth

end Backref
