import Backref.Bytes.BigEndian

/-!
# Cursors

A cursor is a position in a byte string, at most its length. It keeps the
bytes that lie ahead, so that reading costs no more than what is read; two
cursors with the same data and position are equal (`Cursor.ext`).
-/

namespace Backref

/-- A position in a byte string. -/
structure Cursor where
  data : Bytes
  size : Nat
  pos : Nat
  /-- The bytes from the position on. -/
  ahead : Bytes
  size_eq : size = data.length
  pos_le : pos ≤ size
  ahead_eq : ahead = data.drop pos

namespace Cursor

/-- A cursor is known by its data and its position. -/
theorem ext {a b : Cursor} (hdata : a.data = b.data) (hpos : a.pos = b.pos) : a = b := by
  obtain ⟨data, size, pos, ahead, rfl, _, rfl⟩ := a
  obtain ⟨data', size', pos', ahead', rfl, _, rfl⟩ := b
  subst hdata hpos
  rfl

/-- The cursor at the start of a byte string. -/
def ofBytes (data : Bytes) : Cursor where
  data := data
  size := data.length
  pos := 0
  ahead := data
  size_eq := rfl
  pos_le := Nat.zero_le _
  ahead_eq := rfl

/-- The number of bytes that lie ahead. -/
def left (c : Cursor) : Nat := c.size - c.pos

/-- As many bytes lie ahead as are left. -/
theorem length_ahead (c : Cursor) : c.ahead.length = c.left := by
  rw [c.ahead_eq, List.length_drop, ← c.size_eq, left]

/-- The cursor `n` bytes further on, where there are that many. -/
def advance (c : Cursor) (n : Nat) (h : n ≤ c.left) : Cursor where
  data := c.data
  size := c.size
  pos := c.pos + n
  ahead := c.ahead.drop n
  size_eq := c.size_eq
  pos_le := by
    have := c.pos_le
    unfold left at h
    omega
  ahead_eq := by rw [c.ahead_eq, List.drop_drop]

/-- The cursor at another position of the same data. -/
def moveTo (c : Cursor) (p : Nat) (h : p ≤ c.size) : Cursor where
  data := c.data
  size := c.size
  pos := p
  ahead := c.data.drop p
  size_eq := c.size_eq
  pos_le := h
  ahead_eq := rfl

@[simp] theorem data_advance (c : Cursor) (n : Nat) (h : n ≤ c.left) :
    (c.advance n h).data = c.data := rfl

@[simp] theorem pos_advance (c : Cursor) (n : Nat) (h : n ≤ c.left) :
    (c.advance n h).pos = c.pos + n := rfl

end Cursor

end Backref
