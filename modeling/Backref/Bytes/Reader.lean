import Backref.Bytes.Cursor
import Backref.Fault

/-!
# Readers

A reader moves a cursor and yields a value or a fault. A reader that fails
leaves the cursor where its last successful step left it; each of the steps
here leaves it unmoved when it fails.
-/

namespace Backref

/-- A computation that reads from a cursor. -/
abbrev Reader := EStateM Fault Cursor

namespace Reader

/-- The current position. -/
def position : Reader Nat := fun c => .ok c.pos c

/-- Whether any bytes lie ahead. -/
def hasMore : Reader Bool := fun c => .ok (c.pos < c.size) c

/-- Gives up because the contents are malformed. -/
def malformed {α : Type} (cause : Malformation) : Reader α := throw (.malformed cause)

/-- The position `n` bytes further on. Fails if fewer lie ahead. -/
def endOf (n : Nat) : Reader Nat := fun c =>
  if n ≤ c.left then .ok (c.pos + n) c else .error .outOfBounds c

/-- Passes over `n` bytes. -/
def skip (n : Nat) : Reader Unit := fun c =>
  if h : n ≤ c.left then .ok () (c.advance n h) else .error .outOfBounds c

/-- Reads `n` bytes. -/
def take (n : Nat) : Reader Bytes := fun c =>
  if h : n ≤ c.left then .ok (c.ahead.take n) (c.advance n h) else .error .outOfBounds c

/-- Goes to a position, which has to be that of a byte: the end of the data
is out of bounds. -/
def seek (p : Nat) : Reader Unit := fun c =>
  if h : p < c.size then .ok () (c.moveTo p (Nat.le_of_lt h)) else .error .outOfBounds c

/-- Passes over as many bytes as it takes to reach a multiple of `alignment`. -/
def align (alignment : Nat) : Reader Unit := do
  skip ((alignment - (← position) % alignment) % alignment)

/-- The byte at the position, which does not move. -/
def peek : Reader UInt8 := fun c =>
  match c.ahead with
  | [] => .error .outOfBounds c
  | b :: _ => .ok b c

/-- Reads a big-endian integer. -/
def int (α : Type) [FixedWidth α] : Reader α := do
  return FixedWidth.decode (← take (FixedWidth.width α))

/-- Runs a reader `n` times and collects what it yields behind `seen`. -/
def timesOnto {α : Type} (r : Reader α) : (n : Nat) → (seen : Array α) → Reader (Array α)
  | 0, seen => pure seen
  | n + 1, seen => do timesOnto r n (seen.push (← r))

/-- Runs a reader `n` times and collects what it yields. -/
def times {α : Type} (n : Nat) (r : Reader α) : Reader (Array α) := timesOnto r n #[]

/-- Reads a table: a 16-bit count, then that many entries. -/
def table {α : Type} (entry : Reader α) : Reader (Array α) := do
  times (← int UInt16).toNat entry

/-- Runs a reader over a byte string of its own. -/
def run {α : Type} (r : Reader α) (bytes : Bytes) : Except Fault α :=
  match r (Cursor.ofBytes bytes) with
  | .ok a _ => .ok a
  | .error f _ => .error f

end Reader

end Backref
