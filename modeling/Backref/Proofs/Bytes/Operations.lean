import Backref.Bytes.Scalar
import Backref.Proofs.Bytes.Reading
import Backref.Text.Modified
import Mathlib.Order.Bounds.Defs

/-!
# Operations on a cursor

All reading comes down to a few operations on a position in data. One operation
goes to a position, moves on by a number of bytes or to a multiple of a number,
looks ahead, or reads; and where it needs bytes that the data do not have, it
fails. This module says what each comes to, from any position and with any
argument, and what that means for a position that is moved by one operation
after the other, those that fail included.

Main results:

* `Operation.performs` — what one operation comes to, and where it stops;
* `Operation.Does.disciplined` — positions stay within the data; only an operation
  that succeeds moves, except past bytes that are no text; it moves by its width, or
  to the least multiple of an alignment;
* `Cursor.data_performAll` — operations leave the data alone.
-/

namespace Backref

/-- The operations on a position in data. -/
inductive Operation
  /-- Goes to the position of a byte. -/
  | seek (position : Nat)
  /-- Passes over a byte. -/
  | advance
  /-- Passes over bytes. -/
  | advanceBy (n : Nat)
  /-- Goes on to a multiple of an alignment. -/
  | align (alignment : Nat)
  /-- Looks at the next byte. -/
  | peek
  /-- Works out where a number of bytes ends. -/
  | endOf (n : Nat)
  /-- Reads an integer. -/
  | scalar (kind : Scalar.Kind)
  /-- Reads bytes. -/
  | take (n : Nat)
  /-- Reads a text of a number of bytes. -/
  | text (n : Nat)
  deriving DecidableEq, Repr

/-- What operations yield. -/
inductive Answer
  | done
  | byte (value : UInt8)
  | position (value : Nat)
  | scalar (value : Scalar)
  | bytes (value : Bytes)
  | text (value : String)
  deriving DecidableEq, Repr

-- ---------------------------------------------------------------------------
-- Attempts
-- ---------------------------------------------------------------------------

section Attempts

variable {α : Type} {r : Reader α} {c d : Cursor}

/-- What a reader comes to from a cursor, and where it leaves the cursor. -/
def Reader.attempt (r : Reader α) (c : Cursor) : Except Fault α × Cursor :=
  match r c with
  | .ok a d => (.ok a, d)
  | .error f d => (.error f, d)

/-- A reader that succeeds leaves its cursor behind what it has read. -/
theorem Reader.attempt_of_ok {a : α} (h : r c = .ok a d) : r.attempt c = (.ok a, d) := by
  rw [attempt, h]

/-- A reader that fails leaves its cursor where it has failed. -/
theorem Reader.attempt_of_error {f : Fault} (h : r c = .error f d) :
    r.attempt c = (.error f, d) := by
  rw [attempt, h]

end Attempts

namespace Operation

/-- The reader that performs an operation. -/
def reader : Operation → Reader Answer
  | seek p => do Reader.seek p; return .done
  | advance => do Reader.skip 1; return .done
  | advanceBy n => do Reader.skip n; return .done
  | align n => do Reader.align n; return .done
  | peek => do return .byte (← Reader.peek)
  | endOf n => do return .position (← Reader.endOf n)
  | scalar k => do return .scalar (← Reader.scalar k)
  | take n => do return .bytes (← Reader.take n)
  | text n => do return .text (← Reader.text n)

/-- Everything but alignment to 0 is defined. -/
def Defined : Operation → Prop
  | align n => 0 < n
  | _ => True

instance : DecidablePred Defined
  | align n => inferInstanceAs (Decidable (0 < n))
  | seek _ | advance | advanceBy _ | peek | endOf _ | scalar _ | take _ | text _ =>
    inferInstanceAs (Decidable True)

end Operation

/-- Operations performed one after the other, those that fail included. -/
def Cursor.performAll (ops : List Operation) (c : Cursor) : Cursor :=
  ops.foldl (fun c op => (op.reader.attempt c).2) c

-- ---------------------------------------------------------------------------
-- What an operation does
-- ---------------------------------------------------------------------------

namespace Operation

/-- The number of bytes that an operation passes over, for those that do that. -/
def width? : Operation → Option Nat
  | advance => some 1
  | advanceBy n | take n | text n => some n
  | scalar k => some k.width
  | seek _ | align _ | peek | endOf _ => none

/-- What an operation makes of the bytes that it passes over: an integer has
them as its big-endian form, and bytes may be no text. -/
def Makes (bs : Bytes) (outcome : Except Fault Answer) : Operation → Prop
  | scalar k => ∃ v : Scalar, v.kind = k ∧ v.encode = bs ∧ outcome = .ok (.scalar v)
  | take _ => outcome = .ok (.bytes bs)
  | text _ => outcome = (Modified.decode bs).map .text
  | _ => outcome = .ok .done

/-- Whether an operation needs more bytes than the data have. -/
def Overruns (data : Bytes) (start : Nat) : Operation → Prop
  | seek p => data.length ≤ p
  | peek => data.length ≤ start
  | align n => ∀ m, start ≤ m → n ∣ m → data.length < m
  | advance => data.length < start + 1
  | scalar k => data.length < start + k.width
  | advanceBy n | endOf n | take n | text n => data.length < start + n

/-- What operations do from a position of data: what they come to, and the
position where they stop. -/
inductive Does (data : Bytes) (start : Nat) : Operation → Except Fault Answer → Nat → Prop
  | seeks {p : Nat} (hbyte : p < data.length) : Does data start (.seek p) (.ok .done) p
  | aligns {n m : Nat} (hleast : IsLeast {m | start ≤ m ∧ n ∣ m} m) (hroom : m ≤ data.length) :
    Does data start (.align n) (.ok .done) m
  | peeks {b : UInt8} (hbyte : data[start]? = some b) :
    Does data start .peek (.ok (.byte b)) start
  | measures {n : Nat} (hroom : start + n ≤ data.length) :
    Does data start (.endOf n) (.ok (.position (start + n))) start
  | passes {op : Operation} {w : Nat} {outcome : Except Fault Answer}
    (hwidth : op.width? = some w) (hroom : start + w ≤ data.length)
    (hmakes : op.Makes (data.extract start (start + w)) outcome) :
    Does data start op outcome (start + w)
  | refuses {op : Operation} (hoverruns : op.Overruns data start) :
    Does data start op (.error .outOfBounds) start

/-- The discipline of an operation: how far, and on what, it moves the position. -/
structure Disciplined (data : Bytes) (op : Operation) (start : Nat)
    (outcome : Except Fault Answer) (stop : Nat) : Prop where
  /-- No position exceeds the length of the data. -/
  within : start ≤ data.length ∧ stop ≤ data.length
  /-- What fails has not moved, or has passed over bytes that are no text. -/
  failed : ∀ f, outcome = .error f → stop = start ∨
    ∃ n, op = .text n ∧ stop = start + n ∧
      Modified.decode (data.extract start stop) = .error f
  /-- Bytes are passed over if there are enough, and what is made is made of these. -/
  passed : ∀ w, op.width? = some w →
    if start + w ≤ data.length then
      stop = start + w ∧ op.Makes (data.extract start stop) outcome
    else outcome = .error .outOfBounds ∧ stop = start
  /-- The least multiple is gone to if it is not beyond the data. -/
  aligned : ∀ n, op = .align n → ∃ m, IsLeast {m | start ≤ m ∧ n ∣ m} m ∧
    if m ≤ data.length then outcome = .ok .done ∧ stop = m
    else outcome = .error .outOfBounds ∧ stop = start

-- ---------------------------------------------------------------------------
-- Multiples
-- ---------------------------------------------------------------------------

/-- Adding what lacks to a multiple gives the least multiple that is not below. -/
theorem isLeast_multiple {n : Nat} (hn : 0 < n) (start : Nat) :
    IsLeast {m | start ≤ m ∧ n ∣ m} (start + (n - start % n) % n) := by
  have hsplit : n * (start / n) + start % n = start := Nat.div_add_mod start n
  have hrest : start % n < n := Nat.mod_lt start hn
  -- without a remainder the start is a multiple itself
  by_cases hzero : start % n = 0
  · have hpad : (n - start % n) % n = 0 := by rw [hzero, Nat.sub_zero, Nat.mod_self]
    rw [hpad, Nat.add_zero]
    exact ⟨⟨Nat.le_refl _, Nat.dvd_of_mod_eq_zero hzero⟩, fun m hm => hm.1⟩
  · have hpad : (n - start % n) % n = n - start % n := Nat.mod_eq_of_lt (by omega)
    have hnext : start + (n - start % n) = n * (start / n + 1) := by
      rw [Nat.mul_succ]
      omega
    rw [hpad, hnext]
    refine ⟨⟨by omega, Nat.dvd_mul_right _ _⟩, ?_⟩
    rintro m ⟨hle, k, rfl⟩
    -- a multiple that is not below lies above the one before
    have hlt : n * (start / n) < n * k := by omega
    exact Nat.mul_le_mul_left n (Nat.lt_of_mul_lt_mul_left hlt)

end Operation

-- ---------------------------------------------------------------------------
-- What each operation comes to
-- ---------------------------------------------------------------------------

namespace Cursor

/-- So many bytes are left exactly if the data goes on that far. -/
theorem le_left_iff {c : Cursor} {n : Nat} : n ≤ c.left ↔ c.pos + n ≤ c.data.length := by
  have hpos := c.pos_le
  rw [← c.size_eq, left]
  omega

/-- Too few bytes are left exactly if the data ends before. -/
theorem not_le_left_iff {c : Cursor} {n : Nat} : ¬ n ≤ c.left ↔ c.data.length < c.pos + n := by
  rw [le_left_iff, Nat.not_le]

/-- The next bytes are the part of the data that starts at the position. -/
theorem take_ahead (c : Cursor) (n : Nat) :
    c.ahead.take n = c.data.extract c.pos (c.pos + n) := by
  rw [List.extract_eq_take_drop, c.ahead_eq, Nat.add_sub_cancel_left]

end Cursor

namespace Reader

/-- Taking bytes that are there yields them, and advances. -/
theorem take_of_room {n : Nat} {c : Cursor} (h : n ≤ c.left) :
    take n c = .ok (c.ahead.take n) (c.advance n h) := dif_pos h

/-- Taking more bytes than there are fails on the spot. -/
theorem take_of_short {n : Nat} {c : Cursor} (h : ¬ n ≤ c.left) :
    take n c = .error .outOfBounds c := dif_neg h

/-- Skipping bytes that are there advances. -/
theorem skip_of_room {n : Nat} {c : Cursor} (h : n ≤ c.left) :
    skip n c = .ok () (c.advance n h) := dif_pos h

/-- Skipping more bytes than there are fails on the spot. -/
theorem skip_of_short {n : Nat} {c : Cursor} (h : ¬ n ≤ c.left) :
    skip n c = .error .outOfBounds c := dif_neg h

/-- Skipping bytes is taking them and dropping what was taken. -/
theorem skip_eq_take (n : Nat) : skip n = do let _ ← take n; return () := by
  funext c
  by_cases h : n ≤ c.left
  · rw [skip_of_room h, bind_of_ok _ (take_of_room h)]
    rfl
  · rw [skip_of_short h, bind_of_error _ (take_of_short h)]

end Reader

namespace Operation

section Performing

variable {op : Operation} {w : Nat}

/-- An operation on so many bytes overruns the data exactly if they do not fit. -/
theorem overruns_iff {data : Bytes} {start : Nat} (hwidth : op.width? = some w) :
    op.Overruns data start ↔ data.length < start + w := by
  cases op <;> cases hwidth <;> exact Iff.rfl

variable {c d : Cursor}

/-- From a cursor an operation does what it does from its position, and keeps the data. -/
structure Performs (op : Operation) (c : Cursor) : Prop where
  data : (op.reader.attempt c).2.data = c.data
  does : Does c.data c.pos op (op.reader.attempt c).1 (op.reader.attempt c).2.pos

/-- An operation that succeeds does what it should if it moves as it should. -/
theorem performs_of_ok {a : Answer} (h : op.reader c = .ok a d) (hdata : d.data = c.data)
    (hdoes : Does c.data c.pos op (.ok a) d.pos) : op.Performs c := by
  constructor <;> rw [Reader.attempt_of_ok h]
  · exact hdata
  · exact hdoes

/-- An operation that fails does what it should if it leaves off as it should. -/
theorem performs_of_error {f : Fault} (h : op.reader c = .error f d) (hdata : d.data = c.data)
    (hdoes : Does c.data c.pos op (.error f) d.pos) : op.Performs c := by
  constructor <;> rw [Reader.attempt_of_error h]
  · exact hdata
  · exact hdoes

/-- An operation that reads bytes and makes something of them. -/
theorem performs_of_take (make : Bytes → Except Fault Answer) (hwidth : op.width? = some w)
    (hreader : op.reader = do MonadExcept.ofExcept (make (← Reader.take w)))
    (hmakes : ∀ bs : Bytes, bs.length = w → op.Makes bs (make bs)) : op.Performs c := by
  -- either the bytes are there, and all depends on what is made of them, or the operation stays
  by_cases h : w ≤ c.left
  · have hroom : c.pos + w ≤ c.data.length := Cursor.le_left_iff.mp h
    have hlength : (c.ahead.take w).length = w := by
      rw [List.length_take, c.length_ahead, Nat.min_eq_left h]
    have hmake : op.Makes (c.data.extract c.pos (c.pos + w)) (make (c.ahead.take w)) := by
      rw [← c.take_ahead]
      exact hmakes _ hlength
    have hrun : op.reader c =
        (MonadExcept.ofExcept (make (c.ahead.take w)) : Reader Answer) (c.advance w h) := by
      rw [hreader, bind_of_ok _ (Reader.take_of_room h)]
    cases hmade : make (c.ahead.take w) with
    | ok a =>
      rw [hmade] at hmake hrun
      exact performs_of_ok hrun rfl (.passes hwidth hroom hmake)
    | error f =>
      rw [hmade] at hmake hrun
      exact performs_of_error hrun rfl (.passes hwidth hroom hmake)
  · have hshort : c.data.length < c.pos + w := Cursor.not_le_left_iff.mp h
    have hrun : op.reader c = .error .outOfBounds c := by
      rw [hreader, bind_of_error _ (Reader.take_of_short h)]
    exact performs_of_error hrun rfl (.refuses ((overruns_iff hwidth).mpr hshort))

/-- Seeking goes to a position within the data, or stays. -/
theorem performs_seek (p : Nat) : (seek p).Performs c := by
  by_cases h : p < c.size
  · have hseek : Reader.seek p c = .ok () (c.moveTo p (Nat.le_of_lt h)) := dif_pos h
    exact performs_of_ok (bind_of_ok _ hseek) rfl (.seeks (c.size_eq ▸ h))
  · have hseek : Reader.seek p c = .error .outOfBounds c := dif_neg h
    have hbeyond : c.data.length ≤ p := c.size_eq ▸ Nat.le_of_not_lt h
    exact performs_of_error (bind_of_error _ hseek) rfl (.refuses hbeyond)

/-- Aligning goes to the next multiple, or stays. -/
theorem performs_align {n : Nat} (hn : 0 < n) : (align n).Performs c := by
  have hleast := isLeast_multiple hn c.pos
  by_cases h : (n - c.pos % n) % n ≤ c.left
  · have halign : Reader.align n c = .ok () (c.advance _ h) := Reader.skip_of_room h
    exact performs_of_ok (bind_of_ok _ halign) rfl (.aligns hleast (Cursor.le_left_iff.mp h))
  · have halign : Reader.align n c = .error .outOfBounds c := Reader.skip_of_short h
    have hshort := Cursor.not_le_left_iff.mp h
    have hoverruns : (align n).Overruns c.data c.pos :=
      fun m hle hdvd => Nat.lt_of_lt_of_le hshort (hleast.2 ⟨hle, hdvd⟩)
    exact performs_of_error (bind_of_error _ halign) rfl (.refuses hoverruns)

/-- Peeking yields the byte ahead and stays. -/
theorem performs_peek : peek.Performs c := by
  have hnext : c.ahead.head? = c.data[c.pos]? := by rw [c.ahead_eq, List.head?_drop]
  cases hahead : c.ahead with
  | nil =>
    rw [hahead] at hnext
    have hpeek : Reader.peek c = .error .outOfBounds c := by rw [Reader.peek, hahead]
    have hend : c.data.length ≤ c.pos := List.getElem?_eq_none_iff.mp hnext.symm
    exact performs_of_error (bind_of_error _ hpeek) rfl (.refuses hend)
  | cons b rest =>
    rw [hahead] at hnext
    have hpeek : Reader.peek c = .ok b c := by rw [Reader.peek, hahead]
    exact performs_of_ok (bind_of_ok _ hpeek) rfl (.peeks hnext.symm)

/-- Measuring yields the position further on and stays. -/
theorem performs_endOf (n : Nat) : (endOf n).Performs c := by
  by_cases h : n ≤ c.left
  · have hend : Reader.endOf n c = .ok (c.pos + n) c := if_pos h
    exact performs_of_ok (bind_of_ok _ hend) rfl (.measures (Cursor.le_left_iff.mp h))
  · have hend : Reader.endOf n c = .error .outOfBounds c := if_neg h
    have hshort : c.data.length < c.pos + n := Cursor.not_le_left_iff.mp h
    exact performs_of_error (bind_of_error _ hend) rfl (.refuses hshort)

/-- Advancing is taking bytes and dropping what was taken. -/
theorem reader_advanceBy (n : Nat) :
    (advanceBy n).reader = (do let _ ← Reader.take n; return .done) := by
  show (Reader.skip n >>= _) = _
  rw [Reader.skip_eq_take, bind_assoc]
  rfl

/-- Reading a scalar is taking as many bytes as it is wide, and decoding them. -/
theorem reader_scalar (k : Scalar.Kind) :
    (scalar k).reader = (do return .scalar (.decode k (← Reader.take k.width))) := by
  show (Reader.take k.width >>= _) >>= _ = _
  rw [bind_assoc]
  rfl

/-- A text is what its bytes decode to. -/
theorem reader_text (n : Nat) : (text n).reader =
    (do MonadExcept.ofExcept ((Modified.decode (← Reader.take n)).map .text)) := by
  show (Reader.take n >>= _) >>= _ = _
  rw [bind_assoc]
  congr 1
  funext bs
  cases Modified.decode bs <;> rfl

/-- What an operation comes to, from any cursor. -/
theorem performs (hdefined : op.Defined) (c : Cursor) : op.Performs c := by
  -- those that take bytes are all alike; the other four have lemmas of their own
  cases op with
  | seek p => exact performs_seek p
  | align n => exact performs_align hdefined
  | peek => exact performs_peek
  | endOf n => exact performs_endOf n
  | advance =>
    exact performs_of_take (fun _ => .ok .done) rfl (reader_advanceBy 1) fun _ _ => rfl
  | advanceBy n =>
    exact performs_of_take (fun _ => .ok .done) rfl (reader_advanceBy n) fun _ _ => rfl
  | scalar k =>
    exact performs_of_take (fun bs => .ok (.scalar (.decode k bs))) rfl (reader_scalar k)
      fun bs hlength => ⟨_, Scalar.kind_decode k bs, Scalar.encode_decode hlength, rfl⟩
  | take n => exact performs_of_take (fun bs => .ok (.bytes bs)) rfl rfl fun _ _ => rfl
  | text n => exact performs_of_take _ rfl (reader_text n) fun _ _ => rfl

end Performing

-- ---------------------------------------------------------------------------
-- The discipline
-- ---------------------------------------------------------------------------

section Discipline

variable {data : Bytes} {op : Operation} {start stop : Nat} {outcome : Except Fault Answer}

/-- An operation that starts within the data stops within it. -/
theorem Does.within (h : Does data start op outcome stop) (hstart : start ≤ data.length) :
    stop ≤ data.length := by
  cases h with
  | seeks hbyte => exact Nat.le_of_lt hbyte
  | aligns _ hroom => exact hroom
  | peeks => exact hstart
  | measures => exact hstart
  | passes _ hroom => exact hroom
  | refuses => exact hstart

/-- Only bytes that are no text are passed over by an operation that fails. -/
theorem Makes.failed {bs : Bytes} {f : Fault} {w : Nat} (h : op.Makes bs (.error f))
    (hwidth : op.width? = some w) : op = .text w ∧ Modified.decode bs = .error f := by
  -- only a text can be refused once its bytes are there
  cases op with
  | text n =>
    cases hwidth
    refine ⟨rfl, ?_⟩
    have hmap : Except.error f = (Modified.decode bs).map Answer.text := h
    cases hdecode : Modified.decode bs with
    | ok t =>
      rw [hdecode] at hmap
      cases hmap
    | error g =>
      rw [hdecode] at hmap
      cases hmap
      rfl
  | scalar k =>
    obtain ⟨v, -, -, hv⟩ := h
    cases hv
  | seek | align | peek | endOf => cases hwidth
  | advance | advanceBy | take => cases h

/-- A failed operation has stayed, unless it was a text whose bytes were refused. -/
theorem Does.failed {f : Fault} (h : Does data start op (.error f) stop) :
    stop = start ∨ ∃ n, op = .text n ∧ stop = start + n ∧
      Modified.decode (data.extract start stop) = .error f := by
  cases h with
  | passes hwidth _ hmakes =>
    obtain ⟨hop, hdecode⟩ := hmakes.failed hwidth
    exact .inr ⟨_, hop, rfl, hdecode⟩
  | refuses => exact .inl rfl

/-- An operation on so many bytes passes them and makes something of them, or
stays where they do not fit. -/
theorem Does.passed {w : Nat} (h : Does data start op outcome stop)
    (hwidth : op.width? = some w) :
    if start + w ≤ data.length then stop = start + w ∧ op.Makes (data.extract start stop) outcome
    else outcome = .error .outOfBounds ∧ stop = start := by
  -- the other ways of doing something are those of operations without a width
  cases h with
  | passes hwidth' hroom hmakes =>
    obtain rfl := Option.some.inj (hwidth'.symm.trans hwidth)
    rw [if_pos hroom]
    exact ⟨rfl, hmakes⟩
  | refuses hoverruns =>
    rw [if_neg (Nat.not_le_of_lt ((overruns_iff hwidth).mp hoverruns))]
    exact ⟨rfl, rfl⟩
  | seeks | aligns | peeks | measures => cases hwidth

/-- Aligning stops at the least multiple from the start on, or stays where that
lies beyond the data. -/
theorem Does.aligned {n : Nat} (h : Does data start (.align n) outcome stop) (hn : 0 < n) :
    ∃ m, IsLeast {m | start ≤ m ∧ n ∣ m} m ∧
      if m ≤ data.length then outcome = .ok .done ∧ stop = m
      else outcome = .error .outOfBounds ∧ stop = start := by
  -- an alignment has no width, so it has not passed bytes as others do
  cases h with
  | aligns hleast hroom =>
    refine ⟨stop, hleast, ?_⟩
    rw [if_pos hroom]
    exact ⟨rfl, rfl⟩
  | passes hwidth => cases hwidth
  | refuses hoverruns =>
    have hleast := isLeast_multiple hn start
    have hshort := hoverruns _ hleast.1.1 hleast.1.2
    refine ⟨_, hleast, ?_⟩
    rw [if_neg (Nat.not_le_of_lt hshort)]
    exact ⟨rfl, rfl⟩

/-- What operations do is disciplined. -/
theorem Does.disciplined (h : Does data start op outcome stop) (hdefined : op.Defined)
    (hstart : start ≤ data.length) : Disciplined data op start outcome stop where
  within := ⟨hstart, h.within hstart⟩
  failed := by
    rintro f rfl
    exact h.failed
  passed _ hwidth := h.passed hwidth
  aligned := by
    rintro n rfl
    exact h.aligned hdefined

end Discipline

end Operation

/-- Operations leave the data alone. -/
theorem Cursor.data_performAll {ops : List Operation} (hdefined : ∀ op ∈ ops, op.Defined)
    (c : Cursor) : (c.performAll ops).data = c.data := by
  induction ops generalizing c with
  | nil => rfl
  | cons op ops ih =>
    rw [List.forall_mem_cons] at hdefined
    exact (ih hdefined.2 _).trans (op.performs hdefined.1 c).data

end Backref
