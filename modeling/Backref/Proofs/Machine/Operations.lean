import Backref.Proofs.Bytes.Operations
import Backref.Proofs.Machine.Text

/-!
# Operations in machine words

On a machine a position is any word, and an argument is any word too: the end
of what is to be read may be no word at all. The operations are written out
here as a machine performs them. As long as a word measures the data, each of
them comes to what it comes to on a cursor, and leaves the position where it
leaves the cursor, also when it fails; and so do any number of them one after
the other. No partial operation on the way is applied outside its domain.

Main results:

* `follows_perform` — one operation;
* `performAll_ofCursor` — operations one after the other;
* `disciplined_performAll` — the discipline of an operation after any others.
-/

namespace Backref.Machine

open Modified

-- ---------------------------------------------------------------------------
-- The operations
-- ---------------------------------------------------------------------------

namespace Parsing

/-- Goes to the position of a byte. -/
def seek (p : Nat) : Parsing Unit := do
  if (← data).length ≤ p then throw (.fault .outOfBounds)
  goTo p

/-- The byte at the position. -/
def peek : Parsing UInt8 := do
  match (← data)[← position]? with
  | some b => return b
  | none => throw (.fault .outOfBounds)

/-- Reads an integer of a type that is chosen at run time. The position moves
once the bytes are as many as the integer takes. -/
def readScalar (k : Scalar.Kind) : Parsing Scalar := do
  let stop ← endOf k.width
  let bytes ← check (slice (← data) (← position) stop)
  if bytes.length ≠ k.width then throw (.fault .outOfBounds)
  goTo stop
  return Scalar.decode k bytes

/-- The parsing that performs an operation. -/
def perform : Operation → Parsing Answer
  | .seek p => do seek p; return .done
  | .advance => do advanceBy 1; return .done
  | .advanceBy n => do advanceBy n; return .done
  | .align n => do align n; return .done
  | .peek => do return .byte (← peek)
  | .endOf n => do return .position (← endOf n)
  | .scalar k => do return .scalar (← readScalar k)
  | .take n => do return .bytes (← readBytes n)
  | .text n => do return .text (← readText n)

end Parsing

namespace Parser

/-- Where an operation leaves a parser. Errors are passed over, and what else
ends a run is passed on. -/
def after (p : Parser) (op : Operation) : Except Halt Parser :=
  match Parsing.perform op p with
  | .ok _ q | .error (.fault _) q => .ok q
  | .error halt _ => .error halt

/-- Where operations one after the other leave a parser. -/
def performAll (ops : List Operation) (p : Parser) : Except Halt Parser := ops.foldlM after p

end Parser

-- ---------------------------------------------------------------------------
-- Parsings that follow readers
-- ---------------------------------------------------------------------------

section Following

variable {α β : Type} {m : Parsing α} {r : Reader α} {c : Cursor}

/-- What a reader comes to, as it shows in a parser. -/
def shown : EStateM.Result Fault Cursor α → EStateM.Result Halt Parser α
  | .ok a c => .ok a (.ofCursor c)
  | .error f c => .error (.fault f) (.ofCursor c)

/-- From a cursor a parsing comes to what a reader comes to, and stops where
the reader stops. -/
def Follows (m : Parsing α) (r : Reader α) (c : Cursor) : Prop := m (.ofCursor c) = shown (r c)

theorem Follows.of_ok {a : α} {d : Cursor} (hr : r c = .ok a d)
    (hm : m (.ofCursor c) = .ok a (.ofCursor d)) : Follows m r c := by
  rw [Follows, hr, hm]
  rfl

theorem Follows.of_error {f : Fault} {d : Cursor} (hr : r c = .error f d)
    (hm : m (.ofCursor c) = .error (.fault f) (.ofCursor d)) : Follows m r c := by
  rw [Follows, hr, hm]
  rfl

theorem Follows.pure (a : α) : Follows (Pure.pure a) (Pure.pure a) c := rfl

/-- Two steps follow where each of them does. -/
theorem Follows.bind {f : α → Parsing β} {g : α → Reader β} (h : Follows m r c)
    (hnext : ∀ a d, r c = .ok a d → Follows (f a) (g a) d) : Follows (m >>= f) (r >>= g) c := by
  cases hr : r c with
  | ok a d =>
    have hm : m (.ofCursor c) = .ok a (.ofCursor d) := by
      rw [h, hr]
      rfl
    rw [Follows, bind_of_ok f hm, bind_of_ok g hr]
    exact hnext a d hr
  | error e d =>
    have hm : m (.ofCursor c) = .error (.fault e) (.ofCursor d) := by
      rw [h, hr]
      rfl
    exact .of_error (bind_of_error g hr) (bind_of_error f hm)

/-- What is made of a value does not move. -/
theorem Follows.map (h : Follows m r c) (make : α → β) :
    Follows (do return make (← m)) (do return make (← r)) c :=
  h.bind fun a _ _ => .pure (make a)

end Following

-- ---------------------------------------------------------------------------
-- Each operation
-- ---------------------------------------------------------------------------

section Steps

variable {c : Cursor} {n : Nat}

/-- Where there is room, the end is not past what a word can hold. -/
theorem endOf_of_room (hword : c.size < wordLimit) (h : n ≤ c.left) :
    Parsing.endOf n (.ofCursor c) = .ok (c.pos + n) (.ofCursor c) := by
  have hend : c.pos + n ≤ c.data.length := Cursor.le_left_iff.mp h
  exact if_pos ⟨Nat.lt_of_le_of_lt hend (c.size_eq ▸ hword), hend⟩

/-- An end that is no word is an error like one that lies beyond the data. -/
theorem endOf_of_short (h : ¬ n ≤ c.left) :
    Parsing.endOf n (.ofCursor c) = .error (.fault .outOfBounds) (.ofCursor c) :=
  if_neg fun hend => h (Cursor.le_left_iff.mpr hend.2)

theorem follows_endOf (hword : c.size < wordLimit) : Follows (.endOf n) (Reader.endOf n) c := by
  by_cases h : n ≤ c.left
  · exact .of_ok (if_pos h) (endOf_of_room hword h)
  · exact .of_error (if_neg h) (endOf_of_short h)

theorem follows_advanceBy (hword : c.size < wordLimit) :
    Follows (.advanceBy n) (Reader.skip n) c := by
  by_cases h : n ≤ c.left
  · exact .of_ok (Reader.skip_of_room h) (bind_of_ok _ (endOf_of_room hword h))
  · exact .of_error (Reader.skip_of_short h) (bind_of_error _ (endOf_of_short h))

/-- Aligning follows, as the remainder is defined. -/
theorem follows_align (hword : c.size < wordLimit) (hn : 0 < n) :
    Follows (.align n) (Reader.align n) c := by
  have hexcess : c.pos % n ≤ n := Nat.le_of_lt (Nat.mod_lt _ hn)
  have halign : Parsing.align n (.ofCursor c) =
      Parsing.advanceBy ((n - c.pos % n) % n) (.ofCursor c) := by
    show (check (rem c.pos n) >>= _ : Parsing Unit) _ = _
    rw [rem_eq_ok (Nat.ne_of_gt hn), check_ok_bind, sub_eq_ok hexcess, check_ok_bind,
      rem_eq_ok (Nat.ne_of_gt hn), check_ok_bind]
  exact halign.trans (follows_advanceBy hword)

theorem follows_seek (p : Nat) : Follows (.seek p) (Reader.seek p) c := by
  by_cases h : p < c.size
  · have hseek : Parsing.seek p (.ofCursor c) = .ok () ⟨c.data, p⟩ := by
      show (if c.data.length ≤ p then _ else _ : Parsing Unit) _ = _
      rw [if_neg (Nat.not_le_of_lt (c.size_eq ▸ h))]
      rfl
    exact .of_ok (d := c.moveTo p (Nat.le_of_lt h)) (dif_pos h) hseek
  · have hseek : Parsing.seek p (.ofCursor c) = .error (.fault .outOfBounds) (.ofCursor c) := by
      show (if c.data.length ≤ p then _ else _ : Parsing Unit) _ = _
      rw [if_pos (c.size_eq ▸ Nat.le_of_not_lt h)]
      rfl
    exact .of_error (dif_neg h) hseek

theorem follows_peek : Follows .peek Reader.peek c := by
  have hnext : c.data[c.pos]? = c.ahead.head? := by rw [c.ahead_eq, List.head?_drop]
  show (match c.data[c.pos]? with | some b => _ | none => _ : Parsing UInt8) _ = _
  rw [hnext, Reader.peek]
  cases c.ahead with
  | nil => rfl
  | cons b rest => rfl

theorem follows_readBytes (hword : c.size < wordLimit) :
    Follows (.readBytes n) (Reader.take n) c := by
  by_cases h : n ≤ c.left
  · refine .of_ok (Reader.take_of_room h) ((bind_of_ok _ (endOf_of_room hword h)).trans ?_)
    show (check (slice c.data c.pos (c.pos + n)) >>= _ : Parsing Bytes) _ = _
    rw [slice_ahead h]
    rfl
  · exact .of_error (Reader.take_of_short h) (bind_of_error _ (endOf_of_short h))

/-- The bytes that are measured out are as many as the integer takes. -/
theorem follows_readScalar (hword : c.size < wordLimit) (k : Scalar.Kind) :
    Follows (.readScalar k) (Reader.scalar k) c := by
  by_cases h : k.width ≤ c.left
  · have hlength : (c.ahead.take k.width).length = k.width := by
      rw [List.length_take, c.length_ahead, Nat.min_eq_left h]
    refine .of_ok (bind_of_ok _ (Reader.take_of_room h))
      ((bind_of_ok _ (endOf_of_room hword h)).trans ?_)
    show (check (slice c.data c.pos (c.pos + k.width)) >>= _ : Parsing Scalar) _ = _
    rw [slice_ahead h, check_ok_bind, if_neg (not_not_intro hlength)]
    rfl
  · exact .of_error (bind_of_error _ (Reader.take_of_short h)) (bind_of_error _ (endOf_of_short h))

theorem follows_readText (hword : c.size < wordLimit) : Follows (readText n) (Reader.text n) c := by
  unfold readText Reader.text
  refine (follows_readBytes hword).bind fun bs d htake => ?_
  obtain ⟨-, hpasses⟩ := Reader.take_eq_ok.mp htake
  have hroom := hpasses.left
  have hshort : bs.length < wordLimit := by
    rw [Cursor.left] at hroom
    omega
  rw [decodeUnits_eq hshort]
  unfold Modified.decode
  cases standard? bs with
  | some text => exact .pure text
  | none => cases unitsAfter 0 #[] bs <;> rfl

end Steps

-- ---------------------------------------------------------------------------
-- Runs of operations
-- ---------------------------------------------------------------------------

section Runs

variable {c : Cursor} {op : Operation}

/-- An operation comes to the same in a parser, where it is defined. -/
theorem follows_perform (hword : c.size < wordLimit) (hdefined : op.Defined) :
    Follows (.perform op) op.reader c := by
  cases op with
  | seek p => exact (follows_seek p).map fun _ => Answer.done
  | advance => exact (follows_advanceBy hword).map fun _ => Answer.done
  | advanceBy n => exact (follows_advanceBy hword).map fun _ => Answer.done
  | align n => exact (follows_align hword hdefined).map fun _ => Answer.done
  | peek => exact follows_peek.map Answer.byte
  | endOf n => exact (follows_endOf hword).map Answer.position
  | scalar k => exact (follows_readScalar hword k).map Answer.scalar
  | take n => exact (follows_readBytes hword).map Answer.bytes
  | text n => exact (follows_readText hword).map Answer.text

/-- The machine is left where the cursor is, after any operation that is defined. -/
theorem after_ofCursor (hword : c.size < wordLimit) (hdefined : op.Defined) :
    (Parser.ofCursor c).after op = .ok (.ofCursor (op.reader.attempt c).2) := by
  rw [Parser.after, follows_perform hword hdefined, Reader.attempt]
  cases op.reader c <;> rfl

/-- Operations one after the other leave a parser where they leave a cursor. -/
theorem performAll_ofCursor {ops : List Operation} (hword : c.size < wordLimit)
    (hdefined : ∀ op ∈ ops, op.Defined) :
    (Parser.ofCursor c).performAll ops = .ok (.ofCursor (c.performAll ops)) := by
  induction ops generalizing c with
  | nil => rfl
  | cons op ops ih =>
    rw [List.forall_mem_cons] at hdefined
    have hword' : (op.reader.attempt c).2.size < wordLimit :=
      size_eq_of_data (op.performs hdefined.1 c).data ▸ hword
    rw [Parser.performAll, List.foldlM_cons, after_ofCursor hword hdefined.1, except_ok_bind]
    exact ih hword' hdefined.2

/-- Whatever operations have been performed on a position in data, failed ones
among them, the next one is disciplined; and where a word measures the data,
all of this is so on a machine. -/
theorem disciplined_performAll (data : Bytes) (ops : List Operation) (op : Operation)
    (hdefined : ∀ o ∈ op :: ops, o.Defined) :
    let c := (Cursor.ofBytes data).performAll ops
    c.data = data ∧
      op.Disciplined data c.pos (op.reader.attempt c).1 (op.reader.attempt c).2.pos ∧
      (data.length < wordLimit →
        (Parser.new data).performAll ops = .ok (.ofCursor c) ∧
          Parsing.perform op (.ofCursor c) = shown (op.reader c)) := by
  rw [List.forall_mem_cons] at hdefined
  obtain ⟨hop, hops⟩ := hdefined
  intro c
  -- no operation touches the bytes
  have hdata : c.data = data := Cursor.data_performAll hops _
  have hpos : c.pos ≤ data.length := by
    rw [← hdata, ← c.size_eq]
    exact c.pos_le
  have hdoes : op.Does data c.pos (op.reader.attempt c).1 (op.reader.attempt c).2.pos :=
    hdata ▸ (op.performs hop c).does
  refine ⟨hdata, hdoes.disciplined hop hpos, fun hword => ⟨?_, ?_⟩⟩
  · exact performAll_ofCursor (c := .ofBytes data) hword hops
  · exact follows_perform (by rwa [c.size_eq, hdata]) hop

/-- Two bytes that are no text, and four others. -/
def garbled : Bytes := [0xC3, 0x28, 0x00, 0x07, 0x01, 0x02]

/-- Operations of which every other one fails. The end of what is to be taken is no word. -/
def attempts : List Operation :=
  [.seek 6, .seek 0, .text 2, .scalar .u16, .take (wordLimit - 1), .advance]

/-- The bytes that are no text have been passed over; no multiple of 4 is left to go to. -/
theorem disciplined_attempts :
    (∀ o ∈ Operation.align 4 :: attempts, o.Defined) ∧ garbled.length < wordLimit ∧
      Operation.Disciplined garbled (.align 4) 5 (.error .outOfBounds) 5 ∧
      (Parser.new garbled).performAll attempts = .ok ⟨garbled, 5⟩ := by
  have hdefined : ∀ o ∈ Operation.align 4 :: attempts, o.Defined := by decide
  have hword : garbled.length < wordLimit := by decide
  obtain ⟨-, hdisciplined, hmachine⟩ := disciplined_performAll garbled attempts (.align 4) hdefined
  exact ⟨hdefined, hword, hdisciplined, (hmachine hword).1⟩

end Runs

end Backref.Machine
