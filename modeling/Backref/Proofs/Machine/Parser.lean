import Backref.Proofs.Bytes.Reading

/-!
# Parsing with partial operations

A `Reader` cannot go astray: a cursor lies within its data by its type, and
numbers have no bound. On a machine a position is any word, a range of bytes
is taken with two of them, sums and products may run over, and a loop goes on
for as long as its condition holds. This module says what reading comes down
to there. Each operation that is defined on a part of its arguments only has
that part written out, and *panics* elsewhere; a loop that goes round without
getting further is *stuck*.

A parsing *implements* a reader when from every cursor it comes to what the
reader comes to, and so neither panics nor gets stuck. Data that no machine
word can measure are left out of the comparison, though not of the promise:
there a parsing may fail early, with a fault.

Main results:

* `Implements.bind`, `Implements.times`, `Implements.table` — parsings that
  are put together implement readers that are put together in the same way;
* `implements_readInt`, `implements_readBytes`, `implements_advanceBy`,
  `implements_align` — the steps.
-/

namespace Backref.Machine

/-- Why a run ends without a value. -/
inductive Halt
  /-- An error is returned. -/
  | fault (cause : Fault)
  /-- A partial operation is applied outside its domain. -/
  | panic
  /-- A loop goes round without getting further. -/
  | stuck
  deriving DecidableEq, Repr

-- ---------------------------------------------------------------------------
-- Partial operations
-- ---------------------------------------------------------------------------

/-- How many numbers a machine word holds. -/
def wordLimit : Nat := UInt64.size

/-- The sum of two words, which has to be a word. -/
def add (a b : Nat) : Except Halt Nat :=
  if a + b < wordLimit then .ok (a + b) else .error .panic

/-- The difference of two words, of which the second must not be greater. -/
def sub (a b : Nat) : Except Halt Nat :=
  if b ≤ a then .ok (a - b) else .error .panic

/-- The product of two words, which has to be a word. -/
def mul (a b : Nat) : Except Halt Nat :=
  if a * b < wordLimit then .ok (a * b) else .error .panic

/-- The remainder of a division, which must not be by zero. -/
def rem (a b : Nat) : Except Halt Nat :=
  if b ≠ 0 then .ok (a % b) else .error .panic

/-- The byte at an index, which has to be one of the data. -/
def byteAt (data : Bytes) (index : Nat) : Except Halt UInt8 :=
  match data[index]? with
  | some b => .ok b
  | none => .error .panic

/-- The bytes of a range, which has to lie in the data the right way round. -/
def slice (data : Bytes) (start stop : Nat) : Except Halt Bytes :=
  if start ≤ stop ∧ stop ≤ data.length then .ok ((data.drop start).take (stop - start))
  else .error .panic

/-- A sum that fits a word is defined. -/
theorem add_eq_ok {a b : Nat} (h : a + b < wordLimit) : add a b = .ok (a + b) := if_pos h

theorem sub_eq_ok {a b : Nat} (h : b ≤ a) : sub a b = .ok (a - b) := if_pos h

theorem mul_eq_ok {a b : Nat} (h : a * b < wordLimit) : mul a b = .ok (a * b) := if_pos h

theorem rem_eq_ok {a b : Nat} (h : b ≠ 0) : rem a b = .ok (a % b) := if_pos h

theorem slice_eq_ok {data : Bytes} {start stop : Nat} (h : start ≤ stop ∧ stop ≤ data.length) :
    slice data start stop = .ok ((data.drop start).take (stop - start)) := if_pos h

/-- Goes on with the outcome of an operation. -/
def check {σ α : Type} : Except Halt α → EStateM Halt σ α
  | .ok a => pure a
  | .error halt => throw halt

theorem check_ok_bind {σ α β : Type} (a : α) (f : α → EStateM Halt σ β) :
    check (.ok a) >>= f = f a := rfl

/-- The outcome of something that may fail and does nothing partial. -/
def total {α : Type} : Except Fault α → Except Halt α
  | .ok a => .ok a
  | .error fault => .error (.fault fault)

-- ---------------------------------------------------------------------------
-- Loops
-- ---------------------------------------------------------------------------

section Rounds

variable {σ α β : Type}

/-- A loop. A round yields what the next one starts from, or the result; of
what is `left` to do, each has to leave less for the next. -/
def rounds (left : α → σ → Nat) (round : α → EStateM Halt σ (α ⊕ β)) (a : α) (s : σ) :
    EStateM.Result Halt σ β :=
  match round a s with
  | .error halt t => .error halt t
  | .ok (.inr b) t => .ok b t
  | .ok (.inl a') t =>
    if left a' t < left a s then rounds left round a' t else .error .stuck t
termination_by left a s

variable {left : α → σ → Nat} {round : α → EStateM Halt σ (α ⊕ β)} {a a' : α} {s t : σ}

/-- A round that goes on leaves the others to do. -/
theorem rounds_next (h : round a s = .ok (.inl a') t) (hless : left a' t < left a s) :
    rounds left round a s = rounds left round a' t := by
  rw [rounds, h]
  simp only
  rw [if_pos hless]

theorem rounds_done {b : β} (h : round a s = .ok (.inr b) t) :
    rounds left round a s = .ok b t := by
  rw [rounds, h]

theorem rounds_halt {halt : Halt} (h : round a s = .error halt t) :
    rounds left round a s = .error halt t := by
  rw [rounds, h]

/-- Where every round leaves less, a loop is its first round and then the rest. -/
theorem rounds_eq_bind (hless : ∀ {a' s t}, round a s = .ok (.inl a') t → left a' t < left a s) :
    rounds left round a = round a >>= Sum.elim (rounds left round) pure := by
  funext s
  cases h : round a s with
  | error halt t => rw [rounds_halt h, bind_of_error _ h]
  | ok r t =>
    rw [bind_of_ok _ h]
    cases r with
    | inl a' => exact rounds_next h (hless h)
    | inr b => exact rounds_done h

end Rounds

-- ---------------------------------------------------------------------------
-- Parsers
-- ---------------------------------------------------------------------------

/-- Data and a position, which may be anywhere. -/
structure Parser where
  data : Bytes
  position : Nat

/-- A computation that moves a parser. -/
abbrev Parsing := EStateM Halt Parser

namespace Parser

/-- A parser at the start of its data. -/
def new (data : Bytes) : Parser := ⟨data, 0⟩

/-- A parser at the place of a cursor. -/
def ofCursor (c : Cursor) : Parser := ⟨c.data, c.pos⟩

/-- How many bytes lie ahead. -/
def left (p : Parser) : Nat := p.data.length - p.position

end Parser

namespace Parsing

variable {α : Type}

/-- The current position. -/
def position : Parsing Nat := fun p => .ok p.position p

/-- The data. -/
def data : Parsing Bytes := fun p => .ok p.data p

/-- Whether the position is that of a byte. -/
def hasMoreData : Parsing Bool := fun p => .ok (p.position < p.data.length) p

/-- Goes to a position. -/
def goTo (position : Nat) : Parsing Unit := fun p => .ok () { p with position := position }

/-- Gives up because the contents are malformed. -/
def malformed (cause : Malformation) : Parsing α := throw (.fault (.malformed cause))

/-- The position `n` bytes further on. It is an error if that is no word, or
lies beyond the data. -/
def endOf (n : Nat) : Parsing Nat := fun p =>
  if p.position + n < wordLimit ∧ p.position + n ≤ p.data.length then .ok (p.position + n) p
  else .error (.fault .outOfBounds) p

/-- Passes over `n` bytes. -/
def advanceBy (n : Nat) : Parsing Unit := do
  goTo (← endOf n)

/-- Passes over as many bytes as it takes to reach a multiple of `alignment`. -/
def align (alignment : Nat) : Parsing Unit := do
  let excess ← check (rem (← position) alignment)
  let distance ← check (sub alignment excess)
  advanceBy (← check (rem distance alignment))

/-- Reads `n` bytes. -/
def readBytes (n : Nat) : Parsing Bytes := do
  let stop ← endOf n
  let bytes ← check (slice (← data) (← position) stop)
  goTo stop
  return bytes

/-- Reads a big-endian integer. The bytes have to be as many as it takes. -/
def readInt (α : Type) [FixedWidth α] : Parsing α := do
  let bytes ← readBytes (FixedWidth.width α)
  if bytes.length = FixedWidth.width α then return FixedWidth.decode bytes
  else throw .panic

/-- Runs a parsing `n` times and collects what it yields behind `seen`. -/
def timesOnto (m : Parsing α) : (n : Nat) → (seen : Array α) → Parsing (Array α)
  | 0, seen => pure seen
  | n + 1, seen => do timesOnto m n (seen.push (← m))

/-- Runs a parsing `n` times and collects what it yields. -/
def times (n : Nat) (m : Parsing α) : Parsing (Array α) := timesOnto m n #[]

/-- Reads a table: a 16-bit count, then that many entries. -/
def table (entry : Parsing α) : Parsing (Array α) := do
  times (← readInt UInt16).toNat entry

/-- What a parsing comes to from a parser, with where it leaves the parser. -/
def step (m : Parsing α) (p : Parser) : Except Halt (α × Parser) :=
  match m p with
  | .ok a q => .ok (a, q)
  | .error halt _ => .error halt

/-- Runs a parsing over data of its own. -/
def run (m : Parsing α) (data : Bytes) : Except Halt α :=
  match m (.new data) with
  | .ok a _ => .ok a
  | .error halt _ => .error halt

theorem run_of_ok {m : Parsing α} {bytes : Bytes} {a : α} {p : Parser}
    (h : m (.new bytes) = .ok a p) : m.run bytes = .ok a := by
  rw [run, h]

theorem run_of_error {m : Parsing α} {bytes : Bytes} {halt : Halt} {p : Parser}
    (h : m (.new bytes) = .error halt p) : m.run bytes = .error halt := by
  rw [run, h]

end Parsing

-- ---------------------------------------------------------------------------
-- Parsings and readers
-- ---------------------------------------------------------------------------

/-- How the outcome of a parsing stands to that of a reader from one cursor:
it is the same, and a value has a given property. -/
inductive Agrees {α : Type} (c : Cursor) (P : α → Prop) :
    EStateM.Result Halt Parser α → EStateM.Result Fault Cursor α → Prop
  | value {a : α} {d : Cursor} (data : d.data = c.data) (onward : c.pos ≤ d.pos) (holds : P a) :
      Agrees c P (.ok a (.ofCursor d)) (.ok a d)
  | fault {f : Fault} {p : Parser} {d : Cursor} : Agrees c P (.error (.fault f) p) (.error f d)
  /-- No word measures the data. -/
  | tooLong {f : Fault} {p : Parser} {y : EStateM.Result Fault Cursor α}
      (long : wordLimit ≤ c.size) : Agrees c P (.error (.fault f) p) y

/-- A parsing comes to what a reader comes to, with values of a given property. -/
def Implements {α : Type} (m : Parsing α) (r : Reader α) (P : α → Prop) : Prop :=
  ∀ c : Cursor, Agrees c P (m (.ofCursor c)) (r c)

section Composition

variable {α β : Type} {P : α → Prop} {Q : β → Prop}

theorem size_eq_of_data {c d : Cursor} (h : d.data = c.data) : d.size = c.size := by
  rw [d.size_eq, c.size_eq, h]

/-- Where a word measures the data, values and places are the same. -/
theorem Agrees.eq_ok {c d : Cursor} {x : EStateM.Result Halt Parser α} {a : α}
    (h : Agrees c P x (.ok a d)) (hword : c.size < wordLimit) : x = .ok a (.ofCursor d) := by
  cases h with
  | value => rfl
  | tooLong long => exact absurd long (Nat.not_le_of_lt hword)

/-- Where a word measures the data, faults are the same. -/
theorem Agrees.eq_error {c d : Cursor} {x : EStateM.Result Halt Parser α} {f : Fault}
    (h : Agrees c P x (.error f d)) (hword : c.size < wordLimit) :
    ∃ p, x = .error (.fault f) p := by
  cases h with
  | fault => exact ⟨_, rfl⟩
  | tooLong long => exact absurd long (Nat.not_le_of_lt hword)

/-- What goes on from an outcome agrees with what goes on from the other. -/
theorem Agrees.bind {c : Cursor} {m : Parsing α} {r : Reader α} {f : α → Parsing β}
    {g : α → Reader β} (h : Agrees c P (m (.ofCursor c)) (r c))
    (hnext : ∀ a d, d.data = c.data → c.pos ≤ d.pos → P a →
      Agrees d Q (f a (.ofCursor d)) (g a d)) :
    Agrees c Q ((m >>= f) (.ofCursor c)) ((r >>= g) c) := by
  generalize hm : m (.ofCursor c) = x, hr : r c = y at h
  cases h with
  | @value a d data onward holds =>
    rw [bind_of_ok f hm, bind_of_ok g hr]
    have hrest := hnext a d data onward holds
    generalize f a (.ofCursor d) = x, g a d = y at hrest
    -- the second step starts where the first has ended, on the same bytes
    cases hrest with
    | value data' onward' holds' =>
      exact .value (data'.trans data) (Nat.le_trans onward onward') holds'
    | fault => exact .fault
    | tooLong long => exact .tooLong (size_eq_of_data data ▸ long)
  | fault =>
    rw [bind_of_error f hm, bind_of_error g hr]
    exact .fault
  | tooLong long =>
    rw [bind_of_error f hm]
    exact .tooLong long

namespace Implements

theorem pure {a : α} (h : P a) : Implements (Pure.pure a) (Pure.pure a) P :=
  fun _ => .value rfl (Nat.le_refl _) h

theorem throw (f : Fault) : Implements (throw (.fault f)) (throw f) P := fun _ => .fault

theorem malformed (cause : Malformation) :
    Implements (.malformed cause) (Reader.malformed cause) P := throw _

/-- Two steps implement two steps, if what the first promises is enough for the second. -/
theorem bind {m : Parsing α} {r : Reader α} {f : α → Parsing β} {g : α → Reader β}
    (h : Implements m r P) (hnext : ∀ a, P a → Implements (f a) (g a) Q) :
    Implements (m >>= f) (r >>= g) Q :=
  fun c => (h c).bind fun a d _ _ ha => hnext a ha d

theorem ite {b : Prop} [Decidable b] {m m' : Parsing α} {r r' : Reader α}
    (h : b → Implements m r P) (h' : ¬ b → Implements m' r' P) :
    Implements (if b then m else m') (if b then r else r') P := by
  by_cases hb : b
  · rw [if_pos hb, if_pos hb]
    exact h hb
  · rw [if_neg hb, if_neg hb]
    exact h' hb

/-- Entries that are implemented are read onto those before them. -/
theorem timesOnto {m : Parsing α} {r : Reader α} (h : Implements m r P) {n : Nat}
    {seen : Array α} (hseen : ∀ a ∈ seen, P a) :
    Implements (m.timesOnto n seen) (r.timesOnto n seen) fun as => ∀ a ∈ as, P a := by
  induction n generalizing seen with
  | zero => exact .pure hseen
  | succ n ih =>
    refine .bind h fun a ha => ih fun b hb => ?_
    rcases Array.mem_push.mp hb with hb | rfl
    · exact hseen b hb
    · exact ha

theorem times {m : Parsing α} {r : Reader α} (h : Implements m r P) (n : Nat) :
    Implements (.times n m) (.times n r) fun as => ∀ a ∈ as, P a :=
  h.timesOnto fun a ha => absurd ha (Array.not_mem_empty a)

end Implements

end Composition

-- ---------------------------------------------------------------------------
-- Steps
-- ---------------------------------------------------------------------------

section Steps

variable {α : Type} {P : α → Prop}

theorem length_data (c : Cursor) : (Parser.ofCursor c).data.length = c.size := c.size_eq.symm

theorem left_ofCursor (c : Cursor) : (Parser.ofCursor c).left = c.left := by
  rw [Parser.left, length_data]
  rfl

theorem implements_position :
    Implements .position Reader.position fun _ => True :=
  fun _ => .value rfl (Nat.le_refl _) trivial

theorem implements_hasMoreData :
    Implements .hasMoreData Reader.hasMore fun _ => True := by
  intro c
  show Agrees c _ (.ok (decide (c.pos < c.data.length)) _) (.ok (decide (c.pos < c.size)) c)
  rw [c.size_eq]
  exact .value rfl (Nat.le_refl _) trivial

/-- Measuring out bytes: where the end is no word, or lies beyond the data,
no bytes can be read, and otherwise they can. -/
theorem endOf_cases (n : Nat) (c : Cursor) :
    (∃ p, Parsing.endOf n (.ofCursor c) = .error (.fault .outOfBounds) p) ∧
        (¬ n ≤ c.left ∨ wordLimit ≤ c.size) ∨
      Parsing.endOf n (.ofCursor c) = .ok (c.pos + n) (.ofCursor c) ∧ n ≤ c.left := by
  have hle := c.pos_le
  -- the sum is checked before it is compared
  have hend : Parsing.endOf n (.ofCursor c) =
      if c.pos + n < wordLimit ∧ c.pos + n ≤ c.size then .ok (c.pos + n) (.ofCursor c)
      else .error (.fault .outOfBounds) (.ofCursor c) := by
    rw [c.size_eq]
    rfl
  unfold Cursor.left
  by_cases h : c.pos + n < wordLimit ∧ c.pos + n ≤ c.size
  · rw [hend, if_pos h]
    exact .inr ⟨rfl, by omega⟩
  · rw [hend, if_neg h]
    refine .inl ⟨⟨_, rfl⟩, ?_⟩
    omega

theorem implements_endOf (n : Nat) :
    Implements (.endOf n) (Reader.endOf n) fun _ => True := by
  intro c
  unfold Reader.endOf
  rcases endOf_cases n c with ⟨⟨p, hend⟩, hshort | hlong⟩ | ⟨hend, hroom⟩
  · rw [hend, if_neg hshort]
    exact .fault
  · rw [hend]
    exact .tooLong hlong
  · rw [hend, if_pos hroom]
    exact .value rfl (Nat.le_refl _) trivial

theorem implements_advanceBy (n : Nat) :
    Implements (.advanceBy n) (Reader.skip n) fun _ => True := by
  intro c
  unfold Parsing.advanceBy Reader.skip
  rcases endOf_cases n c with ⟨⟨p, hend⟩, hshort | hlong⟩ | ⟨hend, hroom⟩
  · rw [bind_of_error _ hend, dif_neg hshort]
    exact .fault
  · rw [bind_of_error _ hend]
    exact .tooLong hlong
  · rw [bind_of_ok _ hend, dif_pos hroom]
    exact .value (d := c.advance n hroom) rfl (Nat.le_add_right _ _) trivial

/-- The range that is measured out can be taken. -/
theorem slice_ahead {n : Nat} {c : Cursor} (h : n ≤ c.left) :
    slice c.data c.pos (c.pos + n) = .ok (c.ahead.take n) := by
  have hle := c.pos_le
  have hsize := c.size_eq
  unfold Cursor.left at h
  rw [slice_eq_ok ⟨by omega, by omega⟩, c.ahead_eq, Nat.add_sub_cancel_left]

/-- Reading bytes takes as many as are asked for. -/
theorem implements_readBytes (n : Nat) :
    Implements (.readBytes n) (Reader.take n) fun bytes => bytes.length = n := by
  intro c
  unfold Parsing.readBytes Reader.take
  rcases endOf_cases n c with ⟨⟨p, hend⟩, hshort | hlong⟩ | ⟨hend, hroom⟩
  · rw [bind_of_error _ hend, dif_neg hshort]
    exact .fault
  · rw [bind_of_error _ hend]
    exact .tooLong hlong
  · rw [bind_of_ok _ hend, dif_pos hroom]
    show Agrees c _ ((check (slice c.data c.pos (c.pos + n)) >>= _ : Parsing Bytes) _) _
    rw [slice_ahead hroom]
    refine .value (d := c.advance n hroom) rfl (Nat.le_add_right _ _) ?_
    rw [List.length_take, c.length_ahead, Nat.min_eq_left hroom]

theorem implements_readInt (α : Type) [FixedWidth α] :
    Implements (.readInt α) (Reader.int α) fun _ => True := by
  unfold Parsing.readInt Reader.int
  refine .bind (implements_readBytes _) fun bytes hlength => ?_
  rw [if_pos hlength]
  exact .pure trivial

/-- The byte at the position is read. -/
theorem readByte_eq_ok {p : Parser} {b : UInt8} (hbyte : p.data[p.position]? = some b)
    (hword : p.data.length < wordLimit) :
    Parsing.readInt UInt8 p = .ok b ⟨p.data, p.position + 1⟩ := by
  obtain ⟨hlt, hget⟩ := List.getElem?_eq_some_iff.mp hbyte
  have hend : Parsing.endOf 1 p = .ok (p.position + 1) p := if_pos ⟨by omega, hlt⟩
  -- the slice is the one byte at the position
  have hslice : slice p.data p.position (p.position + 1) = .ok [b] := by
    rw [slice_eq_ok ⟨Nat.le_succ _, hlt⟩, List.drop_eq_getElem_cons hlt, hget,
      show p.position + 1 - p.position = 1 by omega]
    rfl
  have hbytes : Parsing.readBytes 1 p = .ok [b] ⟨p.data, p.position + 1⟩ := by
    rw [Parsing.readBytes, bind_of_ok _ hend]
    show (check (slice p.data p.position (p.position + 1)) >>= _ : Parsing Bytes) p = _
    rw [hslice]
    rfl
  have hdecode : (FixedWidth.decode [b] : UInt8) = b := by
    rw [← FixedWidth.encode_byte b, FixedWidth.decode_encode]
  refine (bind_of_ok _ hbytes).trans ?_
  show EStateM.Result.ok (FixedWidth.decode [b]) _ = _
  rw [hdecode]

/-- Behind the data there is no byte to read. -/
theorem readByte_eq_error {p : Parser} (h : p.data.length ≤ p.position) :
    Parsing.readInt UInt8 p = .error (.fault .outOfBounds) p := by
  have hend : Parsing.endOf 1 p = .error (.fault .outOfBounds) p := if_neg (by omega)
  have hbytes : Parsing.readBytes 1 p = .error (.fault .outOfBounds) p := bind_of_error _ hend
  exact bind_of_error _ hbytes

/-- Where the alignment is no zero, no difference and no remainder on the way
to a multiple of it is undefined. -/
theorem implements_align {alignment : Nat} (h : 0 < alignment) :
    Implements (.align alignment) (Reader.align alignment) fun _ => True := by
  have hne : alignment ≠ 0 := Nat.pos_iff_ne_zero.mp h
  unfold Parsing.align Reader.align
  refine .bind implements_position fun position _ => ?_
  have hexcess : position % alignment ≤ alignment := Nat.le_of_lt (Nat.mod_lt _ h)
  rw [rem_eq_ok hne, check_ok_bind, sub_eq_ok hexcess, check_ok_bind, rem_eq_ok hne, check_ok_bind]
  exact implements_advanceBy _

/-- A table is read as its entries are. -/
theorem Implements.table {entry : Parsing α} {r : Reader α} (h : Implements entry r P) :
    Implements (.table entry) (.table r) fun as => ∀ a ∈ as, P a :=
  .bind (implements_readInt UInt16) fun n _ => h.times n.toNat

/-- Data of their own, where a word measures them, are parsed as they are read. -/
theorem Implements.run {m : Parsing α} {r : Reader α} (h : Implements m r P) {bytes : Bytes}
    (hbytes : bytes.length < wordLimit) :
    m.run bytes = total (r.run bytes) ∧ ∀ a, r.run bytes = .ok a → P a := by
  have hrun := h (Cursor.ofBytes bytes)
  change Agrees _ P (m (.new bytes)) _ at hrun
  unfold Parsing.run Reader.run
  generalize m (.new bytes) = x, r (Cursor.ofBytes bytes) = y at hrun
  cases hrun with
  | value data onward holds =>
    refine ⟨rfl, fun a ha => ?_⟩
    cases ha
    exact holds
  | fault => exact ⟨rfl, fun a ha => nomatch ha⟩
  | tooLong long => exact absurd long (Nat.not_le_of_lt hbytes)

end Steps

end Backref.Machine
