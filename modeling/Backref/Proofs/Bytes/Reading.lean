import Backref.Bytes.Reader
import Backref.Proofs.Outcome

/-!
# What readers accept

A cursor *passes* a byte string on its way to another cursor when those are
the bytes between the two. A reader is described by the byte strings that it
passes and by what it yields for them; a sequence of readers passes the
concatenation of what its parts pass.

Main results:

* `Reader.int_eq_ok`, `Reader.take_eq_ok`, `Reader.skip_eq_ok` — the steps;
* `Reader.times_eq_ok`, `Reader.table_eq_ok` — repeated entries that each have
  one written form;
* `Reader.run_eq_ok`, `Reader.run_eq_error` — what a reader does to a byte string of its own.
-/

namespace Backref

/-- A byte is written as itself. -/
theorem FixedWidth.encode_byte (b : UInt8) : (FixedWidth.encode b : Bytes) = [b] := by
  show [UInt8.ofNat (b.toNat / 1)] = _
  rw [Nat.div_one, UInt8.ofNat_toNat]

/-- A count is found again under its 16 bits. -/
theorem toNat_ofNat_count {n : Nat} (h : n ≤ countLimit) : (UInt16.ofNat n).toNat = n := by
  rw [countLimit] at h
  rw [UInt16.toNat_ofNat']
  omega

namespace Cursor

/-- The bytes between two cursors over the same data. -/
structure Passes (c : Cursor) (bs : Bytes) (d : Cursor) : Prop where
  data : d.data = c.data
  pos : d.pos = c.pos + bs.length
  ahead : c.ahead = bs ++ d.ahead

/-- A cursor that passes bytes has that many fewer left. -/
theorem Passes.left {c d : Cursor} {bs : Bytes} (h : c.Passes bs d) :
    c.left = bs.length + d.left := by
  rw [← length_ahead, ← length_ahead, h.ahead, List.length_append]

theorem ahead_eq_nil {c : Cursor} (h : c.left = 0) : c.ahead = [] :=
  List.length_eq_zero_iff.mp (c.length_ahead.trans h)

/-- Passing no bytes is staying where one is. -/
theorem passes_nil {c d : Cursor} : c.Passes [] d ↔ c = d := by
  constructor
  · intro h
    exact ext h.data.symm h.pos.symm
  · rintro rfl
    exact ⟨rfl, rfl, rfl⟩

/-- Two byte strings are passed one after the other. -/
theorem passes_append {c d : Cursor} {as bs : Bytes} :
    c.Passes (as ++ bs) d ↔ ∃ m, c.Passes as m ∧ m.Passes bs d := by
  constructor
  · intro h
    -- the cursor between the two has passed the first string, so that has to fit
    have hroom : as.length ≤ c.left := by
      rw [h.left, List.length_append]
      omega
    refine ⟨c.advance as.length hroom, ⟨rfl, rfl, ?_⟩, ⟨h.data, ?_, ?_⟩⟩
    · show c.ahead = as ++ c.ahead.drop as.length
      rw [h.ahead, List.append_assoc, List.drop_left]
    · rw [h.pos, List.length_append, pos_advance, Nat.add_assoc]
    · show c.ahead.drop as.length = _
      rw [h.ahead, List.append_assoc, List.drop_left]
  · rintro ⟨m, has, hbs⟩
    refine ⟨hbs.data.trans has.data, ?_, ?_⟩
    · rw [hbs.pos, has.pos, List.length_append, Nat.add_assoc]
    · rw [has.ahead, hbs.ahead, List.append_assoc]

/-- A byte string is passed by its first byte and then the others. -/
theorem passes_cons {c d : Cursor} {b : UInt8} {bs : Bytes} :
    c.Passes (b :: bs) d ↔ ∃ m, c.Passes [b] m ∧ m.Passes bs d :=
  @passes_append c d [b] bs

/-- Cursors that pass byte strings of one length come to the same place. -/
theorem Passes.unique {c d d' : Cursor} {bs bs' : Bytes} (h : c.Passes bs d)
    (h' : c.Passes bs' d') (hlength : bs.length = bs'.length) : bs = bs' ∧ d = d' := by
  refine ⟨?_, ext (h.data.trans h'.data.symm) ?_⟩
  · exact List.append_inj_left (h.ahead.symm.trans h'.ahead) hlength
  · rw [h.pos, h'.pos, hlength]

/-- The first bytes ahead can be passed. -/
theorem passes_advance (c : Cursor) (n : Nat) (h : n ≤ c.left) :
    c.Passes (c.ahead.take n) (c.advance n h) := by
  refine ⟨rfl, ?_, ?_⟩
  · rw [pos_advance, List.length_take, length_ahead, Nat.min_eq_left h]
  · exact (List.take_append_drop n c.ahead).symm

/-- A cursor passes whatever starts the bytes ahead. -/
theorem exists_passes {c : Cursor} {bs rest : Bytes} (h : c.ahead = bs ++ rest) :
    ∃ d, c.Passes bs d ∧ d.ahead = rest := by
  have hroom : bs.length ≤ c.left := by
    rw [← length_ahead, h, List.length_append]
    omega
  refine ⟨c.advance bs.length hroom, ⟨rfl, rfl, ?_⟩, ?_⟩
  · show c.ahead = bs ++ c.ahead.drop bs.length
    rw [h, List.drop_left]
  · show c.ahead.drop bs.length = rest
    rw [h, List.drop_left]

/-- Passing bytes is to have them ahead and to stand behind them afterwards. -/
theorem passes_iff_prefix {c d : Cursor} {bs : Bytes} :
    c.Passes bs d ↔ bs <+: c.ahead ∧ d.data = c.data ∧ d.pos = c.pos + bs.length := by
  constructor
  · intro h
    exact ⟨⟨d.ahead, h.ahead.symm⟩, h.data, h.pos⟩
  · rintro ⟨⟨rest, hrest⟩, hdata, hpos⟩
    obtain ⟨d', hpasses, -⟩ := exists_passes hrest.symm
    obtain rfl : d' = d := ext (hpasses.data.trans hdata.symm) (hpasses.pos.trans hpos.symm)
    exact hpasses

/-- From the start, all the bytes that there are can be passed. -/
theorem ofBytes_passes (bs : Bytes) :
    ∃ d, (ofBytes bs).Passes bs d ∧ d.ahead = [] := exists_passes (List.append_nil bs).symm

end Cursor

namespace Reader

open Cursor

variable {α : Type}

-- ---------------------------------------------------------------------------
-- Steps
-- ---------------------------------------------------------------------------

theorem position_apply (c : Cursor) : position c = .ok c.pos c := rfl

/-- There is more exactly where something lies ahead. -/
theorem hasMore_eq_ok {c d : Cursor} {b : Bool} :
    hasMore c = .ok b d ↔ decide (c.ahead ≠ []) = b ∧ c = d := by
  have hmore : (c.pos < c.size) ↔ c.ahead ≠ [] := by
    rw [ne_eq, ← List.length_eq_zero_iff, length_ahead, left]
    omega
  rw [hasMore, EStateM.Result.ok.injEq]
  simp [hmore]

theorem malformed_ne_ok {cause : Malformation} {c d : Cursor} {a : α} :
    malformed cause c ≠ .ok a d := throw_ne_ok

/-- Taking bytes passes them, and yields as many as were asked for. -/
theorem take_eq_ok {n : Nat} {c d : Cursor} {bs : Bytes} :
    take n c = .ok bs d ↔ bs.length = n ∧ c.Passes bs d := by
  unfold take
  -- either there are enough bytes, or no string of that length can be passed
  split
  · rename_i h
    rw [EStateM.Result.ok.injEq]
    have hlength : (c.ahead.take n).length = n := by
      rw [List.length_take, length_ahead, Nat.min_eq_left h]
    constructor
    · rintro ⟨rfl, rfl⟩
      exact ⟨hlength, passes_advance c n h⟩
    · rintro ⟨hn, hpasses⟩
      exact (passes_advance c n h).unique hpasses (hlength.trans hn.symm)
  · rename_i h
    constructor
    · intro herror
      cases herror
    · rintro ⟨hn, hpasses⟩
      have := hpasses.left
      omega

/-- Skipping passes as many bytes as were asked for, whatever they are. -/
theorem skip_eq_ok {n : Nat} {c d : Cursor} {u : Unit} :
    skip n c = .ok u d ↔ ∃ bs : Bytes, bs.length = n ∧ c.Passes bs d := by
  have htake : skip n c = .ok u d ↔ ∃ bs, take n c = .ok bs d := by
    unfold skip take
    split <;> simp
  rw [htake]
  exact exists_congr fun bs => take_eq_ok

/-- Reading an integer passes its one written form. -/
theorem int_eq_ok [FixedWidth α] {c d : Cursor} {a : α} :
    int α c = .ok a d ↔ c.Passes (FixedWidth.encode a) d := by
  rw [int, bind_eq_ok]
  constructor
  · rintro ⟨bs, m, htake, hpure⟩
    obtain ⟨hlength, hpasses⟩ := take_eq_ok.mp htake
    obtain ⟨rfl, rfl⟩ := pure_eq_ok.mp hpure
    rw [FixedWidth.encode_decode bs hlength]
    exact hpasses
  · intro hpasses
    refine ⟨FixedWidth.encode a, d, take_eq_ok.mpr ⟨FixedWidth.length_encode a, hpasses⟩, ?_⟩
    rw [FixedWidth.decode_encode]
    rfl

/-- What is made of one integer. -/
theorem readOne_eq_ok {β : Type} [FixedWidth α] {f : α → β} {c d : Cursor} {o : β} :
    (do return f (← int α) : Reader β) c = .ok o d ↔
      ∃ bs, (∃ a, bs = FixedWidth.encode a ∧ o = f a) ∧ c.Passes bs d := by
  simp only [bind_eq_ok, int_eq_ok, pure_eq_ok]
  constructor
  · rintro ⟨a, m, ha, rfl, rfl⟩
    exact ⟨_, ⟨a, rfl, rfl⟩, ha⟩
  · rintro ⟨_, ⟨a, rfl, rfl⟩, hpasses⟩
    exact ⟨a, d, hpasses, rfl, rfl⟩

/-- What is made of two integers. -/
theorem readTwo_eq_ok {β γ : Type} [FixedWidth α] [FixedWidth β] {f : α → β → γ}
    {c d : Cursor} {o : γ} :
    (do return f (← int α) (← int β) : Reader γ) c = .ok o d ↔
      ∃ bs, (∃ a b, bs = FixedWidth.encode a ++ FixedWidth.encode b ∧ o = f a b) ∧
        c.Passes bs d := by
  simp only [bind_eq_ok, int_eq_ok, pure_eq_ok]
  constructor
  · rintro ⟨a, m, ha, b, m', hb, rfl, rfl⟩
    exact ⟨_, ⟨a, b, rfl, rfl⟩, passes_append.mpr ⟨m, ha, hb⟩⟩
  · rintro ⟨_, ⟨a, b, rfl, rfl⟩, hpasses⟩
    obtain ⟨m, ha, hb⟩ := passes_append.mp hpasses
    exact ⟨a, m, ha, b, d, hb, rfl, rfl⟩

-- ---------------------------------------------------------------------------
-- Repeated entries
-- ---------------------------------------------------------------------------

section Entries

variable {entry : Reader α} {encode : α → Bytes}

/-- Reading entries behind others passes their written forms in order. -/
theorem timesOnto_eq_ok (hentry : ∀ {c d a}, entry c = .ok a d ↔ c.Passes (encode a) d)
    {n : Nat} {seen as : Array α} {c d : Cursor} :
    timesOnto entry n seen c = .ok as d ↔
      ∃ more : List α, more.length = n ∧ as = seen ++ more ∧ c.Passes (more.flatMap encode) d := by
  -- the entries that are read pile up behind those in `seen`
  induction n generalizing seen c with
  | zero =>
    rw [timesOnto, pure_eq_ok]
    constructor
    · rintro ⟨rfl, rfl⟩
      exact ⟨[], rfl, by simp, passes_nil.mpr rfl⟩
    · rintro ⟨more, hlength, rfl, hpasses⟩
      obtain rfl := List.length_eq_zero_iff.mp hlength
      exact ⟨by simp, passes_nil.mp hpasses⟩
  | succ n ih =>
    rw [timesOnto, bind_eq_ok]
    constructor
    · rintro ⟨a, m, ha, hrest⟩
      obtain ⟨more, hlength, rfl, hpasses⟩ := ih.mp hrest
      exact ⟨a :: more, by simp [hlength], by simp,
        passes_append.mpr ⟨m, hentry.mp ha, hpasses⟩⟩
    · rintro ⟨more, hlength, rfl, hpasses⟩
      obtain ⟨a, more, rfl⟩ := List.exists_cons_of_length_eq_add_one hlength
      obtain ⟨m, ha, hrest⟩ := passes_append.mp hpasses
      exact ⟨a, m, hentry.mpr ha, ih.mpr ⟨more, by simpa using hlength, by simp, hrest⟩⟩

/-- Reading as many entries as were asked for passes their written forms in order. -/
theorem times_eq_ok (hentry : ∀ {c d a}, entry c = .ok a d ↔ c.Passes (encode a) d)
    {n : Nat} {as : Array α} {c d : Cursor} :
    times n entry c = .ok as d ↔ as.size = n ∧ c.Passes (as.toList.flatMap encode) d := by
  rw [times, timesOnto_eq_ok hentry]
  constructor
  · rintro ⟨more, rfl, rfl, hpasses⟩
    exact ⟨by simp, by simpa using hpasses⟩
  · rintro ⟨rfl, hpasses⟩
    exact ⟨as.toList, rfl, by simp, hpasses⟩

/-- A table is a 16-bit count and then its entries. -/
theorem table_eq_ok (hentry : ∀ {c d a}, entry c = .ok a d ↔ c.Passes (encode a) d)
    {as : Array α} {c d : Cursor} :
    table entry c = .ok as d ↔ as.size ≤ countLimit ∧
      c.Passes (FixedWidth.encode (UInt16.ofNat as.size) ++ as.toList.flatMap encode) d := by
  rw [table, bind_eq_ok]
  constructor
  · rintro ⟨count, m, hcount, htimes⟩
    obtain ⟨hsize, hpasses⟩ := (times_eq_ok hentry).mp htimes
    -- a count in 16 bits is never above the limit
    have hlt := count.toNat_lt
    refine ⟨by rw [hsize, countLimit]; omega, passes_append.mpr ⟨m, ?_, hpasses⟩⟩
    rw [hsize, UInt16.ofNat_toNat]
    exact int_eq_ok.mp hcount
  · rintro ⟨hsize, hpasses⟩
    obtain ⟨m, hcount, hentries⟩ := passes_append.mp hpasses
    refine ⟨UInt16.ofNat as.size, m, int_eq_ok.mpr hcount, (times_eq_ok hentry).mpr ⟨?_, hentries⟩⟩
    exact (toNat_ofNat_count hsize).symm

end Entries

-- ---------------------------------------------------------------------------
-- Byte strings of their own
-- ---------------------------------------------------------------------------

/-- A run yields what reading from the start yields. -/
theorem run_eq_ok {r : Reader α} {bs : Bytes} {a : α} :
    r.run bs = .ok a ↔ ∃ d, r (ofBytes bs) = .ok a d := by
  unfold run
  cases r (ofBytes bs) with
  | ok b d => simp
  | error f d => simp

/-- A run fails as reading from the start fails. -/
theorem run_eq_error {r : Reader α} {bs : Bytes} {f : Fault} :
    r.run bs = .error f ↔ ∃ d, r (ofBytes bs) = .error f d := by
  unfold run
  cases r (ofBytes bs) with
  | ok b d => simp
  | error f d => simp

end Reader

end Backref
