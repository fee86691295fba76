import Backref.Proofs.Machine.Operations

/-!
# Integers written in a row

Integers of any types are pushed onto a byte string, one behind the other, and
read again from where the byte string ended before. Nothing marks where an
integer ends or what its type is; the types in order decide both. So a byte
string is a row of integers under any types whose widths add up to its length,
and one row only.

Main results:

* `Scalar.value_encode` — the number that the bytes of an integer are;
* `Scalar.readAllAt_eq_ok` — integers are read at an offset exactly if their forms
  stand there;
* `Scalar.exists_encodeAll` — the row that a byte string is;
* `Machine.readScalar_eq`, `Machine.mapM_readScalar` — reading with an offset that is a
  machine word and is moved by every integer;
* `Machine.read_and_push` — pushing and reading are inverse.
-/

namespace Backref

-- Powers and sums are those of the core library, whatever hierarchy of algebra is in scope.
attribute [local instance (high)] instPowNat Zero.ofOfNat0

-- ---------------------------------------------------------------------------
-- Forms
-- ---------------------------------------------------------------------------

namespace BigEndian

/-- As many digits as a width has keep a number up to its multiples. -/
theorem value_digits_natCast (w n : Nat) :
    (value (digits w n) : Int) = n % (256 ^ w : Nat) := by
  rw [value_digits, Int.natCast_emod]

/-- The digits of a bit pattern, where the pattern stands for a signed number. -/
theorem value_digits_toInt {w n : Nat} (hn : 256 ^ w = 2 ^ n) (b : BitVec n) :
    (value (digits w b.toNat) : Int) = b.toInt % (256 ^ w : Nat) := by
  rw [value_digits_natCast, hn, BitVec.toInt_eq_toNat_bmod, Int.bmod_emod]

end BigEndian

namespace Scalar

/-- The form of an integer has the integer for its value, modulo what as many bytes
can tell apart: a negative one is in two's complement. -/
theorem value_encode (v : Scalar) :
    (BigEndian.value v.encode : Int) = v.toInt % (256 ^ v.kind.width : Nat) := by
  cases v with
  | u8 v => exact BigEndian.value_digits_natCast 1 v.toNat
  | u16 v => exact BigEndian.value_digits_natCast 2 v.toNat
  | u32 v => exact BigEndian.value_digits_natCast 4 v.toNat
  | u64 v => exact BigEndian.value_digits_natCast 8 v.toNat
  | i8 v => exact BigEndian.value_digits_toInt rfl v.toBitVec
  | i16 v => exact BigEndian.value_digits_toInt rfl v.toBitVec
  | i32 v => exact BigEndian.value_digits_toInt rfl v.toBitVec
  | i64 v => exact BigEndian.value_digits_toInt rfl v.toBitVec

-- ---------------------------------------------------------------------------
-- Rows
-- ---------------------------------------------------------------------------

/-- Writes an integer behind a byte string. -/
def push (out : Bytes) (v : Scalar) : Bytes := out ++ v.encode

/-- Writes integers behind a byte string, one after the other. -/
def pushAll (out : Bytes) (values : List Scalar) : Bytes := values.foldl push out

theorem encodeAll_cons (v : Scalar) (vs : List Scalar) :
    encodeAll (v :: vs) = v.encode ++ encodeAll vs := List.flatMap_cons

theorem pushAll_eq (out : Bytes) (values : List Scalar) :
    pushAll out values = out ++ encodeAll values := by
  induction values generalizing out with
  | nil => exact (List.append_nil out).symm
  | cons v vs ih =>
    show pushAll (push out v) vs = _
    rw [ih, push, encodeAll_cons, List.append_assoc]

/-- A byte string is a row of integers under any types whose widths add up to
its length. -/
theorem exists_encodeAll {ks : List Kind} {bytes : Bytes}
    (h : (ks.map Kind.width).sum = bytes.length) :
    ∃ values, values.map kind = ks ∧ encodeAll values = bytes := by
  induction ks generalizing bytes with
  | nil => exact ⟨[], rfl, (List.length_eq_zero_iff.mp h.symm).symm⟩
  | cons k ks ih =>
    rw [List.map_cons, List.sum_cons] at h
    have hfirst : (bytes.take k.width).length = k.width := List.length_take_of_le (by omega)
    have hothers : (ks.map Kind.width).sum = (bytes.drop k.width).length := by
      rw [List.length_drop]
      omega
    obtain ⟨values, hkinds, hvalues⟩ := ih hothers
    refine ⟨decode k (bytes.take k.width) :: values, ?_, ?_⟩
    · rw [List.map_cons, kind_decode, hkinds]
    · rw [encodeAll_cons, encode_decode hfirst, hvalues, List.take_append_drop]

-- ---------------------------------------------------------------------------
-- Reading at an offset
-- ---------------------------------------------------------------------------

section Reading

variable {data : Bytes} {offset stop : Nat}

/-- What stands at an offset in two parts. -/
theorem append_prefix_drop {as bs : Bytes} :
    as ++ bs <+: data.drop offset ↔
      as <+: data.drop offset ∧ bs <+: data.drop (offset + as.length) := by
  constructor
  · rintro ⟨rest, hrest⟩
    refine ⟨⟨bs ++ rest, by rw [← hrest, List.append_assoc]⟩, rest, ?_⟩
    rw [← List.drop_drop, ← hrest, List.append_assoc, List.drop_left]
  · rintro ⟨⟨rest, hrest⟩, hbs⟩
    rw [← List.drop_drop, ← hrest, List.drop_left] at hbs
    rw [← hrest]
    exact (List.prefix_append_right_inj as).mpr hbs

theorem length_take_drop {n : Nat} (h : offset + n ≤ data.length) :
    ((data.drop offset).take n).length = n := by
  rw [List.length_take, List.length_drop]
  omega

/-- A value is read where there is room for it. -/
theorem readAt_of_room {k : Kind} (h : offset + k.width ≤ data.length) :
    readAt k data offset =
      .ok (decode k ((data.drop offset).take k.width), offset + k.width) := if_pos h

theorem readAt_of_short {k : Kind} (h : data.length < offset + k.width) :
    readAt k data offset = .error .outOfBounds := if_neg (Nat.not_le_of_lt h)

/-- At the end of the data no integer is read. -/
theorem readAt_end (k : Kind) : readAt k data data.length = .error .outOfBounds :=
  readAt_of_short (Nat.lt_add_of_pos_right k.width_pos)

/-- An integer is read at an offset exactly if its form stands there. -/
theorem readAt_eq_ok {k : Kind} {v : Scalar} :
    readAt k data offset = .ok (v, stop) ↔
      v.kind = k ∧ v.encode <+: data.drop offset ∧ stop = offset + v.encode.length := by
  constructor
  · intro h
    by_cases hroom : offset + k.width ≤ data.length
    · rw [readAt_of_room hroom] at h
      cases h
      have hlength := length_take_drop hroom
      rw [encode_decode hlength, hlength]
      exact ⟨kind_decode k _, List.take_prefix _ _, rfl⟩
    · rw [readAt_of_short (Nat.lt_of_not_le hroom)] at h
      cases h
  · rintro ⟨rfl, hform, rfl⟩
    -- the bytes of the value lie ahead, so there is room for them
    have hlength := hform.length_le
    have hpos := v.kind.width_pos
    rw [length_encode, List.length_drop] at hlength
    rw [readAt_of_room (by omega), ← length_encode, ← List.prefix_iff_eq_take.mp hform,
      decode_encode]

/-- Integers are read at an offset exactly if their forms stand there in a row. -/
theorem readAllAt_eq_ok {ks : List Kind} {values : List Scalar} :
    readAllAt data ks offset = .ok (values, stop) ↔
      values.map kind = ks ∧ encodeAll values <+: data.drop offset ∧
        stop = offset + (encodeAll values).length := by
  -- the induction is on the kinds, and each value is read from where the one before it ends
  induction ks generalizing offset stop values with
  | nil =>
    rw [readAllAt]
    constructor
    · intro h
      cases h
      exact ⟨rfl, List.nil_prefix, rfl⟩
    · rintro ⟨hkinds, -, rfl⟩
      obtain rfl := List.map_eq_nil_iff.mp hkinds
      rfl
  | cons k ks ih =>
    rw [readAllAt, except_bind_eq_ok]
    constructor
    · rintro ⟨⟨v, between⟩, hv, h⟩
      obtain ⟨⟨vs, stop'⟩, hvs, h⟩ := except_bind_eq_ok.mp h
      cases except_pure_eq_ok.mp h
      obtain ⟨rfl, hfirst, rfl⟩ := readAt_eq_ok.mp hv
      obtain ⟨rfl, hothers, rfl⟩ := ih.mp hvs
      rw [encodeAll_cons, List.length_append, ← Nat.add_assoc]
      exact ⟨rfl, append_prefix_drop.mpr ⟨hfirst, hothers⟩, rfl⟩
    · rintro ⟨hkinds, hforms, rfl⟩
      obtain ⟨v, vs, rfl, hv, hvs⟩ := List.map_eq_cons_iff.mp hkinds
      rw [encodeAll_cons] at hforms
      obtain ⟨hfirst, hothers⟩ := append_prefix_drop.mp hforms
      rw [encodeAll_cons, List.length_append, ← Nat.add_assoc]
      exact ⟨_, readAt_eq_ok.mpr ⟨hv, hfirst, rfl⟩,
        except_bind_eq_ok.mpr ⟨_, ih.mpr ⟨hvs, hothers, rfl⟩, rfl⟩⟩

end Reading

end Scalar

-- ---------------------------------------------------------------------------
-- Offsets in machine words
-- ---------------------------------------------------------------------------

namespace Machine

section Offsets

variable {α : Type} {data : Bytes} {offset stop : Nat}

/-- How a reading at an offset shows where the offset is kept beside the data:
only a value moves it. -/
def kept (data : Bytes) (offset : Nat) :
    Except Fault (α × Nat) → EStateM.Result Halt Parser α
  | .ok (a, stop) => .ok a ⟨data, stop⟩
  | .error f => .error (.fault f) ⟨data, offset⟩

/-- A machine reads an integer in this way at any offset, also behind the data. -/
theorem readScalar_eq (hword : data.length < wordLimit) (k : Scalar.Kind) (offset : Nat) :
    Parsing.readScalar k ⟨data, offset⟩ = kept data offset (Scalar.readAt k data offset) := by
  by_cases hroom : offset + k.width ≤ data.length
  · have hstop : Parsing.endOf k.width ⟨data, offset⟩ = .ok (offset + k.width) ⟨data, offset⟩ :=
      if_pos ⟨Nat.lt_of_le_of_lt hroom hword, hroom⟩
    have hlength := Scalar.length_take_drop hroom
    refine (bind_of_ok _ hstop).trans ?_
    show (check (slice data offset (offset + k.width)) >>= _ : Parsing Scalar) _ = _
    rw [slice_eq_ok ⟨Nat.le_add_right .., hroom⟩, check_ok_bind, Nat.add_sub_cancel_left,
      if_neg (not_not_intro hlength), Scalar.readAt_of_room hroom]
    rfl
  · have hshort : Parsing.endOf k.width ⟨data, offset⟩ =
        .error (.fault .outOfBounds) ⟨data, offset⟩ := if_neg fun h => hroom h.2
    rw [Scalar.readAt_of_short (Nat.lt_of_not_le hroom)]
    exact bind_of_error _ hshort

/-- A machine reads a row of integers, each from where the one before it ends. -/
theorem mapM_readScalar (hword : data.length < wordLimit) {ks : List Scalar.Kind}
    {values : List Scalar} (h : Scalar.readAllAt data ks offset = .ok (values, stop)) :
    ks.mapM Parsing.readScalar ⟨data, offset⟩ = .ok values ⟨data, stop⟩ := by
  -- the induction is on the kinds, for any place to start
  induction ks generalizing offset values with
  | nil =>
    cases h
    rfl
  | cons k ks ih =>
    rw [Scalar.readAllAt] at h
    obtain ⟨⟨v, between⟩, hv, h⟩ := except_bind_eq_ok.mp h
    obtain ⟨⟨vs, stop'⟩, hvs, h⟩ := except_bind_eq_ok.mp h
    cases except_pure_eq_ok.mp h
    have hfirst : Parsing.readScalar k ⟨data, offset⟩ = .ok v ⟨data, between⟩ := by
      rw [readScalar_eq hword, hv]
      rfl
    rw [List.mapM_cons, bind_of_ok _ hfirst, bind_of_ok _ (ih hvs)]
    rfl

end Offsets

-- ---------------------------------------------------------------------------
-- Pushing and reading
-- ---------------------------------------------------------------------------

/-- From an offset on, a row of integers is read by its types, up to the end of
the data, where no integer of any type is read. -/
structure ReadsToEnd (data : Bytes) (start : Nat) (values : List Scalar) : Prop where
  reads : Scalar.readAllAt data (values.map Scalar.kind) start = .ok (values, data.length)
  ended : ∀ k, Scalar.readAt k data data.length = .error .outOfBounds
  /-- On a machine every integer moves the offset, and the failure at the end leaves it. -/
  inWords : data.length < wordLimit →
    (values.map Scalar.kind).mapM Parsing.readScalar ⟨data, start⟩ =
        .ok values ⟨data, data.length⟩ ∧
      ∀ k, Parsing.readScalar k ⟨data, data.length⟩ =
        .error (.fault .outOfBounds) ⟨data, data.length⟩

/-- A row behind a byte string is read to the end. -/
theorem readsToEnd_append (initial : Bytes) (values : List Scalar) :
    ReadsToEnd (initial ++ Scalar.encodeAll values) initial.length values := by
  have hread : Scalar.readAllAt (initial ++ Scalar.encodeAll values) (values.map Scalar.kind)
      initial.length = .ok (values, (initial ++ Scalar.encodeAll values).length) := by
    have hahead : Scalar.encodeAll values <+:
        (initial ++ Scalar.encodeAll values).drop initial.length :=
      ⟨[], by rw [List.append_nil, List.drop_left]⟩
    exact Scalar.readAllAt_eq_ok.mpr ⟨rfl, hahead, List.length_append⟩
  refine ⟨hread, Scalar.readAt_end, fun hword => ⟨mapM_readScalar hword hread, fun k => ?_⟩⟩
  rw [readScalar_eq hword, Scalar.readAt_end]
  rfl

/-- An integer has as many bytes as its type is wide, the first one counting most.
Integers that are pushed onto a byte string are read again behind it; and bytes
behind a byte string, read under any types whose widths add up to their number,
are rebuilt by pushing what is read. -/
theorem read_and_push (initial : Bytes) :
    (∀ v : Scalar, v.encode.length = v.kind.width ∧
      (BigEndian.value v.encode : Int) = v.toInt % (256 ^ v.kind.width : Nat)) ∧
    (∀ values : List Scalar,
      ReadsToEnd (Scalar.pushAll initial values) initial.length values) ∧
    ∀ (bytes : Bytes) (kinds : List Scalar.Kind),
      (kinds.map Scalar.Kind.width).sum = bytes.length →
      ∃ values : List Scalar, values.map Scalar.kind = kinds ∧
        ReadsToEnd (initial ++ bytes) initial.length values ∧
        Scalar.pushAll initial values = initial ++ bytes := by
  -- one number, then pushing and reading back, then reading and pushing again
  refine ⟨fun v => ⟨v.length_encode, v.value_encode⟩, ?_, ?_⟩
  · intro values
    rw [Scalar.pushAll_eq]
    exact readsToEnd_append initial values
  · intro bytes kinds hwidth
    obtain ⟨values, hkinds, rfl⟩ := Scalar.exists_encodeAll hwidth
    exact ⟨values, hkinds, readsToEnd_append initial values, Scalar.pushAll_eq initial values⟩

/-- Two integers behind a byte; and the same bytes read as three integers, of which the first
and the last are signed. -/
theorem read_and_push_samples :
    let out : Bytes := [0xAA, 0xCA, 0xFE, 0xFF, 0xFF, 0xFF, 0xFF]
    let row : List Scalar := [.i8 (-86), .u16 0xCAFE, .i32 (-1)]
    Scalar.pushAll [0xAA] [.u16 0xCAFE, .i32 (-1)] = out ∧
      ReadsToEnd out 1 [.u16 0xCAFE, .i32 (-1)] ∧
      ([Scalar.Kind.i8, .u16, .i32].map Scalar.Kind.width).sum = out.length ∧
      ReadsToEnd out 0 row ∧ Scalar.pushAll [] row = out := by
  intro out row
  have hpushed : Scalar.pushAll [0xAA] [.u16 0xCAFE, .i32 (-1)] = out := by decide
  have hwidth : ([Scalar.Kind.i8, .u16, .i32].map Scalar.Kind.width).sum = out.length := by decide
  have hread : ReadsToEnd out 1 [.u16 0xCAFE, .i32 (-1)] :=
    hpushed ▸ (read_and_push [0xAA]).2.1 [.u16 0xCAFE, .i32 (-1)]
  obtain ⟨values, hkinds, hvalues, hrebuilt⟩ := (read_and_push []).2.2 out _ hwidth
  have hrow : Scalar.readAllAt out [.i8, .u16, .i32] 0 = .ok (row, 7) := rfl
  -- the values that are read are the only ones of these kinds
  have heq : values = row := by
    have hreads := hvalues.reads
    rw [hkinds, List.nil_append, List.length_nil, hrow] at hreads
    cases hreads
    rfl
  subst heq
  exact ⟨hpushed, hread, hwidth, hvalues, hrebuilt⟩

end Machine

end Backref
