import Backref.Bytecode.Decode
import Backref.Proofs.Bytes.Reading
import Mathlib.Data.List.Basic

/-!
# How instructions are laid out

The bytes of an instruction, stated without a decoder: an opcode, perhaps
behind a prefix that widens it, and the operand that its form asks for. Only
the two switches depend on where they stand, through the padding that brings
their numbers to a multiple of four.

Main results:

* `Operand.read_eq_ok`, `Instruction.read_eq_ok` — reading succeeds exactly on
  the laid out instructions, and passes exactly their bytes;
* `Instruction.Laid.length_pos` — every instruction takes a byte at least.
-/

namespace Backref

open FixedWidth Cursor Reader

-- ---------------------------------------------------------------------------
-- Operands
-- ---------------------------------------------------------------------------

namespace Operand

/-- The written form of a value of a `lookupswitch` and its offset. -/
def encodePair (p : Int32 × Int32) : Bytes := encode p.1 ++ encode p.2

/-- The bytes of an operand of some form that starts at a position of the code array. -/
def Laid (start : Nat) (bs : Bytes) (o : Operand) : OperandForm → Prop
  | .none => bs = [] ∧ o = none
  | .int8 => ∃ v : Int8, bs = encode v ∧ o = int8 v
  | .int16 => ∃ v : Int16, bs = encode v ∧ o = int16 v
  | .uint8 => ∃ v : UInt8, bs = encode v ∧ o = uint8 v
  | .narrowConstant => ∃ i : UInt8, bs = encode i ∧ o = constant i.toUInt16
  | .constant => ∃ i : UInt16, bs = encode i ∧ o = constant i
  | .slot => ∃ i : UInt8, bs = encode i ∧ o = slot i.toUInt16
  | .increment => ∃ (i : UInt8) (delta : Int8),
      bs = encode i ++ encode delta ∧ o = increment i.toUInt16 delta.toInt16
  | .branch16 => ∃ v : Int16, bs = encode v ∧ o = branch v.toInt32
  | .branch32 => ∃ v : Int32, bs = encode v ∧ o = branch v
  | .tableSwitch => ∃ (padding : Bytes) (default low high : Int32) (offsets : Array Int32),
      padding.length = (4 - start % 4) % 4 ∧ low ≤ high ∧
      (offsets.size : Int) = high.toInt - low.toInt + 1 ∧
      bs = padding ++ (encode default ++ (encode low ++ (encode high ++
        offsets.toList.flatMap encode))) ∧
      o = tableSwitch default low high offsets
  | .lookupSwitch => ∃ (padding : Bytes) (default count : Int32) (pairs : Array (Int32 × Int32)),
      padding.length = (4 - start % 4) % 4 ∧ (pairs.size : Int) = count.toInt ∧
      bs = padding ++ (encode default ++ (encode count ++ pairs.toList.flatMap encodePair)) ∧
      o = lookupSwitch default pairs
  | .invokeInterface => ∃ (i : UInt16) (count unused : UInt8),
      bs = encode i ++ (encode count ++ [unused]) ∧ o = invokeInterface i count
  | .invokeDynamic => ∃ (i : UInt16) (unused unused' : UInt8),
      bs = encode i ++ [unused, unused'] ∧ o = invokeDynamic i
  | .multiNewArray => ∃ (i : UInt16) (dimensions : UInt8),
      bs = encode i ++ encode dimensions ∧ o = multiNewArray i dimensions
  | .wide => False

/-- The bytes of an operand behind a prefix that widens it. -/
def WideLaid (bs : Bytes) (o : Operand) : OperandForm → Prop
  | .slot => ∃ i : UInt16, bs = encode i ∧ o = slot i
  | .increment => ∃ (i : UInt16) (delta : Int16),
      bs = encode i ++ encode delta ∧ o = increment i delta
  | _ => False

/-! ### Reading operands -/

/-- Aligning passes whatever bytes lie before the next multiple of `n`. -/
theorem align_eq_ok {n : Nat} {c d : Cursor} {u : Unit} :
    align n c = .ok u d ↔
      ∃ padding : Bytes, padding.length = (n - c.pos % n) % n ∧ c.Passes padding d := by
  rw [align, bind_of_ok _ (position_apply c), skip_eq_ok]

/-- Asking for room moves nothing. -/
theorem require_eq_ok {n : Nat} {c d : Cursor} {u : Unit} :
    require n c = .ok u d ↔ n ≤ c.left ∧ c = d := by
  unfold require
  rw [bind_eq_ok]
  unfold endOf
  constructor
  · rintro ⟨p, m, hend, hpure⟩
    split at hend
    · rename_i hle
      cases hend
      exact ⟨hle, (pure_eq_ok.mp hpure).2⟩
    · cases hend
  · rintro ⟨hle, rfl⟩
    exact ⟨c.pos + n, c, if_pos hle, rfl⟩

/-- A pair of a lookup switch is a match and the offset behind it. -/
theorem readPair_eq_ok {c d : Cursor} {p : Int32 × Int32} :
    readPair c = .ok p d ↔ c.Passes (encodePair p) d := by
  unfold readPair
  rw [readTwo_eq_ok]
  constructor
  · rintro ⟨_, ⟨a, b, rfl, rfl⟩, hpasses⟩
    exact hpasses
  · intro hpasses
    exact ⟨_, ⟨p.1, p.2, rfl, rfl⟩, hpasses⟩

/-- Entries of one width take that width each. -/
theorem length_flatMap {α : Type} (f : α → Bytes) (w : Nat) (hw : ∀ a, (f a).length = w)
    (as : List α) : (as.flatMap f).length = as.length * w := by
  induction as with
  | nil => simp
  | cons a as ih =>
    rw [List.flatMap_cons, List.length_append, hw, ih, List.length_cons, Nat.succ_mul]
    omega

/-- A pair takes two words of four bytes. -/
theorem length_encodePair (p : Int32 × Int32) : (encodePair p).length = 8 := by
  rw [encodePair, List.length_append, length_encode, length_encode]
  rfl

/-- What a table switch has been read from is laid out as one. -/
theorem exists_laid_of_readTableSwitch {c d : Cursor} {o : Operand}
    (h : readTableSwitch c = .ok o d) : ∃ bs, Laid c.pos bs o .tableSwitch ∧ c.Passes bs d := by
  unfold readTableSwitch at h
  obtain ⟨_, c₁, hpadding, h⟩ := bind_eq_ok.mp h
  obtain ⟨default, c₂, hdefault, h⟩ := bind_eq_ok.mp h
  obtain ⟨low, c₃, hlow, h⟩ := bind_eq_ok.mp h
  obtain ⟨high, c₄, hhigh, h⟩ := bind_eq_ok.mp h
  split at h
  · exact absurd h malformed_ne_ok
  · rename_i hbounds
    obtain ⟨_, c₅, hroom, h⟩ := bind_eq_ok.mp h
    obtain ⟨-, rfl⟩ := require_eq_ok.mp hroom
    obtain ⟨offsets, c₆, htimes, h⟩ := bind_eq_ok.mp h
    obtain ⟨rfl, rfl⟩ := pure_eq_ok.mp h
    obtain ⟨padding, hlength, hpasses⟩ := align_eq_ok.mp hpadding
    obtain ⟨hsize, hoffsets⟩ := (times_eq_ok int_eq_ok).mp htimes
    -- the guard compares machine words; the layout speaks of the numbers they stand for
    rw [Int32.lt_iff_toInt_lt] at hbounds
    have hle : low ≤ high := by
      rw [Int32.le_iff_toInt_le]
      omega
    have hcount : (offsets.size : Int) = high.toInt - low.toInt + 1 := by omega
    refine ⟨_, ⟨padding, default, low, high, offsets, hlength, hle, hcount, rfl, rfl⟩, ?_⟩
    exact passes_append.mpr ⟨c₁, hpasses, passes_append.mpr ⟨c₂, int_eq_ok.mp hdefault,
      passes_append.mpr ⟨c₃, int_eq_ok.mp hlow,
        passes_append.mpr ⟨c₄, int_eq_ok.mp hhigh, hoffsets⟩⟩⟩⟩

/-- A table switch that is laid out is read, wherever it lies. -/
theorem readTableSwitch_of_laid {c d : Cursor} {o : Operand} {bs : Bytes}
    (h : Laid c.pos bs o .tableSwitch) (hpasses : c.Passes bs d) :
    readTableSwitch c = .ok o d := by
  obtain ⟨padding, default, low, high, offsets, hlength, hbounds, hsize, rfl, rfl⟩ := h
  obtain ⟨c₁, hpadding, hpasses⟩ := passes_append.mp hpasses
  obtain ⟨c₂, hdefault, hpasses⟩ := passes_append.mp hpasses
  obtain ⟨c₃, hlow, hpasses⟩ := passes_append.mp hpasses
  obtain ⟨c₄, hhigh, hoffsets⟩ := passes_append.mp hpasses
  have hcount : offsets.size = (high.toInt - low.toInt + 1).toNat := by omega
  -- the offsets are there, so there is room for them
  have hroom : (high.toInt - low.toInt + 1).toNat * 4 ≤ c₄.left := by
    have hleft := hoffsets.left
    rw [length_flatMap encode 4 length_encode, Array.length_toList, hcount] at hleft
    omega
  unfold readTableSwitch
  rw [bind_of_ok _ (align_eq_ok (u := ()).mpr ⟨padding, hlength, hpadding⟩),
    bind_of_ok _ (int_eq_ok.mpr hdefault), bind_of_ok _ (int_eq_ok.mpr hlow),
    bind_of_ok _ (int_eq_ok.mpr hhigh)]
  rw [Int32.le_iff_toInt_le] at hbounds
  have hnot : ¬ high < low := by
    rw [Int32.lt_iff_toInt_lt]
    omega
  rw [if_neg hnot]
  refine bind_eq_ok.mpr ⟨(), c₄, require_eq_ok.mpr ⟨hroom, rfl⟩, ?_⟩
  exact bind_eq_ok.mpr ⟨offsets, d, (times_eq_ok int_eq_ok).mpr ⟨hcount, hoffsets⟩, rfl⟩

/-- What a lookup switch has been read from is laid out as one. -/
theorem exists_laid_of_readLookupSwitch {c d : Cursor} {o : Operand}
    (h : readLookupSwitch c = .ok o d) : ∃ bs, Laid c.pos bs o .lookupSwitch ∧ c.Passes bs d := by
  unfold readLookupSwitch at h
  obtain ⟨_, c₁, hpadding, h⟩ := bind_eq_ok.mp h
  obtain ⟨default, c₂, hdefault, h⟩ := bind_eq_ok.mp h
  obtain ⟨count, c₃, hcount, h⟩ := bind_eq_ok.mp h
  split at h
  · exact absurd h malformed_ne_ok
  · rename_i hnonneg
    obtain ⟨_, c₄, hroom, h⟩ := bind_eq_ok.mp h
    obtain ⟨-, rfl⟩ := require_eq_ok.mp hroom
    obtain ⟨pairs, c₅, htimes, h⟩ := bind_eq_ok.mp h
    obtain ⟨rfl, rfl⟩ := pure_eq_ok.mp h
    obtain ⟨padding, hlength, hpasses⟩ := align_eq_ok.mp hpadding
    obtain ⟨hsize, hpairs⟩ := (times_eq_ok readPair_eq_ok).mp htimes
    have hzero : (0 : Int32).toInt = 0 := rfl
    rw [Int32.lt_iff_toInt_lt] at hnonneg
    -- the guard has excluded a negative count
    have htotal : (pairs.size : Int) = count.toInt := by omega
    refine ⟨_, ⟨padding, default, count, pairs, hlength, htotal, rfl, rfl⟩, ?_⟩
    exact passes_append.mpr ⟨c₁, hpasses, passes_append.mpr ⟨c₂, int_eq_ok.mp hdefault,
      passes_append.mpr ⟨c₃, int_eq_ok.mp hcount, hpairs⟩⟩⟩

/-- A lookup switch that is laid out is read, in whatever order its pairs are. -/
theorem readLookupSwitch_of_laid {c d : Cursor} {o : Operand} {bs : Bytes}
    (h : Laid c.pos bs o .lookupSwitch) (hpasses : c.Passes bs d) :
    readLookupSwitch c = .ok o d := by
  obtain ⟨padding, default, count, pairs, hlength, hsize, rfl, rfl⟩ := h
  obtain ⟨c₁, hpadding, hpasses⟩ := passes_append.mp hpasses
  obtain ⟨c₂, hdefault, hpasses⟩ := passes_append.mp hpasses
  obtain ⟨c₃, hcount, hpairs⟩ := passes_append.mp hpasses
  have htotal : pairs.size = count.toInt.toNat := by omega
  -- the pairs are there, so there is room for them
  have hroom : count.toInt.toNat * 8 ≤ c₃.left := by
    have hleft := hpairs.left
    rw [length_flatMap encodePair 8 length_encodePair, Array.length_toList, htotal] at hleft
    omega
  unfold readLookupSwitch
  rw [bind_of_ok _ (align_eq_ok (u := ()).mpr ⟨padding, hlength, hpadding⟩),
    bind_of_ok _ (int_eq_ok.mpr hdefault), bind_of_ok _ (int_eq_ok.mpr hcount)]
  have hnot : ¬ count < 0 := by
    have hzero : (0 : Int32).toInt = 0 := rfl
    rw [Int32.lt_iff_toInt_lt]
    omega
  rw [if_neg hnot]
  refine bind_eq_ok.mpr ⟨(), c₃, require_eq_ok.mpr ⟨hroom, rfl⟩, ?_⟩
  exact bind_eq_ok.mpr ⟨pairs, d, (times_eq_ok readPair_eq_ok).mpr ⟨htotal, hpairs⟩, rfl⟩

/-- The byte that is skipped may be any. -/
theorem skip_one_eq_ok {c d : Cursor} {u : Unit} :
    skip 1 c = .ok u d ↔ ∃ b, c.Passes [b] d := by
  rw [skip_eq_ok]
  constructor
  · rintro ⟨bs, hlength, hpasses⟩
    obtain ⟨b, rfl⟩ := List.length_eq_one_iff.mp hlength
    exact ⟨b, hpasses⟩
  · rintro ⟨b, hpasses⟩
    exact ⟨[b], rfl, hpasses⟩

/-- The two bytes that are skipped may be any. -/
theorem skip_two_eq_ok {c d : Cursor} {u : Unit} :
    skip 2 c = .ok u d ↔ ∃ a b, c.Passes [a, b] d := by
  rw [skip_eq_ok]
  constructor
  · rintro ⟨bs, hlength, hpasses⟩
    obtain ⟨a, b, rfl⟩ := List.length_eq_two.mp hlength
    exact ⟨a, b, hpasses⟩
  · rintro ⟨a, b, hpasses⟩
    exact ⟨[a, b], rfl, hpasses⟩

/-- Reading an operand succeeds exactly on the laid out ones. -/
theorem read_eq_ok {form : OperandForm} (hform : form ≠ .wide) {c d : Cursor} {o : Operand} :
    read form c = .ok o d ↔ ∃ bs, Laid c.pos bs o form ∧ c.Passes bs d := by
  -- the switches have been settled above; most of the rest read one number or two
  cases form with
  | wide => exact absurd rfl hform
  | tableSwitch =>
    exact ⟨exists_laid_of_readTableSwitch,
      fun ⟨_, h, hpasses⟩ => readTableSwitch_of_laid h hpasses⟩
  | lookupSwitch =>
    exact ⟨exists_laid_of_readLookupSwitch,
      fun ⟨_, h, hpasses⟩ => readLookupSwitch_of_laid h hpasses⟩
  | none =>
    rw [read, pure_eq_ok]
    constructor
    · rintro ⟨rfl, rfl⟩
      exact ⟨[], ⟨rfl, rfl⟩, passes_nil.mpr rfl⟩
    · rintro ⟨_, ⟨rfl, rfl⟩, hpasses⟩
      exact ⟨rfl, passes_nil.mp hpasses⟩
  | invokeInterface =>
    simp only [read, bind_eq_ok, int_eq_ok, skip_one_eq_ok, pure_eq_ok]
    constructor
    · rintro ⟨i, c₁, hi, count, c₂, hcount, _, c₃, ⟨unused, hunused⟩, rfl, rfl⟩
      exact ⟨_, ⟨i, count, unused, rfl, rfl⟩,
        passes_append.mpr ⟨c₁, hi, passes_append.mpr ⟨c₂, hcount, hunused⟩⟩⟩
    · rintro ⟨_, ⟨i, count, unused, rfl, rfl⟩, hpasses⟩
      obtain ⟨c₁, hi, hpasses⟩ := passes_append.mp hpasses
      obtain ⟨c₂, hcount, hunused⟩ := passes_append.mp hpasses
      exact ⟨i, c₁, hi, count, c₂, hcount, (), d, ⟨unused, hunused⟩, rfl, rfl⟩
  | invokeDynamic =>
    simp only [read, bind_eq_ok, int_eq_ok, skip_two_eq_ok, pure_eq_ok]
    constructor
    · rintro ⟨i, c₁, hi, _, c₂, ⟨a, b, hunused⟩, rfl, rfl⟩
      exact ⟨_, ⟨i, a, b, rfl, rfl⟩, passes_append.mpr ⟨c₁, hi, hunused⟩⟩
    · rintro ⟨_, ⟨i, a, b, rfl, rfl⟩, hpasses⟩
      obtain ⟨c₁, hi, hunused⟩ := passes_append.mp hpasses
      exact ⟨i, c₁, hi, (), d, ⟨a, b, hunused⟩, rfl, rfl⟩
  | int8 => exact readOne_eq_ok
  | int16 => exact readOne_eq_ok
  | uint8 => exact readOne_eq_ok
  | narrowConstant => exact readOne_eq_ok
  | constant => exact readOne_eq_ok
  | slot => exact readOne_eq_ok
  | branch16 => exact readOne_eq_ok
  | branch32 => exact readOne_eq_ok
  | increment => exact readTwo_eq_ok
  | multiNewArray => exact readTwo_eq_ok

/-- A widened operand is exactly what `WideLaid` says; no other form has one. -/
theorem readWide_eq_ok {opcode : UInt8} {info : OpcodeInfo} {c d : Cursor} {o : Operand} :
    readWide opcode info c = .ok o d ↔ ∃ bs, WideLaid bs o info.form ∧ c.Passes bs d := by
  unfold readWide
  -- only a local slot and an increment can be widened
  cases info.form with
  | slot => exact readOne_eq_ok
  | increment => exact readTwo_eq_ok
  | _ =>
    constructor
    · exact fun h => absurd h malformed_ne_ok
    · rintro ⟨_, hlaid, _⟩
      exact hlaid.elim

end Operand

-- ---------------------------------------------------------------------------
-- Instructions
-- ---------------------------------------------------------------------------

namespace Instruction

/-- The bytes of an instruction that starts at a position of the code array. -/
inductive Laid (offset : Nat) : Bytes → Instruction → Prop
  | plain {opcode : UInt8} {info : OpcodeInfo} {bs : Bytes} {operand : Operand}
      (hinfo : Opcode.info? opcode = some info) (hform : info.form ≠ .wide)
      (hoperand : Operand.Laid (offset + 1) bs operand info.form) :
      Laid offset (opcode :: bs) ⟨offset, bs.length + 1, opcode, false, operand⟩
  | wide {mark opcode : UInt8} {markInfo info : OpcodeInfo} {bs : Bytes} {operand : Operand}
      (hmark : Opcode.info? mark = some markInfo) (hform : markInfo.form = .wide)
      (hinfo : Opcode.info? opcode = some info) (hoperand : Operand.WideLaid bs operand info.form) :
      Laid offset (mark :: opcode :: bs) ⟨offset, bs.length + 2, opcode, true, operand⟩

/-- Every instruction takes a byte at least. -/
theorem Laid.length_pos {offset : Nat} {bs : Bytes} {i : Instruction} (h : Laid offset bs i) :
    0 < bs.length := by
  cases h with
  | plain hinfo hform hoperand => exact Nat.succ_pos _
  | wide hmark hform hinfo hoperand => exact Nat.succ_pos _

/-- An instruction knows where it is laid out. -/
theorem Laid.offset_eq {offset : Nat} {bs : Bytes} {i : Instruction} (h : Laid offset bs i) :
    i.offset = offset := by
  cases h with
  | plain hinfo hform hoperand => rfl
  | wide hmark hform hinfo hoperand => rfl

/-- An instruction knows how many bytes it takes. -/
theorem Laid.size_eq {offset : Nat} {bs : Bytes} {i : Instruction} (h : Laid offset bs i) :
    i.size = bs.length := by
  cases h with
  | plain hinfo hform hoperand => rfl
  | wide hmark hform hinfo hoperand => rfl

/-- A byte is its own encoding. -/
theorem passes_byte {c d : Cursor} {b : UInt8} : c.Passes (encode b) d ↔ c.Passes [b] d := by
  rw [encode_byte]

/-- An opcode is one byte that the table knows. -/
theorem readOpcode_eq_ok {c d : Cursor} {p : UInt8 × OpcodeInfo} :
    readOpcode c = .ok p d ↔ Opcode.info? p.1 = some p.2 ∧ c.Passes [p.1] d := by
  unfold readOpcode
  rw [bind_eq_ok]
  constructor
  · rintro ⟨opcode, m, hopcode, h⟩
    cases hinfo : Opcode.info? opcode with
    | none =>
      rw [hinfo] at h
      exact absurd h malformed_ne_ok
    | some info =>
      rw [hinfo] at h
      obtain ⟨rfl, rfl⟩ := pure_eq_ok.mp h
      exact ⟨hinfo, passes_byte.mp (int_eq_ok.mp hopcode)⟩
  · obtain ⟨opcode, info⟩ := p
    rintro ⟨hinfo, hpasses⟩
    refine ⟨opcode, d, int_eq_ok.mpr (passes_byte.mpr hpasses), ?_⟩
    simp only at hinfo
    rw [hinfo]
    rfl

/-- What an instruction has been read from is laid out as that instruction. -/
theorem exists_laid_of_read {c d : Cursor} {i : Instruction} (h : read c = .ok i d) :
    ∃ bs, Laid c.pos bs i ∧ c.Passes bs d := by
  unfold read at h
  rw [bind_of_ok _ (position_apply c)] at h
  obtain ⟨⟨opcode, info⟩, c₁, hopcode, h⟩ := bind_eq_ok.mp h
  obtain ⟨hinfo, hbyte⟩ := readOpcode_eq_ok.mp hopcode
  simp only at hinfo hbyte h
  split at h
  · -- the opcode is the mark of a wide form, and another one follows
    rename_i hform
    obtain ⟨⟨widened, widenedInfo⟩, c₂, hwidened, h⟩ := bind_eq_ok.mp h
    obtain ⟨hwidenedInfo, hwidenedByte⟩ := readOpcode_eq_ok.mp hwidened
    obtain ⟨operand, c₃, hoperand, h⟩ := bind_eq_ok.mp h
    obtain ⟨bs, hlaid, hpasses⟩ := Operand.readWide_eq_ok.mp hoperand
    rw [bind_of_ok _ (position_apply _)] at h
    obtain ⟨rfl, rfl⟩ := pure_eq_ok.mp h
    have hall : c.Passes (opcode :: widened :: bs) c₃ :=
      passes_cons.mpr ⟨c₁, hbyte, passes_cons.mpr ⟨c₂, hwidenedByte, hpasses⟩⟩
    have hsize : c₃.pos - c.pos = bs.length + 2 := by
      rw [hall.pos, List.length_cons, List.length_cons]
      omega
    rw [hsize]
    exact ⟨_, .wide hinfo hform hwidenedInfo hlaid, hall⟩
  · rename_i hform
    obtain ⟨operand, c₂, hoperand, h⟩ := bind_eq_ok.mp h
    obtain ⟨bs, hlaid, hpasses⟩ := (Operand.read_eq_ok hform).mp hoperand
    rw [bind_of_ok _ (position_apply _)] at h
    obtain ⟨rfl, rfl⟩ := pure_eq_ok.mp h
    have hall : c.Passes (opcode :: bs) c₂ := passes_cons.mpr ⟨c₁, hbyte, hpasses⟩
    have hsize : c₂.pos - c.pos = bs.length + 1 := by
      rw [hall.pos, List.length_cons]
      omega
    -- the padding of a switch counts from behind the opcode
    rw [hbyte.pos] at hlaid
    rw [hsize]
    exact ⟨_, .plain hinfo hform hlaid, hall⟩

/-- An instruction that is laid out is read as what it is. -/
theorem Laid.read {c d : Cursor} {i : Instruction} {bs : Bytes} (h : Laid c.pos bs i)
    (hall : c.Passes bs d) : Instruction.read c = .ok i d := by
  unfold Instruction.read
  rw [bind_of_ok _ (position_apply c)]
  -- a wide form reads two opcodes before its operand, a plain one reads one
  cases h with
  | @plain opcode info bs operand hinfo hform hoperand =>
    obtain ⟨c₁, hbyte, hpasses⟩ := passes_cons.mp hall
    have hopcode : readOpcode c = .ok (opcode, info) c₁ := readOpcode_eq_ok.mpr ⟨hinfo, hbyte⟩
    rw [bind_of_ok _ hopcode]
    simp only
    rw [if_neg hform]
    have hposition : c₁.pos = c.pos + 1 := hbyte.pos
    have hread : Operand.read info.form c₁ = .ok operand d :=
      (Operand.read_eq_ok hform).mpr ⟨bs, hposition ▸ hoperand, hpasses⟩
    have hsize : d.pos - c.pos = bs.length + 1 := by
      rw [hall.pos, List.length_cons]
      omega
    rw [← hsize]
    exact bind_eq_ok.mpr ⟨operand, d, hread, rfl⟩
  | @wide mark opcode markInfo info bs operand hmark hform hinfo hoperand =>
    obtain ⟨c₁, hbyte, hpasses⟩ := passes_cons.mp hall
    obtain ⟨c₂, hwidenedByte, hpasses⟩ := passes_cons.mp hpasses
    have hmarked : readOpcode c = .ok (mark, markInfo) c₁ := readOpcode_eq_ok.mpr ⟨hmark, hbyte⟩
    have hopcode : readOpcode c₁ = .ok (opcode, info) c₂ :=
      readOpcode_eq_ok.mpr ⟨hinfo, hwidenedByte⟩
    rw [bind_of_ok _ hmarked]
    simp only
    rw [if_pos hform, bind_of_ok _ hopcode]
    have hread : Operand.readWide opcode info c₂ = .ok operand d :=
      Operand.readWide_eq_ok.mpr ⟨bs, hoperand, hpasses⟩
    have hsize : d.pos - c.pos = bs.length + 2 := by
      rw [hall.pos, List.length_cons, List.length_cons]
      omega
    rw [← hsize]
    exact bind_eq_ok.mpr ⟨operand, d, hread, rfl⟩

/-- Reading an instruction succeeds exactly on the laid out ones. -/
theorem read_eq_ok {c d : Cursor} {i : Instruction} :
    read c = .ok i d ↔ ∃ bs, Laid c.pos bs i ∧ c.Passes bs d :=
  ⟨exists_laid_of_read, fun ⟨_, hlaid, hall⟩ => hlaid.read hall⟩

end Instruction

end Backref
