import Backref.Bytecode.Decode
import Backref.Proofs.Machine.ClassFile

/-!
# Instructions with partial operations

An instruction is decoded from a position on, and its size is the difference
of two positions. The entries of a switch are counted before any is read: the
number of values from one bound to another is a difference of 64-bit integers,
and the bytes that they take are a product.

Main results:

* `implements_decodeTableSwitch` — counting the entries of a switch does not
  run over;
* `implements_decodeInstruction` — decoding an instruction does not move back.
-/

namespace Backref.Machine

open Parsing

-- ---------------------------------------------------------------------------
-- Signed integers
-- ---------------------------------------------------------------------------

/-- A 64-bit integer that an operation comes to. -/
def long (n : Int) : Except Halt Int :=
  if -0x8000000000000000 ≤ n ∧ n < 0x8000000000000000 then .ok n else .error .panic

/-- An integer as a word, which it has to be. -/
def word (n : Int) : Except Halt Nat :=
  if 0 ≤ n ∧ n < wordLimit then .ok n.toNat else .error .panic

theorem long_eq_ok {n : Int} (h : -0x8000000000000000 ≤ n ∧ n < 0x8000000000000000) :
    long n = .ok n := if_pos h

theorem word_eq_ok {n : Int} (h : 0 ≤ n ∧ n < wordLimit) : word n = .ok n.toNat := if_pos h

-- ---------------------------------------------------------------------------
-- Operands
-- ---------------------------------------------------------------------------

/-- Makes sure that a number of entries of one size lies ahead. -/
def checkEntries (count size : Nat) : Parsing Unit := do
  let length ← check (mul count size)
  let _ ← endOf length

/-- Reads the operand of a `tableswitch`. -/
def decodeTableSwitch : Parsing Operand := do
  align 4
  let default ← readInt Int32
  let low ← readInt Int32
  let high ← readInt Int32
  if high < low then
    malformed (.tableBounds low high)
  else
    let difference ← check (long (high.toInt - low.toInt))
    let count ← check (word (← check (long (difference + 1))))
    checkEntries count 4
    return .tableSwitch default low high (← times count (readInt Int32))

/-- Reads a value of a `lookupswitch` and its offset. -/
def decodePair : Parsing (Int32 × Int32) := do
  let value ← readInt Int32
  let offset ← readInt Int32
  return (value, offset)

/-- Reads the operand of a `lookupswitch`. -/
def decodeLookupSwitch : Parsing Operand := do
  align 4
  let default ← readInt Int32
  let count ← readInt Int32
  if count < 0 then
    malformed (.negativePairCount count)
  else
    let count ← check (word count.toInt)
    checkEntries count 8
    return .lookupSwitch default (← times count decodePair)

/-- Reads an operand, behind a prefix or not. No prefix is left to decode here. -/
def decodeOperand (wide : Bool) : OperandForm → Parsing Operand
  | .none => pure .none
  | .int8 => do return .int8 (← readInt Int8)
  | .int16 => do return .int16 (← readInt Int16)
  | .uint8 => do return .uint8 (← readInt UInt8)
  | .narrowConstant => do return .constant (← readInt UInt8).toUInt16
  | .constant => do return .constant (← readInt UInt16)
  | .slot =>
    if wide then do return .slot (← readInt UInt16)
    else do return .slot (← readInt UInt8).toUInt16
  | .increment =>
    if wide then do return .increment (← readInt UInt16) (← readInt Int16)
    else do return .increment (← readInt UInt8).toUInt16 (← readInt Int8).toInt16
  | .branch16 => do return .branch (← readInt Int16).toInt32
  | .branch32 => do return .branch (← readInt Int32)
  | .tableSwitch => decodeTableSwitch
  | .lookupSwitch => decodeLookupSwitch
  | .invokeInterface => do
    let index ← readInt UInt16
    let count ← readInt UInt8
    advanceBy 1
    return .invokeInterface index count
  | .invokeDynamic => do
    let index ← readInt UInt16
    advanceBy 2
    return .invokeDynamic index
  | .multiNewArray => do return .multiNewArray (← readInt UInt16) (← readInt UInt8)
  | .wide => throw .panic

/-- Room is asked for before any entry is read. -/
theorem implements_checkEntries {count size : Nat} (h : count * size < wordLimit) :
    Implements (checkEntries count size) (Operand.require (count * size)) fun _ => True := by
  rw [checkEntries, mul_eq_ok h, check_ok_bind]
  exact .bind (implements_endOf _) fun _ _ => .pure trivial

/-- The values between two 32-bit integers are no more than `2 ^ 32`: their
number is a word, and so is that of the bytes of their entries. -/
theorem implements_decodeTableSwitch :
    Implements decodeTableSwitch Operand.readTableSwitch fun _ => True := by
  refine .bind (implements_align (by decide)) fun _ _ => ?_
  refine .bind (implements_readInt Int32) fun default _ => ?_
  refine .bind (implements_readInt Int32) fun low _ => ?_
  refine .bind (implements_readInt Int32) fun high _ => .ite (fun _ => .malformed _) fun hle => ?_
  have hlow := low.le_toInt
  have hhigh := high.toInt_lt
  have hnot : ¬ high.toInt < low.toInt := fun h => hle (Int32.lt_iff_toInt_lt.mpr h)
  have hcount : (high.toInt - low.toInt + 1).toNat * 4 < wordLimit := by
    rw [wordLimit, UInt64.size]
    omega
  rw [long_eq_ok (by omega), check_ok_bind, long_eq_ok (by omega), check_ok_bind,
    word_eq_ok (by rw [wordLimit, UInt64.size]; omega), check_ok_bind]
  refine .bind (implements_checkEntries hcount) fun _ _ => ?_
  exact .bind ((implements_readInt Int32).times _) fun offsets _ => .pure trivial

theorem implements_decodeLookupSwitch :
    Implements decodeLookupSwitch Operand.readLookupSwitch fun _ => True := by
  refine .bind (implements_align (by decide)) fun _ _ => ?_
  refine .bind (implements_readInt Int32) fun default _ => ?_
  refine .bind (implements_readInt Int32) fun count _ => .ite (fun _ => .malformed _) fun hneg => ?_
  have hlt := count.toInt_lt
  have hnot : ¬ count.toInt < 0 := fun h => hneg (Int32.lt_iff_toInt_lt.mpr h)
  have hcount : count.toInt.toNat * 8 < wordLimit := by
    rw [wordLimit, UInt64.size]
    omega
  rw [word_eq_ok (by rw [wordLimit, UInt64.size]; omega), check_ok_bind]
  refine .bind (implements_checkEntries hcount) fun _ _ => ?_
  have hpair : Implements decodePair Operand.readPair fun _ => True :=
    .bind (implements_readInt Int32) fun _ _ => .bind (implements_readInt Int32) fun _ _ =>
      .pure trivial
  exact .bind (hpair.times _) fun pairs _ => .pure trivial

/-- An operand of any plain form is decoded. -/
theorem implements_decodeOperand {form : OperandForm} (hform : form ≠ .wide) :
    Implements (decodeOperand false form) (Operand.read form) fun _ => True := by
  -- most forms are one number or two, and none of these can go wrong otherwise
  cases form with
  | none => exact .pure trivial
  | int8 => exact implements_one fun _ => trivial
  | int16 => exact implements_one fun _ => trivial
  | uint8 => exact implements_one fun _ => trivial
  | narrowConstant => exact implements_one fun _ => trivial
  | constant => exact implements_one fun _ => trivial
  | slot => exact implements_one fun _ => trivial
  | increment => exact implements_two fun _ _ => trivial
  | branch16 => exact implements_one fun _ => trivial
  | branch32 => exact implements_one fun _ => trivial
  | tableSwitch => exact implements_decodeTableSwitch
  | lookupSwitch => exact implements_decodeLookupSwitch
  | invokeInterface =>
    refine .bind (implements_readInt UInt16) fun index _ => ?_
    refine .bind (implements_readInt UInt8) fun count _ => ?_
    exact .bind (implements_advanceBy 1) fun _ _ => .pure trivial
  | invokeDynamic =>
    refine .bind (implements_readInt UInt16) fun index _ => ?_
    exact .bind (implements_advanceBy 2) fun _ _ => .pure trivial
  | multiNewArray => exact implements_two fun _ _ => trivial
  | wide => exact absurd rfl hform

/-- Behind a prefix, the forms with a local variable have an operand. -/
theorem implements_decodeWide (opcode : UInt8) {info : OpcodeInfo}
    (h : info.form = .slot ∨ info.form = .increment) :
    Implements (decodeOperand true info.form) (Operand.readWide opcode info) fun _ => True := by
  unfold Operand.readWide
  rcases h with h | h <;> rw [h]
  · exact implements_one fun _ => trivial
  · exact implements_two fun _ _ => trivial

/-- No other form can be widened. -/
theorem readWide_of_other (opcode : UInt8) {info : OpcodeInfo}
    (h : ¬ (info.form = .slot ∨ info.form = .increment)) :
    Operand.readWide opcode info = Reader.malformed (.notWidened opcode info.mnemonic) := by
  unfold Operand.readWide
  split
  · exact absurd (.inl ‹_›) h
  · exact absurd (.inr ‹_›) h
  · rfl

-- ---------------------------------------------------------------------------
-- Instructions
-- ---------------------------------------------------------------------------

/-- Reads an opcode. -/
def readOpcode : Parsing (UInt8 × OpcodeInfo) := do
  let opcode ← readInt UInt8
  match Opcode.info? opcode with
  | some info => return (opcode, info)
  | none => malformed (.opcode opcode)

/-- Reads the opcode that has the operand, and says whether it stands behind a
prefix. -/
def decodeOpcode : Parsing (UInt8 × OpcodeInfo × Bool) := do
  let (opcode, info) ← readOpcode
  if info.form = .wide then
    let (opcode, info) ← readOpcode
    if info.form = .slot ∨ info.form = .increment then
      return (opcode, info, true)
    else
      malformed (.notWidened opcode info.mnemonic)
  else
    return (opcode, info, false)

/-- Reads an instruction. -/
def decodeInstruction : Parsing Instruction := do
  let offset ← position
  let (opcode, info, wide) ← decodeOpcode
  let operand ← decodeOperand wide info.form
  let size ← check (sub (← position) offset)
  return ⟨offset, size, opcode, wide, operand⟩

theorem implements_readOpcode :
    Implements readOpcode Instruction.readOpcode fun _ => True := by
  refine .bind (implements_readInt UInt8) fun opcode _ => ?_
  cases Opcode.info? opcode with
  | some info => exact .pure trivial
  | none => exact .malformed _

/-- The end of an instruction does not lie before its start. -/
theorem agrees_sized {c d : Cursor} {m : Parsing Operand} {r : Reader Operand}
    (h : Implements m r fun _ => True) (honward : c.pos ≤ d.pos) (opcode : UInt8) (wide : Bool) :
    Agrees d (fun _ => True)
      ((do
        let operand ← m
        let size ← check (sub (← position) c.pos)
        return ⟨c.pos, size, opcode, wide, operand⟩ : Parsing Instruction) (.ofCursor d))
      ((do
        let operand ← r
        let stop ← Reader.position
        return ⟨c.pos, stop - c.pos, opcode, wide, operand⟩ : Reader Instruction) d) := by
  refine (h d).bind fun operand e _ honward' _ => ?_
  show Agrees e _ ((check (sub e.pos c.pos) >>= _ : Parsing Instruction) _) _
  rw [sub_eq_ok (Nat.le_trans honward honward'), check_ok_bind]
  exact .value rfl (Nat.le_refl _) trivial

/-- An instruction is decoded as it is read. -/
theorem implements_decodeInstruction :
    Implements decodeInstruction Instruction.read fun _ => True := by
  intro c
  have hstart : Agrees c (· = c.pos) (position (.ofCursor c)) (Reader.position c) :=
    .value rfl (Nat.le_refl _) rfl
  refine hstart.bind fun offset d _ honward hoffset => ?_
  subst hoffset
  unfold decodeOpcode
  rw [bind_assoc]
  refine (implements_readOpcode d).bind fun first e _ honward' _ => ?_
  have hfirst := Nat.le_trans honward honward'
  -- the size is a difference of positions, which is defined as the parser only moves onward
  by_cases hwide : first.2.form = .wide
  · simp only [if_pos hwide]
    rw [bind_assoc]
    refine (implements_readOpcode e).bind fun second f _ honward'' _ => ?_
    have hsecond := Nat.le_trans hfirst honward''
    by_cases hlocal : second.2.form = .slot ∨ second.2.form = .increment
    · simp only [if_pos hlocal]
      exact agrees_sized (implements_decodeWide second.1 hlocal) hsecond _ _
    · simp only [if_neg hlocal, readWide_of_other second.1 hlocal]
      exact .fault
  · simp only [if_neg hwide]
    exact agrees_sized (implements_decodeOperand hwide) hfirst _ _

end Backref.Machine
