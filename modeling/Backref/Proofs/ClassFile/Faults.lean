import Backref.Bytecode.Decode
import Backref.ClassFile.Read
import Backref.Proofs.Constant.Lookups

/-!
# How reading fails

A reader fails when it runs out of data, or because what it reads is malformed.
A class file may moreover start with another number than it should. These are
all the faults that reading has; the others are those of what is read.

Main results:

* `Instruction.failsWith_read` — reading an instruction;
* `ClassFile.fault_ofBytes` — reading a class file.
-/

namespace Backref

/-- What reading fails with. -/
def ReadFault (fault : Fault) : Prop :=
  fault = .outOfBounds ∨ ∃ cause, fault = .malformed cause

-- ---------------------------------------------------------------------------
-- Readers
-- ---------------------------------------------------------------------------

namespace Reader

variable {α : Type}

/-- A reader that gives up on what it reads calls it malformed. -/
theorem failsWith_malformed (cause : Malformation) :
    FailsWith ReadFault (malformed cause : Reader α) := .throw (.inr ⟨cause, rfl⟩)

theorem failsWith_position : FailsWith ReadFault position := by
  intro c d fault h
  cases h

theorem failsWith_hasMore : FailsWith ReadFault hasMore := by
  intro c d fault h
  cases h

/-- Looking for a position further on fails only beyond the end of the data. -/
theorem failsWith_endOf (n : Nat) : FailsWith ReadFault (endOf n) := by
  intro c d fault h
  unfold endOf at h
  split at h
  · cases h
  · cases h
    exact .inl rfl

/-- Taking bytes fails only where there are too few. -/
theorem failsWith_take (n : Nat) : FailsWith ReadFault (take n) := by
  intro c d fault h
  unfold take at h
  split at h
  · cases h
  · cases h
    exact .inl rfl

/-- Skipping bytes fails only where there are too few. -/
theorem failsWith_skip (n : Nat) : FailsWith ReadFault (skip n) := by
  intro c d fault h
  unfold skip at h
  split at h
  · cases h
  · cases h
    exact .inl rfl

/-- Aligning fails only where the padding is not all there. -/
theorem failsWith_align (alignment : Nat) : FailsWith ReadFault (align alignment) :=
  failsWith_position.bind fun _ => failsWith_skip _

/-- An integer fails only where its bytes are not all there. -/
theorem failsWith_int [FixedWidth α] : FailsWith ReadFault (int α) :=
  (failsWith_take _).bind fun _ => .pure _

/-- What is made of one integer fails as the integer does. -/
theorem failsWith_one {β : Type} [FixedWidth α] (f : α → β) :
    FailsWith ReadFault (do return f (← int α)) :=
  failsWith_int.bind fun _ => .pure _

/-- What is made of two integers fails as either does. -/
theorem failsWith_two {β γ : Type} [FixedWidth α] [FixedWidth β] (f : α → β → γ) :
    FailsWith ReadFault (do return f (← int α) (← int β)) :=
  failsWith_int.bind fun a => failsWith_one (f a)

/-- Reading something several times fails as reading it once does. -/
theorem failsWith_times {r : Reader α} (hr : FailsWith ReadFault r) (n : Nat) :
    FailsWith ReadFault (times n r) := by
  unfold times
  -- the entries that have been read differ from step to step
  generalize (#[] : Array α) = seen
  induction n generalizing seen with
  | zero => exact .pure seen
  | succ n ih => exact hr.bind fun a => ih _

/-- A counted table fails as its entries do. -/
theorem failsWith_table {r : Reader α} (hr : FailsWith ReadFault r) :
    FailsWith ReadFault (table r) :=
  failsWith_int.bind fun _ => failsWith_times hr _

end Reader

open Reader

-- ---------------------------------------------------------------------------
-- Constants
-- ---------------------------------------------------------------------------

namespace Modified

/-- Bytes are no units where one of them is malformed, or where they break off. -/
theorem refusesWith_unitsAfter (position : Nat) (seen : Array UInt16) (bytes : Bytes) :
    RefusesWith ReadFault (unitsAfter position seen bytes) := by
  have hcause : ∀ cause, RefusesWith ReadFault
      (.error (.malformed cause) : Except Fault (Array UInt16)) :=
    fun cause => .error (.inr ⟨cause, rfl⟩)
  -- one case for each way in which a unit is read or refused
  fun_induction unitsAfter position seen bytes <;>
    first | assumption | exact .pure _ | exact hcause _ | exact .error (.inl rfl)

/-- Bytes that are neither standard nor modified UTF-8 are refused as units are. -/
theorem refusesWith_decode (bytes : Bytes) : RefusesWith ReadFault (decode bytes) := by
  unfold decode
  split
  · exact .pure _
  · split
    · exact .pure _
    · rename_i fault h
      exact .error (refusesWith_unitsAfter 0 #[] bytes fault h)

end Modified

/-- A text fails where its bytes are not all there, or where they are refused. -/
theorem Reader.failsWith_text (n : Nat) : FailsWith ReadFault (text n) := by
  refine (failsWith_take n).bind fun bytes => ?_
  have hdecode := Modified.refusesWith_decode bytes
  cases hresult : Modified.decode bytes with
  | ok text => exact .pure text
  | error fault => exact .throw (hdecode fault hresult)

namespace Constant

/-- What stands behind the tag of a constant is an integer, two of them, or a text. -/
theorem failsWith_readParts (kind : Kind) : FailsWith ReadFault (readParts kind) := by
  cases kind with
  | utf8 => exact failsWith_int.bind fun n => (failsWith_text n.toNat).bind fun _ => .pure _
  | integer => exact failsWith_one integer
  | float => exact failsWith_one float
  | long => exact failsWith_one long
  | double => exact failsWith_one double
  | classInfo => exact failsWith_one classInfo
  | string => exact failsWith_one string
  | fieldRef => exact failsWith_two (memberRef .field)
  | methodRef => exact failsWith_two (memberRef .method)
  | interfaceMethodRef => exact failsWith_two (memberRef .interfaceMethod)
  | nameAndType => exact failsWith_two nameAndType
  | methodHandle => exact failsWith_two methodHandle
  | methodType => exact failsWith_one methodType
  | dynamic => exact failsWith_two dynamic
  | invokeDynamic => exact failsWith_two invokeDynamic
  | moduleInfo => exact failsWith_one moduleInfo
  | packageInfo => exact failsWith_one packageInfo

/-- A constant fails at a tag that is unknown, or as its parts do. -/
theorem failsWith_read (index : Nat) : FailsWith ReadFault (Constant.read index) := by
  refine failsWith_int.bind fun tag => ?_
  cases Kind.ofTag? tag with
  | none => exact failsWith_malformed _
  | some kind => exact failsWith_readParts kind

end Constant

namespace ConstantPool

/-- The slots of a pool fail as their constants do, or where a wide constant has
one slot left. -/
theorem failsWith_readSlots (missing : Nat) (slots : Array (Option Constant)) :
    FailsWith ReadFault (readSlots missing slots) := by
  -- a wide constant fills two slots at once
  induction missing using Nat.strongRecOn generalizing slots with
  | _ missing ih =>
    cases missing with
    | zero => exact .pure slots
    | succ missing =>
      rw [readSlots]
      refine (Constant.failsWith_read _).bind fun constant => ?_
      dsimp only
      split
      · cases missing with
        | zero => exact failsWith_malformed _
        | succ missing => exact ih missing (by omega) _
      · exact ih missing (by omega) _

/-- A pool fails where its count is 0, or as its slots do. -/
theorem failsWith_read : FailsWith ReadFault ConstantPool.read := by
  refine failsWith_int.bind fun count => ?_
  split
  · exact failsWith_malformed _
  · exact (failsWith_readSlots _ _).bind fun _ => .pure _

end ConstantPool

-- ---------------------------------------------------------------------------
-- Instructions
-- ---------------------------------------------------------------------------

namespace Operand

/-- A switch that asks for its table beforehand fails only if the table is not all there. -/
theorem failsWith_require (n : Nat) : FailsWith ReadFault (require n) :=
  (failsWith_endOf n).bind fun _ => .pure _

/-- A table switch fails where it breaks off, or where its bounds are out of order. -/
theorem failsWith_readTableSwitch : FailsWith ReadFault readTableSwitch := by
  refine (failsWith_align 4).bind fun _ => failsWith_int.bind fun default =>
    failsWith_int.bind fun low => failsWith_int.bind fun high => ?_
  -- bounds that are out of order are malformed
  split
  · exact failsWith_malformed _
  · exact (failsWith_require _).bind fun _ =>
      (failsWith_times failsWith_int _).bind fun _ => .pure _

/-- A lookup switch fails where it breaks off, or where its number of pairs is negative. -/
theorem failsWith_readLookupSwitch : FailsWith ReadFault readLookupSwitch := by
  refine (failsWith_align 4).bind fun _ => failsWith_int.bind fun default =>
    failsWith_int.bind fun count => ?_
  -- a negative number of pairs is malformed
  split
  · exact failsWith_malformed _
  · exact (failsWith_require _).bind fun _ =>
      (failsWith_times (failsWith_two Prod.mk) _).bind fun _ => .pure _

/-- An operand fails only where it breaks off, but for the two switches. -/
theorem failsWith_read (form : OperandForm) : FailsWith ReadFault (read form) := by
  cases form with
  | none => exact .pure _
  | wide => exact .pure _
  | int8 => exact failsWith_one int8
  | int16 => exact failsWith_one int16
  | uint8 => exact failsWith_one uint8
  | narrowConstant => exact failsWith_one fun n => constant (UInt8.toUInt16 n)
  | constant => exact failsWith_one constant
  | slot => exact failsWith_one fun n => slot (UInt8.toUInt16 n)
  | increment => exact failsWith_two fun n by' => increment (UInt8.toUInt16 n) (Int8.toInt16 by')
  | branch16 => exact failsWith_one fun offset => branch (Int16.toInt32 offset)
  | branch32 => exact failsWith_one branch
  | tableSwitch => exact failsWith_readTableSwitch
  | lookupSwitch => exact failsWith_readLookupSwitch
  | invokeInterface =>
    exact failsWith_int.bind fun _ => failsWith_int.bind fun _ =>
      (failsWith_skip 1).bind fun _ => .pure _
  | invokeDynamic => exact failsWith_int.bind fun _ => (failsWith_skip 2).bind fun _ => .pure _
  | multiNewArray => exact failsWith_two multiNewArray

/-- Behind the prefix, an opcode that cannot be widened is malformed. -/
theorem failsWith_readWide (opcode : UInt8) (info : OpcodeInfo) :
    FailsWith ReadFault (readWide opcode info) := by
  unfold readWide
  split
  · exact failsWith_one slot
  · exact failsWith_two increment
  · exact failsWith_malformed _

end Operand

namespace Instruction

/-- A byte that is no opcode is malformed. -/
theorem failsWith_readOpcode : FailsWith ReadFault readOpcode := by
  refine failsWith_int.bind fun opcode => ?_
  cases Opcode.info? opcode with
  | none => exact failsWith_malformed _
  | some info => exact .pure _

/-- An instruction fails at a byte that is no opcode, or as its operand does. -/
theorem failsWith_read : FailsWith ReadFault read := by
  refine failsWith_position.bind fun offset => failsWith_readOpcode.bind fun found => ?_
  dsimp only
  split
  · exact failsWith_readOpcode.bind fun found => (Operand.failsWith_readWide _ _).bind fun _ =>
      failsWith_position.bind fun _ => .pure _
  · exact (Operand.failsWith_read _).bind fun _ => failsWith_position.bind fun _ => .pure _

end Instruction

-- ---------------------------------------------------------------------------
-- Class files
-- ---------------------------------------------------------------------------

namespace Code

/-- Attributes that are skipped fail only where they break off. -/
theorem failsWith_skipAttributes : FailsWith ReadFault skipAttributes := by
  refine failsWith_int.bind fun n => ?_
  have hskip : FailsWith ReadFault skipAttribute :=
    (failsWith_skip 2).bind fun _ => failsWith_int.bind fun _ => failsWith_skip _
  -- one attribute after the other is skipped
  induction n.toNat with
  | zero => exact .pure ()
  | succ n ih => exact hskip.bind fun _ => ih

/-- An entry of the exception table is four numbers. -/
theorem failsWith_readHandler : FailsWith ReadFault readHandler :=
  failsWith_int.bind fun _ => failsWith_int.bind fun _ => failsWith_int.bind fun _ =>
    failsWith_int.bind fun _ => .pure _

/-- A body of code fails where it is empty, where it breaks off, or where bytes
are left behind it. -/
theorem failsWith_read : FailsWith ReadFault Code.read := by
  refine failsWith_int.bind fun maxStack => failsWith_int.bind fun maxLocals =>
    failsWith_int.bind fun length => ?_
  split
  · exact failsWith_malformed _
  · refine (failsWith_take _).bind fun _ => (failsWith_table failsWith_readHandler).bind fun _ =>
      failsWith_skipAttributes.bind fun _ => failsWith_hasMore.bind fun more => ?_
    split
    · exact failsWith_malformed _
    · exact .pure _

end Code

namespace ClassFile

/-- An attribute fails where it breaks off, or where its name is no text. -/
theorem failsWith_readAttribute (pool : ConstantPool) :
    FailsWith ReadFault (readAttribute pool) := by
  refine failsWith_int.bind fun nameIndex => failsWith_int.bind fun length =>
    (failsWith_take _).bind fun body => ?_
  have hname := OnlyMalformed.utf8 pool nameIndex
  cases hresult : pool.utf8 nameIndex with
  | ok name => exact .pure _
  | error fault => exact .throw (.inr (hname fault hresult))

/-- A body of its own is read with the faults of reading. -/
theorem failsWith_readBody {α : Type} {r : Reader α} (hr : FailsWith ReadFault r) (body : Bytes) :
    FailsWith ReadFault (readBody r body) := by
  have hrun := hr.run body
  unfold readBody
  cases hresult : r.run body with
  | ok a => exact .pure a
  | error fault => exact .throw (hrun fault hresult)

theorem failsWith_readAccess : FailsWith ReadFault readAccess :=
  failsWith_int.bind fun _ => .pure _

/-- A field is read as four numbers, and its attributes are skipped. -/
theorem failsWith_readField : FailsWith ReadFault readField :=
  failsWith_readAccess.bind fun _ => failsWith_int.bind fun _ => failsWith_int.bind fun _ =>
    Code.failsWith_skipAttributes.bind fun _ => .pure _

/-- The attributes of a method fail as their bodies do, or at a second body of code. -/
theorem failsWith_readMethodAttributes (pool : ConstantPool) (n : Nat) (code : Option Code) :
    FailsWith ReadFault (readMethodAttributes pool n code) := by
  induction n generalizing code with
  | zero => exact .pure code
  | succ n ih =>
    refine (failsWith_readAttribute pool).bind fun entry => ?_
    dsimp only
    -- only an attribute with the name of code is read, and only once
    split
    · split
      · exact failsWith_malformed _
      · exact (failsWith_readBody Code.failsWith_read _).bind fun _ => ih _
    · exact ih _

/-- A method fails as its numbers do, or as its attributes do. -/
theorem failsWith_readMethod (pool : ConstantPool) : FailsWith ReadFault (readMethod pool) :=
  failsWith_readAccess.bind fun _ => failsWith_int.bind fun _ => failsWith_int.bind fun _ =>
    failsWith_int.bind fun _ => (failsWith_readMethodAttributes pool _ _).bind fun _ => .pure _

/-- Bootstrap methods fail where they break off, or where bytes are left behind them. -/
theorem failsWith_readBootstrapMethods : FailsWith ReadFault readBootstrapMethods := by
  have hrow : FailsWith ReadFault readBootstrapMethod :=
    failsWith_int.bind fun _ => (failsWith_table failsWith_int).bind fun _ => .pure _
  refine (failsWith_table hrow).bind fun methods => failsWith_hasMore.bind fun more => ?_
  split
  · exact failsWith_malformed _
  · exact .pure _

/-- The attributes of a class fail as their bodies do. -/
theorem failsWith_readClassAttributes (pool : ConstantPool) (n : Nat)
    (methods : Array BootstrapMethod) :
    FailsWith ReadFault (readClassAttributes pool n methods) := by
  induction n generalizing methods with
  | zero => exact .pure methods
  | succ n ih =>
    refine (failsWith_readAttribute pool).bind fun entry => ?_
    dsimp only
    split
    · exact (failsWith_readBody failsWith_readBootstrapMethods _).bind fun _ => ih _
    · exact ih _

/-- Reading a class file fails at the number that it starts with, or as any reading does. -/
theorem fault_ofBytes {bytes : Bytes} {fault : Fault} (h : ofBytes bytes = .error fault) :
    (∃ found, fault = .magic found) ∨ ReadFault fault := by
  have hread : FailsWith (fun fault => (∃ found, fault = .magic found) ∨ ReadFault fault)
      ClassFile.read := by
    refine (failsWith_int.mono fun _ => .inr).bind fun found => ?_
    split
    · exact .throw (.inl ⟨found, rfl⟩)
    · refine FailsWith.mono ?_ fun _ => .inr
      exact failsWith_int.bind fun _ => failsWith_int.bind fun _ =>
        ConstantPool.failsWith_read.bind fun pool => failsWith_readAccess.bind fun _ =>
        failsWith_int.bind fun _ => failsWith_int.bind fun _ =>
        (failsWith_table failsWith_int).bind fun _ =>
        (failsWith_table failsWith_readField).bind fun _ =>
        (failsWith_table (failsWith_readMethod pool)).bind fun _ =>
        failsWith_int.bind fun _ => (failsWith_readClassAttributes pool _ _).bind fun _ => .pure _
  exact hread.run bytes fault h

end ClassFile

end Backref
