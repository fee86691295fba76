import Backref.ClassFile.Read
import Backref.Proofs.Bytes.Delimited

/-!
# Where a class file ends

A class file says of each of its parts how many entries or bytes it has, so a
reader of class files finds the end of its last attribute by itself. What it
does is decided by the bytes up to there; where one of those is missing, it runs
out of bytes; and what is wrong in the bytes that are there does not become right
by more of them.

Attributes with a body of their own are no exception: a body is read as a byte
string of its own, once all of it is there.

Main results:

* `ConstantPool.selfDelimiting_read` — reading a pool is self-delimiting;
* `ClassFile.selfDelimiting_read` — and so is reading a class file.
-/

namespace Backref

open Reader

-- ---------------------------------------------------------------------------
-- Pools
-- ---------------------------------------------------------------------------

/-- A text reads the bytes that its length says. -/
theorem Reader.selfDelimiting_text (n : Nat) : SelfDelimiting (text n) := by
  refine (SelfDelimiting.take n).bind fun bytes => ?_
  cases Modified.decode bytes with
  | ok text => exact .pure text
  | error f => exact .throw f

namespace Constant

/-- A constant of one number reads that number. -/
theorem selfDelimiting_one {α : Type} [FixedWidth α] (f : α → Constant) :
    SelfDelimiting (do return f (← int α)) :=
  SelfDelimiting.int.bind fun _ => .pure _

theorem selfDelimiting_two {α β : Type} [FixedWidth α] [FixedWidth β] (f : α → β → Constant) :
    SelfDelimiting (do return f (← int α) (← int β)) :=
  SelfDelimiting.int.bind fun a => selfDelimiting_one (f a)

/-- The parts of a constant are read by its kind alone. -/
theorem selfDelimiting_readParts (kind : Kind) : SelfDelimiting (readParts kind) := by
  -- apart from a text, a constant is one number or two
  cases kind with
  | utf8 =>
    exact SelfDelimiting.int.bind fun n => (selfDelimiting_text n.toNat).bind fun _ => .pure _
  | integer => exact selfDelimiting_one integer
  | float => exact selfDelimiting_one float
  | long => exact selfDelimiting_one long
  | double => exact selfDelimiting_one double
  | classInfo => exact selfDelimiting_one classInfo
  | string => exact selfDelimiting_one string
  | fieldRef => exact selfDelimiting_two (memberRef .field)
  | methodRef => exact selfDelimiting_two (memberRef .method)
  | interfaceMethodRef => exact selfDelimiting_two (memberRef .interfaceMethod)
  | nameAndType => exact selfDelimiting_two nameAndType
  | methodHandle => exact selfDelimiting_two methodHandle
  | methodType => exact selfDelimiting_one methodType
  | dynamic => exact selfDelimiting_two dynamic
  | invokeDynamic => exact selfDelimiting_two invokeDynamic
  | moduleInfo => exact selfDelimiting_one moduleInfo
  | packageInfo => exact selfDelimiting_one packageInfo

theorem selfDelimiting_read (index : Nat) : SelfDelimiting (Constant.read index) := by
  refine SelfDelimiting.int.bind fun tag => ?_
  cases Kind.ofTag? tag with
  | none => exact .malformed _
  | some kind => exact selfDelimiting_readParts kind

end Constant

namespace ConstantPool

/-- Constants are read until their slots are full. -/
theorem selfDelimiting_readSlots (missing : Nat) (slots : Array (Option Constant)) :
    SelfDelimiting (readSlots missing slots) := by
  -- a wide constant fills two slots at once
  induction missing using Nat.strongRecOn generalizing slots with
  | _ missing ih =>
    cases missing with
    | zero => exact .pure slots
    | succ missing =>
      rw [readSlots]
      refine (Constant.selfDelimiting_read _).bind fun constant => .ite ?_ (ih _ (by omega) _)
      cases missing with
      | zero => exact .malformed _
      | succ missing => exact ih missing (by omega) _

theorem selfDelimiting_read : SelfDelimiting ConstantPool.read := by
  refine SelfDelimiting.int.bind fun count => .ite (.malformed _) ?_
  exact (selfDelimiting_readSlots _ _).bind fun _ => .pure _

end ConstantPool

-- ---------------------------------------------------------------------------
-- Members and attributes
-- ---------------------------------------------------------------------------

theorem Code.selfDelimiting_skipAttributes : SelfDelimiting skipAttributes := by
  refine SelfDelimiting.int.bind fun n => ?_
  have hskip : SelfDelimiting skipAttribute :=
    (SelfDelimiting.skip 2).bind fun _ => SelfDelimiting.int.bind fun _ => .skip _
  induction n.toNat with
  | zero => exact .pure ()
  | succ n ih => exact hskip.bind fun _ => ih

namespace ClassFile

theorem selfDelimiting_readAccess : SelfDelimiting readAccess :=
  SelfDelimiting.int.bind fun _ => .pure _

theorem selfDelimiting_readField : SelfDelimiting readField := by
  refine selfDelimiting_readAccess.bind fun access => SelfDelimiting.int.bind fun name => ?_
  exact SelfDelimiting.int.bind fun descriptor =>
    Code.selfDelimiting_skipAttributes.bind fun _ => .pure _

/-- A body is there in full before it is read, so nothing of it is read from the cursor. -/
theorem selfDelimiting_readBody {α : Type} (r : Reader α) (body : Bytes) :
    SelfDelimiting (readBody r body) := by
  unfold readBody
  cases r.run body with
  | ok a => exact .pure a
  | error f => exact .throw f

variable (pool : ConstantPool)

theorem selfDelimiting_readAttribute : SelfDelimiting (readAttribute pool) := by
  refine SelfDelimiting.int.bind fun name => SelfDelimiting.int.bind fun length => ?_
  refine (SelfDelimiting.take _).bind fun body => ?_
  cases pool.utf8 name with
  | ok name => exact .pure _
  | error f => exact .throw f

theorem selfDelimiting_readMethodAttributes (n : Nat) (code : Option Code) :
    SelfDelimiting (readMethodAttributes pool n code) := by
  induction n generalizing code with
  | zero => exact .pure code
  | succ n ih =>
    refine (selfDelimiting_readAttribute pool).bind fun (name, body) => .ite ?_ (ih code)
    refine .ite (.malformed _) ?_
    exact (selfDelimiting_readBody Code.read body).bind fun code => ih (some code)

theorem selfDelimiting_readMethod : SelfDelimiting (readMethod pool) := by
  refine selfDelimiting_readAccess.bind fun access => SelfDelimiting.int.bind fun name => ?_
  refine SelfDelimiting.int.bind fun descriptor => SelfDelimiting.int.bind fun count => ?_
  exact (selfDelimiting_readMethodAttributes pool _ none).bind fun _ => .pure _

theorem selfDelimiting_readClassAttributes (n : Nat) (methods : Array BootstrapMethod) :
    SelfDelimiting (readClassAttributes pool n methods) := by
  induction n generalizing methods with
  | zero => exact .pure methods
  | succ n ih =>
    refine (selfDelimiting_readAttribute pool).bind fun (name, body) => .ite ?_ (ih methods)
    exact (selfDelimiting_readBody readBootstrapMethods body).bind fun methods => ih methods

/-- Reading a class file is self-delimiting. -/
theorem selfDelimiting_read : SelfDelimiting ClassFile.read := by
  refine SelfDelimiting.int.bind fun found => .ite (.throw _) ?_
  refine SelfDelimiting.int.bind fun minor => SelfDelimiting.int.bind fun major => ?_
  refine ConstantPool.selfDelimiting_read.bind fun pool => ?_
  refine selfDelimiting_readAccess.bind fun access => SelfDelimiting.int.bind fun thisClass => ?_
  refine SelfDelimiting.int.bind fun superClass => ?_
  refine SelfDelimiting.int.table.bind fun interfaces => ?_
  refine selfDelimiting_readField.table.bind fun fields => ?_
  refine (selfDelimiting_readMethod pool).table.bind fun methods => ?_
  refine SelfDelimiting.int.bind fun count => ?_
  exact (selfDelimiting_readClassAttributes pool _ _).bind fun _ => .pure _

end ClassFile

end Backref
