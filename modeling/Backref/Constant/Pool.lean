import Backref.Constant.Codec

/-!
# Constant pools

A pool gives each constant an index. Index 0 is never used, and a wide
constant takes the index after its own as well, which then names nothing.

The typed lookups follow the references from entry to entry; the first entry
that is missing or of the wrong kind decides the fault.
-/

namespace Backref

/-- The constants of a class file by index. Slots without a constant are
index 0 and those behind a wide constant. -/
structure ConstantPool where
  slots : Array (Option Constant)
  deriving DecidableEq, Repr

/-- A field or method: its class, its name and its descriptor. -/
structure Member where
  owner : String
  name : String
  descriptor : String
  deriving DecidableEq, Repr

/-- A member as a reference constant names it. -/
structure MemberRef extends Member where
  kind : MemberKind
  deriving DecidableEq, Repr

/-- A method handle. Its kind is kept as the file gives it. -/
structure HandleRef where
  kind : UInt8
  member : MemberRef
  deriving DecidableEq, Repr

/-- A call site that a bootstrap method links at run time. -/
structure CallSite where
  bootstrap : UInt16
  name : String
  descriptor : String
  deriving DecidableEq, Repr

namespace ConstantPool

/-- Reads constants until `missing` more slots are filled. -/
def readSlots : (missing : Nat) → (slots : Array (Option Constant)) →
    Reader (Array (Option Constant))
  | 0, slots => pure slots
  | missing + 1, slots => do
    let index := slots.size
    let constant ← Constant.read index
    let slots := slots.push (some constant)
    if constant.kind.isWide then
      match missing with
      | 0 => Reader.malformed (.widePastEnd index)
      | missing + 1 => readSlots missing (slots.push none)
    else
      readSlots missing slots

/-- Reads a pool: the number of its slots, index 0 included, then the constants. -/
def read : Reader ConstantPool := do
  let count ← Reader.int UInt16
  if count = 0 then
    Reader.malformed .emptyPool
  else
    return ⟨← readSlots (count.toNat - 1) #[none]⟩

/-- The number of slots, index 0 included. -/
def size (pool : ConstantPool) : Nat := pool.slots.size

/-- Whether a pool has no slots but index 0. -/
def isEmpty (pool : ConstantPool) : Bool := pool.size ≤ 1

/-- The pool without constants. -/
def empty : ConstantPool := ⟨#[none]⟩

/-- The pool with one more constant. -/
def push (pool : ConstantPool) (c : Constant) : ConstantPool :=
  if c.kind.isWide then ⟨(pool.slots.push (some c)).push none⟩ else ⟨pool.slots.push (some c)⟩

/-- The written form of the constants in order. -/
def encodeConstants (pool : ConstantPool) : Bytes :=
  pool.slots.toList.flatMap fun slot =>
    match slot with
    | some c => c.encode
    | none => []

/-- The written form of a pool of at most 65535 slots. -/
def encode (pool : ConstantPool) : Bytes :=
  FixedWidth.encode (UInt16.ofNat pool.size) ++ pool.encodeConstants

/-- The constants with their indices, in order. -/
def toList (pool : ConstantPool) : List (Nat × Constant) :=
  pool.slots.toList.zipIdx.filterMap fun (slot, index) => slot.map fun c => (index, c)

/-- The constant at an index. -/
def get (pool : ConstantPool) (index : UInt16) : Except Fault Constant :=
  match pool.slots[index.toNat]? with
  | some (some c) => .ok c
  | _ => .error (.malformed (.noConstant index pool.size))

/-- The fault of finding the wrong kind of constant. -/
def wrong (index : UInt16) (wanted : PoolRole) (found : Constant) : Fault :=
  .malformed (.wrongConstant index wanted found)

/-- The text at an index. -/
def utf8 (pool : ConstantPool) (index : UInt16) : Except Fault String := do
  match ← pool.get index with
  | .utf8 text => return text
  | found => throw (wrong index .utf8 found)

/-- The name of the class at an index. -/
def className (pool : ConstantPool) (index : UInt16) : Except Fault String := do
  match ← pool.get index with
  | .classInfo name => pool.utf8 name
  | found => throw (wrong index .classInfo found)

/-- The name and descriptor at an index. -/
def nameAndType (pool : ConstantPool) (index : UInt16) : Except Fault (String × String) := do
  match ← pool.get index with
  | .nameAndType name descriptor =>
    let name ← pool.utf8 name
    let descriptor ← pool.utf8 descriptor
    return (name, descriptor)
  | found => throw (wrong index .nameAndType found)

/-- The member that the reference at an index names. -/
def memberRef (pool : ConstantPool) (index : UInt16) : Except Fault MemberRef := do
  match ← pool.get index with
  | .memberRef kind owner signature =>
    let owner ← pool.className owner
    let (name, descriptor) ← pool.nameAndType signature
    return ⟨⟨owner, name, descriptor⟩, kind⟩
  | found => throw (wrong index .memberRef found)

/-- The method handle at an index. -/
def methodHandle (pool : ConstantPool) (index : UInt16) : Except Fault HandleRef := do
  match ← pool.get index with
  | .methodHandle kind member => return ⟨kind, ← pool.memberRef member⟩
  | found => throw (wrong index .methodHandle found)

/-- The descriptor of the method type at an index. -/
def methodType (pool : ConstantPool) (index : UInt16) : Except Fault String := do
  match ← pool.get index with
  | .methodType descriptor => pool.utf8 descriptor
  | found => throw (wrong index .methodType found)

/-- The call site at an index. -/
def callSite (pool : ConstantPool) (index : UInt16) : Except Fault CallSite := do
  match ← pool.get index with
  | .invokeDynamic bootstrap signature =>
    let (name, descriptor) ← pool.nameAndType signature
    return ⟨bootstrap, name, descriptor⟩
  | found => throw (wrong index .invokeDynamic found)

end ConstantPool

end Backref
