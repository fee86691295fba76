import Backref.Constant.Pool
import Backref.Symbol.Basic
import Std.Data.HashMap

/-!
# Building constant pools

A builder hands out an index for each constant that it is asked for, the same
one whenever the same constant is asked for again. A request that fails keeps
what it had added on the way.
-/

namespace Backref

/-- A pool that grows, with the index of each of its constants. -/
structure PoolBuilder where
  pool : ConstantPool
  indices : Std.HashMap Constant UInt16

/-- A computation that asks for constants. -/
abbrev Interning := EStateM Fault PoolBuilder

namespace PoolBuilder

/-- The builder that has handed out nothing. -/
def empty : PoolBuilder := ⟨.empty, ∅⟩

/-- The number of slots, index 0 included. -/
def count (b : PoolBuilder) : Nat := b.pool.size

/-- The index of a constant, which is added if it is new. -/
def intern (c : Constant) : Interning UInt16 := fun ⟨pool, indices⟩ =>
  match indices[c]? with
  | some index => .ok index ⟨pool, indices⟩
  | none =>
    if pool.size + c.slots ≤ countLimit then
      let index := UInt16.ofNat pool.size
      .ok index ⟨pool.push c, indices.insert c index⟩
    else .error (.malformed .poolFull) ⟨pool, indices⟩

/-- The index of a text, which has to fit a 16-bit length in modified UTF-8. -/
def utf8 (text : String) : Interning UInt16 := do
  let length := (Modified.encode text).length
  if length ≤ countLimit then intern (.utf8 text)
  else throw (.malformed (.textTooLong length))

/-- The index of an `int`. -/
def integer (value : Int32) : Interning UInt16 := intern (.integer value)

/-- The index of a `long`, the first of its two slots. -/
def long (value : Int64) : Interning UInt16 := intern (.long value)

/-- The index of a class, after its name. -/
def classInfo (name : String) : Interning UInt16 := do
  intern (.classInfo (← utf8 name))

/-- The index of a string constant, after its text. -/
def string (text : String) : Interning UInt16 := do
  intern (.string (← utf8 text))

/-- The index of a name with a descriptor, after both texts. -/
def nameAndType (name descriptor : String) : Interning UInt16 := do
  let name ← utf8 name
  let descriptor ← utf8 descriptor
  intern (.nameAndType name descriptor)

/-- The index of a member reference: its class comes first, then its name and descriptor. -/
def memberRef (kind : MemberKind) (m : Member) : Interning UInt16 := do
  let owner ← classInfo m.owner
  let signature ← nameAndType m.name m.descriptor
  intern (.memberRef kind owner signature)

/-- The index of a method handle. The kind need not be one that is known. -/
def methodHandle (kind : UInt8) (member : UInt16) : Interning UInt16 :=
  intern (.methodHandle kind member)

/-- The index of a method type, after its descriptor. -/
def methodType (descriptor : String) : Interning UInt16 := do
  intern (.methodType (← utf8 descriptor))

/-- The index of a dynamic call site, after its name and descriptor. -/
def invokeDynamic (bootstrap : UInt16) (name descriptor : String) : Interning UInt16 := do
  intern (.invokeDynamic bootstrap (← nameAndType name descriptor))

end PoolBuilder

end Backref
