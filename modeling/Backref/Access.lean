/-!
# Access flags

The sixteen access bits of classes and members, as a set.
-/

namespace Backref

/-- A set of access bits. -/
structure AccessFlags where
  bits : UInt16
  deriving DecidableEq, Hashable, Repr

namespace AccessFlags

/-- The names of the bits, from the lowest on. Some bits mean one thing on a
class, another on a field and a third on a method; they have the name that is
listed first for them. -/
def bitNames : List String :=
  ["PUBLIC", "PRIVATE", "PROTECTED", "STATIC", "FINAL", "SUPER", "VOLATILE", "TRANSIENT",
    "NATIVE", "INTERFACE", "ABSTRACT", "STRICT", "SYNTHETIC", "ANNOTATION", "ENUM", "MODULE"]

/-- A public class whose `super` calls are resolved in the current way. -/
def publicSuper : AccessFlags := ⟨0x0021⟩

/-- The bit of members that belong to the class and not to its instances. -/
def static : AccessFlags := ⟨0x0008⟩

instance : Union AccessFlags := ⟨fun a b => ⟨a.bits ||| b.bits⟩⟩

instance : Inter AccessFlags := ⟨fun a b => ⟨a.bits &&& b.bits⟩⟩

instance : SDiff AccessFlags := ⟨fun a b => ⟨a.bits &&& ~~~b.bits⟩⟩

instance : EmptyCollection AccessFlags := ⟨⟨0⟩⟩

/-- The bits that are in exactly one of two sets. -/
def symmDiff (a b : AccessFlags) : AccessFlags := ⟨a.bits ^^^ b.bits⟩

/-- The bits that are not in a set. -/
def complement (a : AccessFlags) : AccessFlags := ⟨~~~a.bits⟩

/-- Whether all bits of `b` are in `a`. -/
def contains (a b : AccessFlags) : Bool := a ∩ b == b

/-- Whether two sets have a bit in common. -/
def intersects (a b : AccessFlags) : Bool := a ∩ b != ∅

/-- The names of the bits in a set. -/
def names (a : AccessFlags) : List String :=
  bitNames.zipIdx.filterMap fun (name, i) =>
    if a.bits.toNat.testBit i then some name else none

/-- Whether a member belongs to the class. -/
def isStatic (a : AccessFlags) : Bool := a.contains static

end AccessFlags

end Backref
