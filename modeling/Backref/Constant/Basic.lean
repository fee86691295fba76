import Backref.Text.Utf16

/-!
# Constants

The seventeen kinds of constant that a class file's pool holds. A constant
refers to another one by its index in the pool; the two floating-point kinds
are kept as their bit patterns, so that equality of constants is equality of
what the file says.
-/

namespace Backref

/-- The kinds of constant. -/
inductive Constant.Kind
  | utf8 | integer | float | long | double | classInfo | string | fieldRef | methodRef
  | interfaceMethodRef | nameAndType | methodHandle | methodType | dynamic | invokeDynamic
  | moduleInfo | packageInfo
  deriving DecidableEq, Hashable, Repr

/-- The three kinds of member reference. -/
inductive MemberKind
  | field | method | interfaceMethod
  deriving DecidableEq, Hashable, Repr

/-- An entry of a constant pool. -/
inductive Constant
  | utf8 (text : String)
  | integer (value : Int32)
  | float (bits : UInt32)
  | long (value : Int64)
  | double (bits : UInt64)
  | classInfo (name : UInt16)
  | string (text : UInt16)
  | memberRef (kind : MemberKind) (owner nameAndType : UInt16)
  | nameAndType (name descriptor : UInt16)
  | methodHandle (kind : UInt8) (member : UInt16)
  | methodType (descriptor : UInt16)
  | dynamic (bootstrap nameAndType : UInt16)
  | invokeDynamic (bootstrap nameAndType : UInt16)
  | moduleInfo (name : UInt16)
  | packageInfo (name : UInt16)
  deriving DecidableEq, Hashable, Repr

namespace Constant

namespace Kind

/-- All kinds, in the order of their tags. -/
def all : List Kind :=
  [utf8, integer, float, long, double, classInfo, string, fieldRef, methodRef,
    interfaceMethodRef, nameAndType, methodHandle, methodType, dynamic, invokeDynamic,
    moduleInfo, packageInfo]

/-- The byte that announces a constant of this kind. -/
def tag : Kind → UInt8
  | utf8 => 1
  | integer => 3
  | float => 4
  | long => 5
  | double => 6
  | classInfo => 7
  | string => 8
  | fieldRef => 9
  | methodRef => 10
  | interfaceMethodRef => 11
  | nameAndType => 12
  | methodHandle => 15
  | methodType => 16
  | dynamic => 17
  | invokeDynamic => 18
  | moduleInfo => 19
  | packageInfo => 20

/-- The kind that a tag announces. -/
def ofTag? (tag : UInt8) : Option Kind :=
  all.find? fun k => k.tag == tag

/-- Whether a constant of this kind takes two slots of the pool. -/
def isWide : Kind → Bool
  | long | double => true
  | _ => false

/-- The name under which messages mention the kind. -/
def name : Kind → String
  | utf8 => "Utf8"
  | integer => "Integer"
  | float => "Float"
  | long => "Long"
  | double => "Double"
  | classInfo => "Class"
  | string => "String"
  | fieldRef => "Fieldref"
  | methodRef => "Methodref"
  | interfaceMethodRef => "InterfaceMethodref"
  | nameAndType => "NameAndType"
  | methodHandle => "MethodHandle"
  | methodType => "MethodType"
  | dynamic => "Dynamic"
  | invokeDynamic => "InvokeDynamic"
  | moduleInfo => "Module"
  | packageInfo => "Package"

/-- The tag of a kind is known. -/
theorem ofTag?_tag (k : Kind) : ofTag? k.tag = some k := by
  cases k <;> rfl

/-- A known tag is the tag of its kind. -/
theorem tag_of_ofTag? {t : UInt8} {k : Kind} (h : ofTag? t = some k) : k.tag = t := by
  simpa using List.find?_some h

end Kind

/-- The kind of a reference constant. -/
def refKind : MemberKind → Kind
  | .field => .fieldRef
  | .method => .methodRef
  | .interfaceMethod => .interfaceMethodRef

/-- The kind of a constant. -/
def kind : Constant → Kind
  | utf8 _ => .utf8
  | integer _ => .integer
  | float _ => .float
  | long _ => .long
  | double _ => .double
  | classInfo _ => .classInfo
  | string _ => .string
  | memberRef k _ _ => refKind k
  | nameAndType _ _ => .nameAndType
  | methodHandle _ _ => .methodHandle
  | methodType _ => .methodType
  | dynamic _ _ => .dynamic
  | invokeDynamic _ _ => .invokeDynamic
  | moduleInfo _ => .moduleInfo
  | packageInfo _ => .packageInfo

/-- The number of pool slots that a constant takes. -/
def slots (c : Constant) : Nat := if c.kind.isWide then 2 else 1

end Constant

end Backref
