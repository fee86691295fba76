import Backref.Constant.Render

/-!
# Faults

Every way in which reading, writing or indexing a class file can fail, as a
cause. The wording of all messages is here and nowhere else:
`Fault.message`.
-/

namespace Backref

/-- What a lookup wants to find at a pool index. -/
inductive PoolRole
  | utf8 | classInfo | nameAndType | memberRef | methodHandle | methodType | invokeDynamic
  deriving DecidableEq, Repr

/-- The tables of a class that have a 16-bit count. -/
inductive ClassTable
  | interfaces | fields | methods
  deriving DecidableEq, Repr

/-- Why a text is not a descriptor. -/
inductive DescriptorFault
  | unexpectedEnd
  | tooManyDimensions
  | unterminatedName
  | emptyName
  | voidType
  | unknownType
  | noParameterList
  | unterminatedParameterList
  | trailingText
  deriving DecidableEq, Repr

/-- What is wrong with the contents of a class file, a usage string or an
assembly request. -/
inductive Malformation
  -- Text
  | leadByte (byte : UInt8) (position : Nat)
  | continuationByte (byte : UInt8) (position : Nat)
  -- The constant pool
  | emptyPool
  | constantTag (tag : UInt8) (index : Nat)
  | widePastEnd (index : Nat)
  | noConstant (index : UInt16) (poolSize : Nat)
  | wrongConstant (index : UInt16) (wanted : PoolRole) (found : Constant)
  -- Attributes
  | repeatedCode
  | emptyCode
  | codeLength
  | bootstrapLength
  | noBootstrapMethod (index : UInt16) (count : Nat)
  -- Instructions
  | opcode (byte : UInt8)
  | notWidened (opcode : UInt8) (mnemonic : String)
  | tableBounds (low high : Int32)
  | negativePairCount (count : Int32)
  | lambdaArguments (index : UInt16) (count : Nat)
  -- Usage strings
  | emptyUsageClass (usage : String)
  | usageTag (usage : String)
  | incompleteMember (usage : String)
  -- Assembly
  | textTooLong (length : Nat)
  | poolFull
  | codeTooLong
  | tooManyArguments (count : UInt16)
  | descriptorTooWide (descriptor : String)
  | noCode (name descriptor : String)
  | tooManyBootstrapMethods
  | tooManyBootstrapArguments
  | tooManyEntries (table : ClassTable) (count : Nat)
  | attributeTooLong (length : Nat)
  deriving DecidableEq, Repr

/-- Why an operation failed. -/
inductive Fault
  /-- The file does not start with the magic number. -/
  | magic (found : UInt32)
  /-- A read reached past the end of the data. -/
  | outOfBounds
  | malformed (cause : Malformation)
  /-- A text is not a descriptor; the position counts bytes of UTF-8. -/
  | descriptor (reason : DescriptorFault) (position : Nat) (text : String)
  /-- The operand of a class instruction names no class. -/
  | emptyClassName
  /-- A followed lambda has a method handle of no known kind. -/
  | handleKind (tag : UInt8)
  deriving DecidableEq, Repr

/-- How many entries a 16-bit count can hold. -/
def countLimit : Nat := 65535

namespace PoolRole

/-- How messages name what was wanted. -/
def message : PoolRole → String
  | utf8 => "Utf8"
  | classInfo => "Class"
  | nameAndType => "NameAndType"
  | memberRef => "member reference"
  | methodHandle => "MethodHandle"
  | methodType => "MethodType"
  | invokeDynamic => "InvokeDynamic"

end PoolRole

namespace ClassTable

/-- How messages name a table. -/
def message : ClassTable → String
  | interfaces => "interfaces"
  | fields => "fields"
  | methods => "methods"

end ClassTable

namespace DescriptorFault

/-- The reason in words. -/
def message : DescriptorFault → String
  | unexpectedEnd => "unexpected end"
  | tooManyDimensions => "too many array dimensions"
  | unterminatedName => "unterminated class name"
  | emptyName => "empty class name"
  | voidType => "void is not a field type"
  | unknownType => "unknown type character"
  | noParameterList => "expected '('"
  | unterminatedParameterList => "unterminated parameter list"
  | trailingText => "trailing characters"

end DescriptorFault

namespace Malformation

/-- A byte as messages show it. -/
private def byteText (b : UInt8) : String := "0x" ++ hexDigits 2 b.toNat

/-- The cause in words. -/
def message : Malformation → String
  | leadByte byte position =>
    s!"Invalid modified UTF-8 lead byte {byteText byte} at {position}"
  | continuationByte byte position =>
    s!"Invalid modified UTF-8 continuation byte {byteText byte} at {position}"
  | emptyPool => "Constant pool count must be at least 1"
  | constantTag tag index => s!"Invalid constant pool tag {tag} at index {index}"
  | widePastEnd index => s!"Wide constant at index {index} overflows the constant pool"
  | noConstant index poolSize =>
    s!"Invalid constant pool index {index} (pool size {poolSize})"
  | wrongConstant index wanted found =>
    s!"Constant pool index {index} - expected {wanted.message}, found {found.render}"
  | repeatedCode => "Method has more than one Code attribute"
  | emptyCode => "Code attribute with empty bytecode"
  | codeLength => "Code attribute length mismatch"
  | bootstrapLength => "BootstrapMethods attribute length mismatch"
  | noBootstrapMethod index count =>
    s!"Bootstrap method {index} out of range ({count} entries)"
  | opcode byte => s!"Invalid opcode: {byteText byte}"
  | notWidened byte mnemonic => s!"Opcode {byteText byte} ({mnemonic}) cannot be widened"
  | tableBounds low high => s!"tableswitch high {high.toInt} is below low {low.toInt}"
  | negativePairCount count => s!"lookupswitch with negative pair count {count.toInt}"
  | lambdaArguments index count =>
    s!"Lambda bootstrap at #{index} has {count} arguments, expected at least 3"
  | emptyUsageClass usage => s!"Empty class name in usage '{usage}'"
  | usageTag usage => s!"Unknown usage tag in '{usage}'"
  | incompleteMember usage => s!"Incomplete member usage '{usage}'"
  | textTooLong length => s!"Utf8 constant of {length} bytes is too long"
  | poolFull => s!"Constant pool exceeds {countLimit} entries"
  | codeTooLong => s!"Method code exceeds {countLimit} bytes"
  | tooManyArguments count => s!"Too many arguments for invokeinterface: {count}"
  | descriptorTooWide descriptor => s!"Descriptor '{descriptor}' is too wide"
  | noCode name descriptor => s!"Method {name}{descriptor} has no code"
  | tooManyBootstrapMethods => "Too many bootstrap methods"
  | tooManyBootstrapArguments => "Too many bootstrap arguments"
  | tooManyEntries table count => s!"Too many {table.message}: {count}"
  | attributeTooLong length => s!"Attribute of {length} bytes is too long"

end Malformation

namespace Fault

/-- The message of a fault. -/
def message : Fault → String
  | magic found => s!"Invalid class file magic - 0x{hexDigits 8 found.toNat}"
  | outOfBounds => "Out of Bound read would have occurred"
  | malformed cause => s!"Malformed - {cause.message}"
  | descriptor reason position text =>
    s!"Malformed descriptor - {reason.message} at {position} in '{text}'"
  | emptyClassName => "Malformed descriptor - empty class name"
  | handleKind tag => s!"Invalid handle tag {tag}"

/-- Whether the fault lies in the form of the input. An unknown kind of
method handle does not: a later file format may define it. -/
def isMalformedInput : Fault → Bool
  | handleKind _ => false
  | _ => true

end Fault

end Backref
