import Backref.Access
import Backref.Constant.Pool

/-!
# Class files

The parts of a class file that references are found in. Attributes other than
a method's code and the class's table of bootstrap methods are not kept.
-/

namespace Backref

/-- A range of instructions with the handler of its exceptions. -/
structure ExceptionHandler where
  start : UInt16
  stop : UInt16
  handler : UInt16
  catchType : UInt16
  deriving DecidableEq, Repr

/-- The body of a method. -/
structure Code where
  maxStack : UInt16
  maxLocals : UInt16
  bytes : Bytes
  handlers : Array ExceptionHandler
  deriving DecidableEq, Repr

/-- A field. Its name and type are pool indices. -/
structure Field where
  access : AccessFlags
  name : UInt16
  descriptor : UInt16
  deriving DecidableEq, Repr

/-- A method. Its name and type are pool indices; an abstract or native one has no code. -/
structure Method where
  access : AccessFlags
  name : UInt16
  descriptor : UInt16
  code : Option Code
  deriving DecidableEq, Repr

/-- A bootstrap method: the index of its handle and those of its static arguments. -/
structure BootstrapMethod where
  handle : UInt16
  arguments : Array UInt16
  deriving DecidableEq, Repr

/-- A class file. -/
structure ClassFile where
  minor : UInt16
  major : UInt16
  pool : ConstantPool
  access : AccessFlags
  thisClass : UInt16
  superClass : UInt16
  interfaces : Array UInt16
  fields : Array Field
  methods : Array Method
  bootstrapMethods : Array BootstrapMethod
  deriving DecidableEq, Repr

namespace ClassFile

/-- The number that every class file starts with. -/
def magic : UInt32 := 0xCAFEBABE

/-- The name of the attribute that holds a method's body. -/
def codeAttribute : String := "Code"

/-- The name of the attribute that holds the bootstrap methods. -/
def bootstrapAttribute : String := "BootstrapMethods"

/-- The name of the class. -/
def name (c : ClassFile) : Except Fault String := c.pool.className c.thisClass

/-- The name of the superclass. Index 0 says that there is none. -/
def superName (c : ClassFile) : Except Fault (Option String) :=
  if c.superClass = 0 then .ok none else some <$> c.pool.className c.superClass

/-- The bootstrap method with a given number. -/
def bootstrapMethod (c : ClassFile) (index : UInt16) : Except Fault BootstrapMethod :=
  match c.bootstrapMethods[index.toNat]? with
  | some m => .ok m
  | none => .error (.malformed (.noBootstrapMethod index c.bootstrapMethods.size))

end ClassFile

end Backref
