import Backref.ClassFile.Basic

/-!
# Reading class files

The reader takes the parts of a class file in the order in which they are
written. Attributes are told apart by name only where something in them is
wanted: those of fields and of code are passed over unread. What follows the
last attribute of the class is ignored.
-/

namespace Backref

open Reader

namespace Code

/-- Passes over an attribute. -/
def skipAttribute : Reader Unit := do
  skip 2
  skip (← int UInt32).toNat

/-- Runs a reader `n` times for its effect alone. -/
def repeatRead (r : Reader Unit) : Nat → Reader Unit
  | 0 => pure ()
  | n + 1 => do r; repeatRead r n

/-- Passes over a list of attributes. -/
def skipAttributes : Reader Unit := do
  repeatRead skipAttribute (← int UInt16).toNat

/-- Reads an entry of the exception table. -/
def readHandler : Reader ExceptionHandler := do
  return ⟨← int UInt16, ← int UInt16, ← int UInt16, ← int UInt16⟩

/-- Reads the body of a code attribute, which has to end with its data. -/
def read : Reader Code := do
  let maxStack ← int UInt16
  let maxLocals ← int UInt16
  let length ← int UInt32
  if length = 0 then
    malformed .emptyCode
  else
    let bytes ← take length.toNat
    let handlers ← table readHandler
    skipAttributes
    if ← hasMore then malformed .codeLength else return ⟨maxStack, maxLocals, bytes, handlers⟩

end Code

namespace ClassFile

/-- Reads an attribute: its name, looked up in the pool, and its body. -/
def readAttribute (pool : ConstantPool) : Reader (String × Bytes) := do
  let nameIndex ← int UInt16
  let body ← take (← int UInt32).toNat
  match pool.utf8 nameIndex with
  | .ok name => return (name, body)
  | .error fault => throw fault

/-- Reads a byte string of its own, which is no part of the cursor's data ahead. -/
def readBody {α : Type} (r : Reader α) (body : Bytes) : Reader α :=
  match r.run body with
  | .ok a => pure a
  | .error fault => throw fault

/-- Reads access flags. Bits of no known meaning are kept. -/
def readAccess : Reader AccessFlags := do
  return ⟨← int UInt16⟩

/-- Reads a field. -/
def readField : Reader Field := do
  let access ← readAccess
  let name ← int UInt16
  let descriptor ← int UInt16
  Code.skipAttributes
  return ⟨access, name, descriptor⟩

/-- Reads `n` attributes of a method and keeps the code, of which there is at most one. -/
def readMethodAttributes (pool : ConstantPool) : (n : Nat) → (code : Option Code) →
    Reader (Option Code)
  | 0, code => pure code
  | n + 1, code => do
    let (name, body) ← readAttribute pool
    if name = codeAttribute then
      if code.isSome then
        malformed .repeatedCode
      else
        let code ← readBody Code.read body
        readMethodAttributes pool n (some code)
    else
      readMethodAttributes pool n code

/-- Reads a method. -/
def readMethod (pool : ConstantPool) : Reader Method := do
  let access ← readAccess
  let name ← int UInt16
  let descriptor ← int UInt16
  let code ← readMethodAttributes pool (← int UInt16).toNat none
  return ⟨access, name, descriptor, code⟩

/-- Reads a bootstrap method. -/
def readBootstrapMethod : Reader BootstrapMethod := do
  return ⟨← int UInt16, ← table (int UInt16)⟩

/-- Reads the body of a table of bootstrap methods, which has to end with its data. -/
def readBootstrapMethods : Reader (Array BootstrapMethod) := do
  let methods ← table readBootstrapMethod
  if ← hasMore then malformed .bootstrapLength else return methods

/-- Reads `n` attributes of a class and keeps the bootstrap methods. Of several
tables the last one counts. -/
def readClassAttributes (pool : ConstantPool) : (n : Nat) →
    (methods : Array BootstrapMethod) → Reader (Array BootstrapMethod)
  | 0, methods => pure methods
  | n + 1, methods => do
    let (name, body) ← readAttribute pool
    if name = bootstrapAttribute then
      readClassAttributes pool n (← readBody readBootstrapMethods body)
    else
      readClassAttributes pool n methods

/-- Reads a class file. -/
def read : Reader ClassFile := do
  let found ← int UInt32
  if found ≠ magic then
    throw (.magic found)
  else
    let minor ← int UInt16
    let major ← int UInt16
    let pool ← ConstantPool.read
    let access ← readAccess
    let thisClass ← int UInt16
    let superClass ← int UInt16
    let interfaces ← table (int UInt16)
    let fields ← table readField
    let methods ← table (readMethod pool)
    let bootstrapMethods ← readClassAttributes pool (← int UInt16).toNat #[]
    return { minor, major, pool, access, thisClass, superClass, interfaces, fields, methods,
             bootstrapMethods }

/-- The class file that a byte string starts with. -/
def ofBytes (bytes : Bytes) : Except Fault ClassFile := read.run bytes

end ClassFile

end Backref
