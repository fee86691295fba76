import Backref.Assembly.PoolBuilder
import Backref.Bytecode.Opcode
import Backref.ClassFile.Basic
import Backref.Descriptor.Parse
import Backref.Handle
import Backref.Lambda

/-!
# Encoding code

A method's body is described by a list of emissions. Running an emission
interns the constants that it needs and appends an instruction to the code;
one that fails leaves the code as it was.
-/

namespace Backref

/-- A method handle with its member spelled out. The kind need not be one that is known. -/
structure HandleSpec where
  kind : UInt8
  member : Member
  deriving DecidableEq, Repr

/-- A static argument of a bootstrap method. -/
inductive StaticArgument
  | methodType (descriptor : String)
  | handle (h : HandleSpec)
  | ofClass (name : String)
  | string (text : String)
  | int (value : Int32)
  deriving DecidableEq, Repr

/-- What a lambda expression is made of: the name and the descriptor of the
call site, the interface method's descriptor, the implementation, and the
interface method's descriptor with its type arguments. -/
structure LambdaSpec where
  name : String
  descriptor : String
  sam : String
  implementation : HandleSpec
  instantiated : String
  deriving DecidableEq, Repr

/-- One thing to do to the body of a method. -/
inductive Emission
  /-- Appends an opcode with its operand bytes. -/
  | raw (opcode : UInt8) (operands : Bytes)
  | field (opcode : UInt8) (m : Member)
  | method (opcode : UInt8) (m : Member)
  | ofClass (opcode : UInt8) (name : String)
  | loadClass (name : String)
  | loadString (text : String)
  | loadInt (value : Int32)
  | callSite (name descriptor : String) (bootstrap : HandleSpec) (arguments : List StaticArgument)
  | lambda (l : LambdaSpec)
  /-- A lambda expression with flags. -/
  | flaggedLambda (l : LambdaSpec) (flags : Int32)
  | maxStack (slots : UInt16)
  | maxLocals (slots : UInt16)
  /-- Notes the length of the code so far. -/
  | mark
  deriving DecidableEq, Repr

/-- A method body under construction, with the pool and the bootstrap methods of its class. -/
structure Encoder where
  pool : PoolBuilder
  bootstraps : Array BootstrapMethod
  marks : Array Nat
  code : Array UInt8
  maxStack : UInt16
  maxLocals : UInt16

/-- A computation that appends to a method's body. -/
abbrev Encoding := EStateM Fault Encoder

namespace HandleSpec

/-- The kind of reference that a handle's member needs. -/
def memberKind (h : HandleSpec) : MemberKind :=
  if 1 ≤ h.kind ∧ h.kind ≤ 4 then .field
  else if h.kind = HandleKind.invokeInterface.tag then .interfaceMethod
  else .method

/-- The index of a method handle. -/
def intern (h : HandleSpec) : Interning UInt16 := do
  PoolBuilder.methodHandle h.kind (← PoolBuilder.memberRef h.memberKind h.member)

end HandleSpec

namespace StaticArgument

/-- The index of a static argument. -/
def intern : StaticArgument → Interning UInt16
  | methodType descriptor => PoolBuilder.methodType descriptor
  | handle h => h.intern
  | ofClass name => PoolBuilder.classInfo name
  | string text => PoolBuilder.string text
  | int value => PoolBuilder.integer value

/-- The indices of static arguments in order, behind those in `seen`. -/
def internAll : List StaticArgument → (seen : Array UInt16) → Interning (Array UInt16)
  | [], seen => pure seen
  | a :: as, seen => do internAll as (seen.push (← a.intern))

end StaticArgument

/-- The number of slots that the arguments of a method take. -/
def MethodType.argumentSlots (descriptor : String) : Except Fault Nat := do
  let slots := (← MethodType.parse descriptor).slots
  if slots ≤ countLimit then return slots
  else throw (.malformed (.descriptorTooWide descriptor))

namespace LambdaSpec

/-- The handle of a bootstrap method. -/
def bootstrap (m : Member) : HandleSpec := ⟨HandleKind.invokeStatic.tag, m⟩

/-- The static arguments that say what a lambda expression is made of. -/
def arguments (l : LambdaSpec) : List StaticArgument :=
  [.methodType l.sam, .handle l.implementation, .methodType l.instantiated]

end LambdaSpec

namespace Encoder

/-- The length of the code so far. -/
def offset (e : Encoder) : Nat := e.code.size

/-- Asks the pool of the class for a constant. -/
def onPool {α : Type} (x : Interning α) : Encoding α :=
  fun ⟨pool, bootstraps, marks, code, maxStack, maxLocals⟩ =>
    match x pool with
    | .ok a pool => .ok a ⟨pool, bootstraps, marks, code, maxStack, maxLocals⟩
    | .error fault pool => .error fault ⟨pool, bootstraps, marks, code, maxStack, maxLocals⟩

/-- Appends an opcode with its operand bytes. A method's code has at most 65535 bytes. -/
def append (opcode : UInt8) (operands : Bytes) : Encoding Unit :=
  fun ⟨pool, bootstraps, marks, code, maxStack, maxLocals⟩ =>
    if code.size + 1 + operands.length ≤ countLimit then
      .ok () ⟨pool, bootstraps, marks, code.push opcode ++ operands, maxStack, maxLocals⟩
    else
      .error (.malformed .codeTooLong) ⟨pool, bootstraps, marks, code, maxStack, maxLocals⟩

/-- Appends an instruction that refers to a constant. -/
def appendIndexed (opcode : UInt8) (index : UInt16) : Encoding Unit :=
  append opcode (FixedWidth.encode index)

/-- Appends an instruction that loads a constant, in the short form where the index allows it. -/
def appendLoad (index : UInt16) : Encoding Unit :=
  if index ≤ 255 then append Opcode.ldc [index.toUInt8] else appendIndexed Opcode.ldcWide index

/-- Appends the invocation of an interface method, which carries the number of
argument slots with the receiver's. The receiver is counted in 16 bits, so the
count of 65535 slots and the receiver's is 0. -/
def appendInterfaceCall (m : Member) : Encoding Unit := do
  let slots ← MonadExcept.ofExcept (MethodType.argumentSlots m.descriptor)
  let count := UInt16.ofNat slots + 1
  if count ≤ 255 then
    let index ← onPool (PoolBuilder.memberRef .interfaceMethod m)
    append Opcode.invokeInterface (FixedWidth.encode index ++ [count.toUInt8, 0])
  else
    throw (.malformed (.tooManyArguments count))

/-- The number of a bootstrap method, which is added if it is new. -/
def bootstrapNumber (b : BootstrapMethod) : Encoding Nat :=
  fun ⟨pool, bootstraps, marks, code, maxStack, maxLocals⟩ =>
    match bootstraps.idxOf? b with
    | some number => .ok number ⟨pool, bootstraps, marks, code, maxStack, maxLocals⟩
    | none =>
      let number := bootstraps.size
      .ok number ⟨pool, bootstraps.push b, marks, code, maxStack, maxLocals⟩

/-- Appends a dynamic call. -/
def appendCallSite (name descriptor : String) (bootstrap : HandleSpec)
    (arguments : List StaticArgument) : Encoding Unit := do
  let handle ← onPool bootstrap.intern
  let arguments ← onPool (StaticArgument.internAll arguments #[])
  let number ← bootstrapNumber ⟨handle, arguments⟩
  if number ≤ countLimit then
    let index ← onPool (PoolBuilder.invokeDynamic (UInt16.ofNat number) name descriptor)
    append Opcode.invokeDynamic (FixedWidth.encode index ++ [0, 0])
  else
    throw (.malformed .tooManyBootstrapMethods)

end Encoder

namespace Emission

open Encoder

/-- Does one thing to the body of a method. -/
def run : Emission → Encoding Unit
  | raw opcode operands => append opcode operands
  | field opcode m => do appendIndexed opcode (← onPool (PoolBuilder.memberRef .field m))
  | method opcode m =>
    if opcode = Opcode.invokeInterface then appendInterfaceCall m
    else do appendIndexed opcode (← onPool (PoolBuilder.memberRef .method m))
  | ofClass opcode name => do appendIndexed opcode (← onPool (PoolBuilder.classInfo name))
  | loadClass name => do appendLoad (← onPool (PoolBuilder.classInfo name))
  | loadString text => do appendLoad (← onPool (PoolBuilder.string text))
  | loadInt value => do appendLoad (← onPool (PoolBuilder.integer value))
  | callSite name descriptor bootstrap arguments =>
    appendCallSite name descriptor bootstrap arguments
  | lambda l => appendCallSite l.name l.descriptor (LambdaSpec.bootstrap Lambda.plain) l.arguments
  | flaggedLambda l flags =>
    appendCallSite l.name l.descriptor (LambdaSpec.bootstrap Lambda.flagged)
      (l.arguments ++ [.int flags])
  | maxStack slots => modify fun e => { e with maxStack := slots }
  | maxLocals slots => modify fun e => { e with maxLocals := slots }
  | mark => modify fun e => { e with marks := e.marks.push e.code.size }

/-- Does several things to the body of a method, up to the first that fails. -/
def runAll : List Emission → Encoding Unit
  | [] => pure ()
  | e :: es => do
    run e
    runAll es

end Emission

end Backref
