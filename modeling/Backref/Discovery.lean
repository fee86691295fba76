import Backref.Bytecode.Decode
import Backref.ClassFile.Read
import Backref.Descriptor.Parse
import Backref.Handle
import Backref.Lambda

/-!
# Discovering references

Which symbols a class refers to, and from which of its members. The members
are visited in the order of the file, fields first; for each member its
descriptor comes before its code, and the code is visited instruction by
instruction. References found before a fault are kept.

What counts as a reference:

* every class in a field's or method's descriptor;
* the field of a field access, the method of an invocation, and with a
  constructor the class that it constructs;
* the class of a class constant that is loaded, of a cast and of a type test;
* behind a lambda expression, its implementation and the classes in the
  descriptors of the call site and of the interface method.

An array type counts as its element type.
-/

namespace Backref

/-- A computation that notes references as it finds them. -/
abbrev Discovery := EStateM Fault (Array Reference)

namespace Discovery

open MonadExcept (ofExcept)

/-- Notes a reference. -/
def note (user target : Symbol) : Discovery Unit :=
  modify fun found => found.push ⟨target, user⟩

/-- Notes references to classes, in order. -/
def noteClasses (user : Symbol) : List String → Discovery Unit
  | [] => pure ()
  | name :: names => do
    note user (.ofClass name)
    noteClasses user names

/-- Notes a reference to a field. -/
def noteField (user : Symbol) (m : Member) : Discovery Unit :=
  note user (.field m)

/-- Notes a reference to a method, and to the class that a constructor constructs. -/
def noteMethod (user : Symbol) (m : Member) : Discovery Unit := do
  let target := Symbol.method m
  note user target
  if target.isConstructor then note user (.ofClass m.owner)

/-- Notes the classes in a method's descriptor. -/
def noteMethodType (user : Symbol) (descriptor : String) : Discovery Unit := do
  noteClasses user (← ofExcept (MethodType.parse descriptor)).classNames

/-- Notes the class that a field's descriptor mentions. -/
def noteFieldType (user : Symbol) (descriptor : String) : Discovery Unit := do
  noteClasses user (← ofExcept (FieldType.parse descriptor)).className?.toList

/-- Notes the class that the operand of a class instruction mentions. -/
def noteOperand (user : Symbol) (name : String) : Discovery Unit := do
  noteClasses user (← ofExcept (FieldType.ofOperand name)).className?.toList

/-- What a lambda expression refers to. -/
structure LambdaTargets where
  implementation : HandleRef
  /-- The descriptors of the call site, of the interface method, and of the
  interface method with its type arguments. -/
  descriptors : List String

/-- The lambda expression at a dynamic call site, if it is one. -/
def lambda? (c : ClassFile) (index : UInt16) : Except Fault (Option LambdaTargets) := do
  let site ← c.pool.callSite index
  let bootstrap ← c.bootstrapMethod site.bootstrap
  let handle ← c.pool.methodHandle bootstrap.handle
  if Lambda.links handle.member.toMember then
    match bootstrap.arguments.toList with
    | sam :: implementation :: instantiated :: _ =>
      let sam ← c.pool.methodType sam
      let implementation ← c.pool.methodHandle implementation
      let instantiated ← c.pool.methodType instantiated
      return some ⟨implementation, [site.descriptor, sam, instantiated]⟩
    | arguments => throw (.malformed (.lambdaArguments index arguments.length))
  else
    return none

/-- Notes the classes in the descriptors of several methods, in order. -/
def noteMethodTypes (user : Symbol) : List String → Discovery Unit
  | [] => pure ()
  | d :: ds => do
    noteMethodType user d
    noteMethodTypes user ds

/-- Notes what a lambda expression refers to. -/
def noteLambda (user : Symbol) (l : LambdaTargets) : Discovery Unit := do
  let kind ← ofExcept (HandleKind.ofTag l.implementation.kind)
  if kind.isField then
    noteField user l.implementation.member.toMember
  else
    noteMethod user l.implementation.member.toMember
  noteMethodTypes user l.descriptors

/-- Notes what a dynamic call site refers to. -/
def noteCallSite (c : ClassFile) (user : Symbol) (index : UInt16) : Discovery Unit := do
  match ← ofExcept (lambda? c index) with
  | some l => noteLambda user l
  | none => pure ()

/-- Notes what a loaded constant refers to: constants other than classes, nothing. -/
def noteConstant (c : ClassFile) (user : Symbol) (index : UInt16) : Discovery Unit := do
  match ← ofExcept (c.pool.get index) with
  | .classInfo name => do noteOperand user (← ofExcept (c.pool.utf8 name))
  | _ => pure ()

/-- Notes what an instruction refers to. -/
def noteInstruction (lambdas : Bool) (c : ClassFile) (user : Symbol) (i : Instruction) :
    Discovery Unit := do
  match i.constantIndex? with
  | none => pure ()
  | some index =>
    if Opcode.accessesField i.opcode then
      noteField user (← ofExcept (c.pool.memberRef index)).toMember
    else if Opcode.invokesMethod i.opcode then
      noteMethod user (← ofExcept (c.pool.memberRef index)).toMember
    else if Opcode.loadsConstant i.opcode then
      noteConstant c user index
    else if Opcode.testsClass i.opcode then
      noteOperand user (← ofExcept (c.pool.className index))
    else if i.opcode == Opcode.invokeDynamic && lambdas then
      noteCallSite c user index
    else
      pure ()

/-- Notes what the items of a code array refer to. -/
def noteItems (lambdas : Bool) (c : ClassFile) (user : Symbol) :
    List (Except Fault Instruction) → Discovery Unit
  | [] => pure ()
  | item :: items => do
    noteInstruction lambdas c user (← ofExcept item)
    noteItems lambdas c user items

/-- The member of a class with given indices of its name and descriptor. -/
def member (c : ClassFile) (owner : String) (name descriptor : UInt16) : Except Fault Member := do
  let name ← c.pool.utf8 name
  let descriptor ← c.pool.utf8 descriptor
  return ⟨owner, name, descriptor⟩

/-- Notes what a field refers to. -/
def visitField (c : ClassFile) (owner : String) (f : Field) : Discovery Unit := do
  let m ← ofExcept (member c owner f.name f.descriptor)
  noteFieldType (.field m) m.descriptor

/-- Notes what a method refers to. -/
def visitMethod (lambdas : Bool) (c : ClassFile) (owner : String) (m : Method) :
    Discovery Unit := do
  let declared ← ofExcept (member c owner m.name m.descriptor)
  let user := Symbol.method declared
  noteMethodType user declared.descriptor
  match m.code with
  | none => pure ()
  | some code => noteItems lambdas c user (Walk.items code.bytes).toList

/-- Visits the entries of a table in order. -/
def visitAll {α : Type} (visit : α → Discovery Unit) : List α → Discovery Unit
  | [] => pure ()
  | a :: as => do
    visit a
    visitAll visit as

/-- Notes what the members of a class refer to. -/
def visitClass (lambdas : Bool) (c : ClassFile) : Discovery Unit := do
  let owner ← ofExcept c.name
  visitAll (visitField c owner) c.fields.toList
  visitAll (visitMethod lambdas c owner) c.methods.toList

end Discovery

/-- The references found in a class, and the fault that ended the search if
it did not reach the end. -/
structure Findings where
  references : Array Reference
  fault : Option Fault
  deriving DecidableEq, Repr

namespace Findings

/-- The outcome of a search. -/
def ofResult : EStateM.Result Fault (Array Reference) Unit → Findings
  | .ok _ found => ⟨found, none⟩
  | .error fault found => ⟨found, some fault⟩

/-- What the members of a class refer to. -/
def ofClass (lambdas : Bool) (c : ClassFile) : Findings :=
  ofResult (Discovery.visitClass lambdas c #[])

/-- What the members of the class in a byte string refer to. -/
def ofBytes (lambdas : Bool) (bytes : Bytes) : Findings :=
  match ClassFile.ofBytes bytes with
  | .ok c => ofClass lambdas c
  | .error fault => ⟨#[], some fault⟩

end Findings

end Backref
