import Backref.Assembly.Encoder
import Backref.ClassFile.Encode

/-!
# Assembling classes

A class is described by its names, its fields and its methods with their
bodies. Assembling it runs the bodies in order, which fills the pool and the
table of bootstrap methods, then interns the names of the class and of its
members, and writes the result.
-/

namespace Backref

/-- A field to assemble. -/
structure FieldSpec where
  access : AccessFlags
  name : String
  descriptor : String
  deriving DecidableEq, Repr

/-- A method to assemble. An abstract one has no body. -/
structure MethodSpec where
  access : AccessFlags
  name : String
  descriptor : String
  body : Option (List Emission)
  deriving DecidableEq, Repr

/-- A class to assemble. -/
structure ClassSpec where
  name : String
  access : AccessFlags := .publicSuper
  major : UInt16 := 52
  minor : UInt16 := 0
  superName : Option String := some "java/lang/Object"
  interfaces : List String := []
  fields : List FieldSpec := []
  methods : List MethodSpec := []
  deriving DecidableEq, Repr

/-- A class under construction: what its methods' bodies have added so far. -/
structure Assembler where
  pool : PoolBuilder
  bootstraps : Array BootstrapMethod
  marks : Array Nat
  /-- The code of the methods, in order. -/
  bodies : Array (Option Code)

/-- A computation that adds to a class. -/
abbrev Assembling := EStateM Fault Assembler

namespace Assembler

/-- A class without methods. -/
def empty : Assembler := ⟨.empty, #[], #[], #[]⟩

/-- The stack size of a method that sets none. -/
def defaultMaxStack : UInt16 := 8

/-- The number of local variables of a method that sets none: one for each
argument slot and one for the receiver, but never more than fit. -/
def defaultMaxLocals (access : AccessFlags) (argumentSlots : Nat) : UInt16 :=
  UInt16.ofNat (min (argumentSlots + if access.isStatic then 0 else 1) countLimit)

/-- Runs the body of a method. -/
def addBody (m : MethodSpec) (argumentSlots : Nat) (body : Encoding Unit) : Assembling Unit :=
  fun ⟨pool, bootstraps, marks, bodies⟩ =>
    let encoder : Encoder :=
      ⟨pool, bootstraps, marks, #[], defaultMaxStack, defaultMaxLocals m.access argumentSlots⟩
    match body encoder with
    | .error fault ⟨pool, bootstraps, marks, _, _, _⟩ =>
      .error fault ⟨pool, bootstraps, marks, bodies⟩
    | .ok _ ⟨pool, bootstraps, marks, code, maxStack, maxLocals⟩ =>
      if code.isEmpty then
        .error (.malformed (.noCode m.name m.descriptor)) ⟨pool, bootstraps, marks, bodies⟩
      else
        .ok () ⟨pool, bootstraps, marks,
          bodies.push (some ⟨maxStack, maxLocals, code.toList, #[]⟩)⟩

/-- Adds a method. -/
def addMethod (m : MethodSpec) : Assembling Unit := do
  match m.body with
  | none => modify fun a => { a with bodies := a.bodies.push none }
  | some emissions =>
    let slots ← MonadExcept.ofExcept (MethodType.argumentSlots m.descriptor)
    addBody m slots (Emission.runAll emissions)

/-- Adds methods in order. -/
def addMethods : List MethodSpec → Assembling Unit
  | [] => pure ()
  | m :: ms => do
    addMethod m
    addMethods ms

/-- Asks for constants one after the other, and collects what is answered behind `seen`. -/
def internAllOnto {α β : Type} (intern : α → Interning β) : List α → (seen : Array β) →
    Interning (Array β)
  | [], seen => pure seen
  | a :: as, seen => do internAllOnto intern as (seen.push (← intern a))

/-- Asks for constants one after the other. -/
def internAll {α β : Type} (intern : α → Interning β) (as : List α) : Interning (Array β) :=
  internAllOnto intern as #[]

/-- The index of the superclass, 0 for none. -/
def internSuper : Option String → Interning UInt16
  | none => pure 0
  | some name => PoolBuilder.classInfo name

/-- Interns the name and the descriptor of a field. -/
def internField (f : FieldSpec) : Interning Field := do
  let name ← PoolBuilder.utf8 f.name
  let descriptor ← PoolBuilder.utf8 f.descriptor
  return ⟨f.access, name, descriptor⟩

/-- Interns the name and the descriptor of a method, whose code is known. -/
def internMethod (m : MethodSpec × Option Code) : Interning Method := do
  let name ← PoolBuilder.utf8 m.1.name
  let descriptor ← PoolBuilder.utf8 m.1.descriptor
  return ⟨m.1.access, name, descriptor, m.2⟩

/-- The index of the name of an attribute that a class may need. -/
def internAttribute (needed : Bool) (name : String) : Interning UInt16 :=
  if needed then PoolBuilder.utf8 name else pure 0

/-- The parts of a class file whose pool is still growing. -/
structure Links where
  thisClass : UInt16
  superClass : UInt16
  interfaces : Array UInt16
  fields : Array Field
  methods : Array Method
  codeName : UInt16
  bootstrapName : UInt16

/-- Interns the names of a class and of its members. -/
def internLinks (spec : ClassSpec) (bodies : Array (Option Code)) (hasBootstraps : Bool) :
    Interning Links := do
  let thisClass ← PoolBuilder.classInfo spec.name
  let superClass ← internSuper spec.superName
  let interfaces ← internAll PoolBuilder.classInfo spec.interfaces
  let fields ← internAll internField spec.fields
  let methods ← internAll internMethod (spec.methods.zip bodies.toList)
  let codeName ← internAttribute (bodies.any Option.isSome) ClassFile.codeAttribute
  let bootstrapName ← internAttribute hasBootstraps ClassFile.bootstrapAttribute
  return { thisClass, superClass, interfaces, fields, methods, codeName, bootstrapName }

/-- The written form of a class whose methods have been added. -/
def finish (spec : ClassSpec) (a : Assembler) : Except Fault Bytes :=
  match internLinks spec a.bodies (!a.bootstraps.isEmpty) a.pool with
  | .error fault _ => .error fault
  | .ok links pool =>
    ClassFile.encode links.codeName links.bootstrapName
      { minor := spec.minor
        major := spec.major
        pool := pool.pool
        access := spec.access
        thisClass := links.thisClass
        superClass := links.superClass
        interfaces := links.interfaces
        fields := links.fields
        methods := links.methods
        bootstrapMethods := a.bootstraps }

end Assembler

/-- A class file, and the code lengths that were noted on the way to it. -/
structure Assembly where
  outcome : Except Fault Bytes
  marks : Array Nat

namespace ClassSpec

/-- Assembles a class. -/
def assembly (spec : ClassSpec) : Assembly :=
  match Assembler.addMethods spec.methods .empty with
  | .ok _ a => ⟨a.finish spec, a.marks⟩
  | .error fault a => ⟨.error fault, a.marks⟩

/-- The class file of a class. -/
def assemble (spec : ClassSpec) : Except Fault Bytes := spec.assembly.outcome

end ClassSpec

end Backref
