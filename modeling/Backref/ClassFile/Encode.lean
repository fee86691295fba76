import Backref.ClassFile.Basic

/-!
# The written form of a class file

The parts of a class file in the order in which they are read. The names of
the two attributes are given by their pool indices. A table with more entries
than its 16-bit count can hold has no written form.
-/

namespace Backref

namespace ClassFile

/-- A 16-bit count of the entries of a table. -/
def encodeCount (count : Nat) (fault : Malformation) : Except Fault Bytes :=
  if count ≤ countLimit then .ok (FixedWidth.encode (UInt16.ofNat count))
  else .error (.malformed fault)

/-- An attribute: the index of its name, its length in 32 bits, and its body. -/
def encodeAttribute (name : UInt16) (body : Bytes) : Except Fault Bytes :=
  if body.length < UInt32.size then
    .ok (FixedWidth.encode name ++ FixedWidth.encode (UInt32.ofNat body.length) ++ body)
  else .error (.malformed (.attributeTooLong body.length))

/-- The written forms of several things in order, behind those in `seen`. -/
def encodeAllOnto {α : Type} (encode : α → Except Fault Bytes) (seen : Array UInt8) :
    List α → Except Fault (Array UInt8)
  | [] => .ok seen
  | a :: as =>
    match encode a with
    | .ok bytes => encodeAllOnto encode (seen ++ bytes) as
    | .error fault => .error fault

/-- The written forms of several things in order. -/
def encodeAll {α : Type} (encode : α → Except Fault Bytes) (as : List α) : Except Fault Bytes :=
  Array.toList <$> encodeAllOnto encode #[] as

/-- An entry of the exception table. -/
def encodeHandler (h : ExceptionHandler) : Bytes :=
  FixedWidth.encode h.start ++ FixedWidth.encode h.stop ++ FixedWidth.encode h.handler ++
    FixedWidth.encode h.catchType

/-- The body of a code attribute, without attributes of its own. -/
def encodeCode (c : Code) : Bytes :=
  FixedWidth.encode c.maxStack ++ FixedWidth.encode c.maxLocals ++
    FixedWidth.encode (UInt32.ofNat c.bytes.length) ++
    (c.bytes ++ (FixedWidth.encode (UInt16.ofNat c.handlers.size) ++
      (c.handlers.toList.flatMap encodeHandler ++ FixedWidth.encode (0 : UInt16))))

/-- A field without attributes. -/
def encodeField (f : Field) : Bytes :=
  FixedWidth.encode f.access.bits ++ FixedWidth.encode f.name ++
    FixedWidth.encode f.descriptor ++ FixedWidth.encode (0 : UInt16)

/-- A method with its code as its only attribute. -/
def encodeMethod (codeName : UInt16) (m : Method) : Except Fault Bytes := do
  let head := FixedWidth.encode m.access.bits ++ FixedWidth.encode m.name ++
    FixedWidth.encode m.descriptor
  match m.code with
  | none => return head ++ FixedWidth.encode (0 : UInt16)
  | some c =>
    return head ++ FixedWidth.encode (1 : UInt16) ++ (← encodeAttribute codeName (encodeCode c))

/-- A bootstrap method: its handle, then a counted list of arguments. -/
def encodeBootstrapMethod (b : BootstrapMethod) : Except Fault Bytes := do
  let count ← encodeCount b.arguments.size .tooManyBootstrapArguments
  return FixedWidth.encode b.handle ++ count ++ b.arguments.toList.flatMap FixedWidth.encode

/-- The attributes of a class: the bootstrap methods, if there are any. -/
def encodeAttributes (bootstrapName : UInt16) (methods : Array BootstrapMethod) :
    Except Fault Bytes :=
  if methods.isEmpty then
    .ok (FixedWidth.encode (0 : UInt16))
  else do
    let count ← encodeCount methods.size .tooManyBootstrapMethods
    let entries ← encodeAll encodeBootstrapMethod methods.toList
    return FixedWidth.encode (1 : UInt16) ++ (← encodeAttribute bootstrapName (count ++ entries))

/-- The written form of a class file, given the indices of the names of its attributes. -/
def encode (codeName bootstrapName : UInt16) (c : ClassFile) : Except Fault Bytes := do
  let head := FixedWidth.encode magic ++ FixedWidth.encode c.minor ++ FixedWidth.encode c.major
  let links := FixedWidth.encode c.access.bits ++ FixedWidth.encode c.thisClass ++
    FixedWidth.encode c.superClass
  let interfaceCount ← encodeCount c.interfaces.size (.tooManyEntries .interfaces c.interfaces.size)
  let fieldCount ← encodeCount c.fields.size (.tooManyEntries .fields c.fields.size)
  let methodCount ← encodeCount c.methods.size (.tooManyEntries .methods c.methods.size)
  let methods ← encodeAll (encodeMethod codeName) c.methods.toList
  let attributes ← encodeAttributes bootstrapName c.bootstrapMethods
  return head ++ (c.pool.encode ++ (links ++
    (interfaceCount ++ (c.interfaces.toList.flatMap FixedWidth.encode ++
      (fieldCount ++ (c.fields.toList.flatMap encodeField ++
        (methodCount ++ (methods ++ attributes))))))))

end ClassFile

end Backref
