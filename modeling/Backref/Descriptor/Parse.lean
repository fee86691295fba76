import Backref.Descriptor.Basic
import Backref.Fault

/-!
# Reading descriptors

A reader takes the characters that lie ahead together with their position,
which counts bytes of UTF-8, and yields what it read with the rest and its
position. A fault carries the position at which reading stopped.
-/

namespace Backref

-- Sums are those of the core library, whatever hierarchy of algebra is in scope.
attribute [local instance (high)] Zero.ofOfNat0

namespace Descriptor

/-- Why reading stopped, and where. -/
abbrev Stop := DescriptorFault × Nat

/-- What a reader read, and the characters behind it with their position. -/
structure Step (α : Type) where
  value : α
  pos : Nat
  rest : List Char

/-- The greatest number of array layers. -/
def maxDimensions : Nat := 255

/-- The number of bytes that characters take in UTF-8. -/
def byteLength (cs : List Char) : Nat := (cs.map Char.utf8Size).sum

/-- Reads an element type whose first character is `c`. -/
def readElement (pos : Nat) (c : Char) (rest : List Char) : Except Stop (Step ElementType) :=
  if c = 'L' then
    let name := rest.takeWhile (· != ';')
    match rest.dropWhile (· != ';') with
    | [] => .error (.unterminatedName, pos + 1)
    | _ :: rest =>
      if name.isEmpty then .error (.emptyName, pos + 1)
      else .ok ⟨.object (String.ofList name), pos + byteLength name + 2, rest⟩
  else if c = 'V' then
    .error (.voidType, pos + 1)
  else
    match Primitive.ofLetter? c with
    | some p => .ok ⟨.primitive p, pos + 1, rest⟩
    | none => .error (.unknownType, pos + 1)

/-- Reads a field type under `dimensions` array layers. -/
def readType (dimensions pos : Nat) : List Char → Except Stop (Step FieldType)
  | [] => .error (.unexpectedEnd, pos)
  | c :: rest =>
    if c = '[' then
      if dimensions < maxDimensions then readType (dimensions + 1) (pos + 1) rest
      else .error (.tooManyDimensions, pos + 1)
    else
      match readElement pos c rest with
      | .ok step => .ok ⟨⟨dimensions, step.value⟩, step.pos, step.rest⟩
      | .error stop => .error stop

/-- Reads parameter types up to the closing parenthesis, behind those in
`seen`. Each takes a character, so `fuel` characters' worth is enough. -/
def readParameters : (fuel : Nat) → (seen : Array FieldType) → (pos : Nat) → List Char →
    Except Stop (Step (Array FieldType))
  | 0, _, pos, _ => .error (.unterminatedParameterList, pos)
  | fuel + 1, seen, pos, cs =>
    match cs with
    | [] => .error (.unterminatedParameterList, pos)
    | c :: rest =>
      if c = ')' then
        .ok ⟨seen, pos + 1, rest⟩
      else
        match readType 0 pos (c :: rest) with
        | .ok step => readParameters fuel (seen.push step.value) step.pos step.rest
        | .error stop => .error stop

/-- Reads a return type. -/
def readResult (pos : Nat) : List Char → Except Stop (Step FieldType)
  | [] => .error (.unexpectedEnd, pos)
  | c :: rest =>
    if c = 'V' then .ok ⟨.void, pos + 1, rest⟩ else readType 0 pos (c :: rest)

/-- Reads the types of a method. -/
def readMethod : List Char → Except Stop (Step MethodType)
  | [] => .error (.unexpectedEnd, 0)
  | c :: rest =>
    if c = '(' then
      match readParameters (rest.length + 1) #[] 1 rest with
      | .error stop => .error stop
      | .ok parameters =>
        match readResult parameters.pos parameters.rest with
        | .error stop => .error stop
        | .ok result => .ok ⟨⟨parameters.value.toList, result.value⟩, result.pos, result.rest⟩
    else .error (.noParameterList, 1)

/-- Accepts what was read if it is the whole of a text. -/
def whole {α : Type} (text : String) : Except Stop (Step α) → Except Fault α
  | .error (reason, pos) => .error (.descriptor reason pos text)
  | .ok ⟨value, pos, rest⟩ =>
    if rest.isEmpty then .ok value else .error (.descriptor .trailingText pos text)

end Descriptor

/-- The field type that a descriptor spells. -/
def FieldType.parse (text : String) : Except Fault FieldType :=
  Descriptor.whole text (Descriptor.readType 0 0 text.toList)

/-- The types that a method's descriptor spells. -/
def MethodType.parse (text : String) : Except Fault MethodType :=
  Descriptor.whole text (Descriptor.readMethod text.toList)

/-- The type that the operand of a class instruction names: an array type by
its descriptor, a class by its bare name. -/
def FieldType.ofOperand (name : String) : Except Fault FieldType :=
  match name.toList with
  | [] => .error .emptyClassName
  | c :: _ => if c = '[' then FieldType.parse name else .ok ⟨0, .object name⟩

end Backref
