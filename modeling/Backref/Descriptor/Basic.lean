/-!
# Descriptors

The types that a class file spells as descriptors: a field type is a
primitive or a class under some number of array layers, and a method's
descriptor lists the types of its parameters and its return type. `render`
spells each of them.
-/

namespace Backref

-- Sums are those of the core library, whatever hierarchy of algebra is in scope.
attribute [local instance (high)] Zero.ofOfNat0

/-- The types with a one-letter spelling. `void` is the type of no value: it
stands only as a return type. -/
inductive Primitive
  | byte | char | double | float | int | long | short | boolean | void
  deriving DecidableEq, Repr

namespace Primitive

/-- All types with a one-letter spelling. -/
def all : List Primitive :=
  [byte, char, double, float, int, long, short, boolean, void]

/-- The letter that spells the type. -/
def letter : Primitive → Char
  | byte => 'B'
  | char => 'C'
  | double => 'D'
  | float => 'F'
  | int => 'I'
  | long => 'J'
  | short => 'S'
  | boolean => 'Z'
  | void => 'V'

/-- The type that a letter spells. -/
def ofLetter? (c : Char) : Option Primitive :=
  all.find? fun p => p.letter == c

/-- The name of the type in words. -/
def name : Primitive → String
  | byte => "Byte"
  | char => "Char"
  | double => "Double"
  | float => "Float"
  | int => "Int"
  | long => "Long"
  | short => "Short"
  | boolean => "Boolean"
  | void => "Void"

/-- The letter of a primitive type is known. -/
theorem ofLetter?_letter (p : Primitive) : ofLetter? p.letter = some p := by
  cases p <;> rfl

/-- A known letter is the letter of its primitive type. -/
theorem letter_of_ofLetter? {c : Char} {p : Primitive} (h : ofLetter? c = some p) :
    p.letter = c := by
  simpa using List.find?_some h

end Primitive

/-- What is left of a type under its array layers. -/
inductive ElementType
  | primitive (p : Primitive)
  | object (name : String)
  deriving DecidableEq, Repr

/-- A type with its number of array layers. -/
structure FieldType where
  dimensions : Nat
  element : ElementType
  deriving DecidableEq, Repr

/-- The types of a method. -/
structure MethodType where
  parameters : List FieldType
  result : FieldType
  deriving DecidableEq, Repr

/-- The spelling of an element type. -/
def ElementType.render : ElementType → List Char
  | primitive p => [p.letter]
  | object name => 'L' :: name.toList ++ [';']

namespace FieldType

/-- The type of no value. -/
def void : FieldType := ⟨0, .primitive .void⟩

/-- The spelling of a type: one bracket for each array layer, then the element. -/
def render (t : FieldType) : List Char :=
  List.replicate t.dimensions '[' ++ t.element.render

/-- The class that a type mentions. Arrays count as their element. -/
def className? (t : FieldType) : Option String :=
  match t.element with
  | .object name => some name
  | .primitive _ => none

/-- The number of slots that an argument of this type takes: two for a plain
`long` or `double`, one for any other, arrays included. -/
def slots (t : FieldType) : Nat :=
  if t = ⟨0, .primitive .long⟩ ∨ t = ⟨0, .primitive .double⟩ then 2 else 1

end FieldType

namespace MethodType

/-- All types of a method: the parameters in order, then the result. -/
def types (m : MethodType) : List FieldType := m.parameters ++ [m.result]

/-- The classes that a method's types mention, in order, with repetitions. -/
def classNames (m : MethodType) : List String := m.types.filterMap FieldType.className?

/-- The spelling of a method's types: the parameters in parentheses, then the result. -/
def render (m : MethodType) : List Char :=
  '(' :: m.parameters.flatMap FieldType.render ++ ')' :: m.result.render

/-- The number of slots that the arguments take together. -/
def slots (m : MethodType) : Nat := (m.parameters.map FieldType.slots).sum

end MethodType

end Backref
