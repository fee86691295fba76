import Backref.Fault

/-!
# Kinds of method handle

A method handle says what it does with the member that it names. Four kinds
access a field, the other five invoke a method.
-/

namespace Backref

/-- What a method handle does with its member. -/
inductive HandleKind
  | getField | getStatic | putField | putStatic
  | invokeVirtual | invokeStatic | invokeSpecial | newInvokeSpecial | invokeInterface
  deriving DecidableEq, Repr

namespace HandleKind

/-- All kinds, in the order of their tags. -/
def all : List HandleKind :=
  [getField, getStatic, putField, putStatic, invokeVirtual, invokeStatic, invokeSpecial,
    newInvokeSpecial, invokeInterface]

/-- The number of a kind. -/
def tag : HandleKind → UInt8
  | getField => 1
  | getStatic => 2
  | putField => 3
  | putStatic => 4
  | invokeVirtual => 5
  | invokeStatic => 6
  | invokeSpecial => 7
  | newInvokeSpecial => 8
  | invokeInterface => 9

/-- The name of a kind in words. -/
def name : HandleKind → String
  | getField => "getField"
  | getStatic => "getStatic"
  | putField => "putField"
  | putStatic => "putStatic"
  | invokeVirtual => "invokeVirtual"
  | invokeStatic => "invokeStatic"
  | invokeSpecial => "invokeSpecial"
  | newInvokeSpecial => "newInvokeSpecial"
  | invokeInterface => "invokeInterface"

/-- The kind with a number. -/
def ofTag (tag : UInt8) : Except Fault HandleKind :=
  match all.find? fun k => k.tag == tag with
  | some kind => .ok kind
  | none => .error (.handleKind tag)

/-- Whether the member is a field. -/
def isField : HandleKind → Bool
  | getField | getStatic | putField | putStatic => true
  | _ => false

end HandleKind

end Backref
