import Backref.Constant.Pool

/-!
# Symbols

What a reference refers to and where it is made: a class, a field or a
method. A symbol is written as its usage string, a tag that tells the three
apart and the reference key behind it.
-/

namespace Backref

/-- A class, a field or a method. -/
inductive Symbol
  | ofClass (name : String)
  | field (member : Member)
  | method (member : Member)
  deriving DecidableEq, Repr

/-- A symbol and a member in whose declaration or code it is mentioned. -/
structure Reference where
  target : Symbol
  user : Symbol
  deriving DecidableEq, Repr

/-- Owner, name and descriptor with colons between them. -/
def Member.referenceKey (m : Member) : String :=
  m.owner ++ ":" ++ m.name ++ ":" ++ m.descriptor

namespace Symbol

/-- The name of the methods that construct objects. -/
def constructorName : String := "<init>"

/-- The member that a symbol is, unless it is a class. -/
def member? : Symbol → Option Member
  | ofClass _ => none
  | field m | method m => some m

/-- The class itself, or the class of the member. -/
def ownerClass : Symbol → String
  | ofClass name => name
  | field m | method m => m.owner

/-- The symbol without its tag. -/
def referenceKey : Symbol → String
  | ofClass name => name
  | field m | method m => m.referenceKey

/-- The letter that tells classes, fields and methods apart. -/
def tagLetter : Symbol → Char
  | ofClass _ => 's'
  | field _ => 'f'
  | method _ => 'm'

/-- The string under which a symbol is indexed. -/
def usage (s : Symbol) : String :=
  String.ofList [s.tagLetter, ':'] ++ s.referenceKey

/-- Whether the symbol is a method that constructs objects. -/
def isConstructor : Symbol → Bool
  | method m => m.name == constructorName
  | _ => false

/-- A short name: a class by its name, a field too, a method with its descriptor. -/
def displayName : Symbol → String
  | ofClass name => name
  | field m => m.name
  | method m => m.name ++ m.descriptor

/-- A usage string without its tag. Text that starts with no tag stays as it is. -/
def untagged (key : String) : String :=
  match key.toList with
  | 's' :: ':' :: rest | 'f' :: ':' :: rest | 'm' :: ':' :: rest => String.ofList rest
  | _ => key

end Symbol

end Backref
