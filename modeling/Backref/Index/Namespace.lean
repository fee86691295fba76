import Backref.Symbol.Basic

/-!
# Namespaces

An index keeps the symbols whose reference key starts with one of a list of
prefixes.
-/

namespace Backref

/-- The prefixes that a reference key may start with. -/
structure Namespaces where
  prefixes : List String
  deriving DecidableEq, Repr

namespace Namespaces

/-- The prefixes that an index keeps unless it is told otherwise. -/
def standard : Namespaces := ⟨["net/minecraft", "com/mojang"]⟩

/-- Every key starts with the empty prefix. -/
def unfiltered : Namespaces := ⟨[""]⟩

/-- Whether an index keeps a usage string. -/
def accepts (n : Namespaces) (key : String) : Bool :=
  let name := (Symbol.untagged key).toList
  n.prefixes.any fun start => start.toList.isPrefixOf name

end Namespaces

/-- What an index keeps. -/
structure IndexConfig where
  namespaces : Namespaces := .standard
  /-- Whether references made by lambda expressions are followed. -/
  lambdas : Bool := true
  deriving DecidableEq, Repr

end Backref
