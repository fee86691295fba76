import Backref.Symbol.Basic

/-!
# The order of symbols

Classes come before fields and fields before methods; among themselves,
members are ordered by owner, then name, then descriptor. Strings compare
character by character.
-/

namespace Backref

/-- Members are ordered by owner, then name, then descriptor. -/
instance : Ord Member where
  compare a b :=
    (compare a.owner b.owner).then ((compare a.name b.name).then
      (compare a.descriptor b.descriptor))

/-- Classes come first, methods last. -/
instance : Ord Symbol where
  compare
    | .ofClass a, .ofClass b => compare a b
    | .ofClass _, _ => .lt
    | .field _, .ofClass _ => .gt
    | .field a, .field b => compare a b
    | .field _, .method _ => .lt
    | .method a, .method b => compare a b
    | .method _, _ => .gt

/-- The symbols in order. -/
def Symbol.sort (symbols : List Symbol) : List Symbol :=
  symbols.mergeSort fun a b => (compare a b).isLE

end Backref
