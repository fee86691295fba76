import Backref.Symbol.Basic

/-!
# Lambda expressions

A lambda expression is a dynamic call site whose bootstrap method is one of
the two that make objects of a functional interface. Its first three static
arguments are the type of the interface method, a handle of the
implementation, and the type of the interface method with its type arguments.
-/

namespace Backref.Lambda

/-- The class of the bootstrap methods. -/
def owner : String := "java/lang/invoke/LambdaMetafactory"

/-- The bootstrap method of lambda expressions without flags. -/
def plain : Member where
  owner := owner
  name := "metafactory"
  descriptor :=
    "(Ljava/lang/invoke/MethodHandles$Lookup;Ljava/lang/String;Ljava/lang/invoke/MethodType;" ++
      "Ljava/lang/invoke/MethodType;Ljava/lang/invoke/MethodHandle;" ++
      "Ljava/lang/invoke/MethodType;)Ljava/lang/invoke/CallSite;"

/-- The bootstrap method of lambda expressions with flags. -/
def flagged : Member where
  owner := owner
  name := "altMetafactory"
  descriptor :=
    "(Ljava/lang/invoke/MethodHandles$Lookup;Ljava/lang/String;Ljava/lang/invoke/MethodType;" ++
      "[Ljava/lang/Object;)Ljava/lang/invoke/CallSite;"

/-- Whether a bootstrap method makes objects of a functional interface. Its
descriptor does not matter. -/
def links (m : Member) : Bool :=
  m.owner == owner && (m.name == plain.name || m.name == flagged.name)

end Backref.Lambda
