import Backref.Constant.Basic
import Backref.Decimal.Layout
import Backref.Text.Quoted

/-!
# The text of a constant

Messages that name a constant of the wrong kind show it with the names of
its parts.
-/

namespace Backref

/-- Numbers are written positionally from `1e-4` up to but not including
`1e16`, with a decimal point in any case. -/
def Constant.numberLayout : DecimalLayout where
  positionalFrom := -4
  positionalBelow := 16
  wholeSuffix := ".0"
  exponentMark := "e"
  nan := "NaN"
  infinity := "inf"

namespace Constant

/-- A constant's kind with its one value in parentheses. -/
private def withValue (k : Kind) (value : String) : String :=
  k.name ++ "(" ++ value ++ ")"

/-- A constant's kind with its named parts in braces. -/
private def withParts (k : Kind) (parts : List (String × Nat)) : String :=
  let shown := parts.map fun (name, value) => name ++ ": " ++ toString value
  k.name ++ " \x7b " ++ ", ".intercalate shown ++ " \x7d"

/-- The text of a constant. -/
def render : Constant → String
  | utf8 text => withValue .utf8 (Quoted.render text)
  | integer value => withValue .integer (toString value.toInt)
  | float bits => withValue .float (numberLayout.number .single bits.toNat)
  | long value => withValue .long (toString value.toInt)
  | double bits => withValue .double (numberLayout.number .double bits.toNat)
  | classInfo name => withParts .classInfo [("name_index", name.toNat)]
  | string text => withParts .string [("string_index", text.toNat)]
  | memberRef k owner signature =>
    withParts (refKind k)
      [("class_index", owner.toNat), ("name_and_type_index", signature.toNat)]
  | nameAndType name descriptor =>
    withParts .nameAndType [("name_index", name.toNat), ("descriptor_index", descriptor.toNat)]
  | methodHandle k member =>
    withParts .methodHandle [("reference_kind", k.toNat), ("reference_index", member.toNat)]
  | methodType descriptor => withParts .methodType [("descriptor_index", descriptor.toNat)]
  | dynamic bootstrap signature =>
    withParts .dynamic
      [("bootstrap_method_attr_index", bootstrap.toNat),
        ("name_and_type_index", signature.toNat)]
  | invokeDynamic bootstrap signature =>
    withParts .invokeDynamic
      [("bootstrap_method_attr_index", bootstrap.toNat),
        ("name_and_type_index", signature.toNat)]
  | moduleInfo name => withParts .moduleInfo [("name_index", name.toNat)]
  | packageInfo name => withParts .packageInfo [("name_index", name.toNat)]

end Constant

end Backref
