import Backref.Symbol.Basic

/-!
# Reading usage strings

A member's owner and name end at the first and the second colon; everything
behind is its descriptor. No part may be empty.
-/

namespace Backref

/-- The characters before the first colon and those behind it. -/
def Member.cutAtColon? (cs : List Char) : Option (List Char × List Char) :=
  match cs.dropWhile (· != ':') with
  | [] => none
  | _ :: rest => some (cs.takeWhile (· != ':'), rest)

/-- The member that a reference key names. -/
def Member.parse? (key : List Char) : Option Member := do
  let (owner, rest) ← cutAtColon? key
  let (name, descriptor) ← cutAtColon? rest
  if owner.isEmpty || name.isEmpty || descriptor.isEmpty then none
  else some ⟨String.ofList owner, String.ofList name, String.ofList descriptor⟩

namespace Symbol

/-- The member symbol that a usage string names, given the text behind its tag. -/
def ofMemberKey (usage : String) (ofMember : Member → Symbol) (key : List Char) :
    Except Fault Symbol :=
  match Member.parse? key with
  | some m => .ok (ofMember m)
  | none => .error (.malformed (.incompleteMember usage))

/-- The symbol that a usage string names. -/
def parse (usage : String) : Except Fault Symbol :=
  match usage.toList with
  | 's' :: ':' :: [] => .error (.malformed (.emptyUsageClass usage))
  | 's' :: ':' :: name => .ok (.ofClass (String.ofList name))
  | 'f' :: ':' :: key => ofMemberKey usage field key
  | 'm' :: ':' :: key => ofMemberKey usage method key
  | _ => .error (.malformed (.usageTag usage))

end Symbol

end Backref
