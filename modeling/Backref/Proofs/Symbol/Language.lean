import Backref.Proofs.Symbol.Parse

/-!
# The language of usage strings

Reading a usage string and writing a symbol undo each other on the symbols that
can be read: those with nothing empty in them and, in a member, no colon in the
owner and the name. The strings that are read are told by their form alone. Any
other string is refused as malformed, with the string in the fault.

Main result: `Symbol.parse_iff_names`.
-/

namespace Backref.Symbol

/-- What a usage string names by its form: a tag, and behind it the name of a
class, or the parts of a member with colons between them. Nothing is empty, and
the descriptor is all that comes behind the second colon. -/
inductive Names : String → Symbol → Prop
  | ofClass {name : String} (hname : name ≠ "") : Names ("s:" ++ name) (ofClass name)
  | field {owner name descriptor : String} (hm : (Member.mk owner name descriptor).Decodable) :
      Names ("f:" ++ owner ++ ":" ++ name ++ ":" ++ descriptor) (field ⟨owner, name, descriptor⟩)
  | method {owner name descriptor : String} (hm : (Member.mk owner name descriptor).Decodable) :
      Names ("m:" ++ owner ++ ":" ++ name ++ ":" ++ descriptor) (method ⟨owner, name, descriptor⟩)

theorem usage_ofClass (name : String) : (ofClass name).usage = "s:" ++ name := rfl

/-- A field is written as its tag and its three parts. -/
theorem usage_field (m : Member) :
    (field m).usage = "f:" ++ m.owner ++ ":" ++ m.name ++ ":" ++ m.descriptor := by
  rw [← String.toList_inj, toList_usage]
  simp [tagLetter, referenceKey, Member.toList_referenceKey]

/-- A method is written as its tag and its three parts. -/
theorem usage_method (m : Member) :
    (method m).usage = "m:" ++ m.owner ++ ":" ++ m.name ++ ":" ++ m.descriptor := by
  rw [← String.toList_inj, toList_usage]
  simp [tagLetter, referenceKey, Member.toList_referenceKey]

/-- A string names the symbols that are written as it and can be read. -/
theorem names_iff {u : String} {s : Symbol} : Names u s ↔ s.Decodable ∧ s.usage = u := by
  -- each way of naming a symbol writes one kind of it
  constructor
  · intro h
    cases h with
    | ofClass hname => exact ⟨hname, usage_ofClass _⟩
    | field hm => exact ⟨hm, usage_field _⟩
    | method hm => exact ⟨hm, usage_method _⟩
  · rintro ⟨hs, rfl⟩
    cases s with
    | ofClass name =>
      rw [usage_ofClass]
      exact .ofClass hs
    | field m =>
      rw [usage_field]
      exact .field hs
    | method m =>
      rw [usage_method]
      exact .method hs

/-- A string is read, or it is refused as malformed for one of three causes. -/
theorem parse_cases (u : String) : (∃ s, parse u = .ok s) ∨
    ∃ cause ∈ [.emptyUsageClass u, .usageTag u, .incompleteMember u],
      parse u = .error (.malformed cause) := by
  have hmember : ∀ (ofMember : Member → Symbol) (key : List Char),
      (∃ s, ofMemberKey u ofMember key = .ok s) ∨
        ofMemberKey u ofMember key = .error (.malformed (.incompleteMember u)) := by
    intro ofMember key
    unfold ofMemberKey
    cases Member.parse? key with
    | some m => exact .inl ⟨_, rfl⟩
    | none => exact .inr rfl
  unfold parse
  -- the tag decides, and a member may still be incomplete
  split
  · exact .inr ⟨.emptyUsageClass u, by simp, rfl⟩
  · exact .inl ⟨_, rfl⟩
  · rename_i key _
    rcases hmember field key with hread | hrefused
    · exact .inl hread
    · exact .inr ⟨.incompleteMember u, by simp, hrefused⟩
  · rename_i key _
    rcases hmember method key with hread | hrefused
    · exact .inl hread
    · exact .inr ⟨.incompleteMember u, by simp, hrefused⟩
  · exact .inr ⟨.usageTag u, by simp, rfl⟩

/-- A usage string is read exactly as the symbol that it names by its form, which
is the one symbol that can be read and is written as the string. A symbol is
read back from its usage string exactly if it is a class with a name that is not
empty, or a member with no empty part and no colon in its owner and its name.
All other strings are refused as malformed. -/
theorem parse_iff_names (u : String) (s : Symbol) :
    (parse u = .ok s ↔ Names u s) ∧
    (parse u = .ok s ↔ s.usage = u ∧ s.Decodable) ∧
    (parse s.usage = .ok s ↔ s.Decodable) ∧
    ((¬ ∃ t, Names u t) ↔
      ∃ cause ∈ [.emptyUsageClass u, .usageTag u, .incompleteMember u],
        parse u = .error (.malformed cause)) := by
  have hread : ∀ t, parse u = .ok t ↔ Names u t := fun t => parse_eq_ok.trans names_iff.symm
  have hback : parse s.usage = .ok s ↔ s.Decodable := by
    rw [parse_eq_ok]
    exact and_iff_left rfl
  -- the language, the inverse both ways, and what becomes of everything else
  refine ⟨hread s, parse_eq_ok.trans and_comm, hback, ?_⟩
  · simp only [← hread]
    constructor
    · exact (parse_cases u).resolve_left
    · rintro ⟨cause, -, hrefused⟩ ⟨t, ht⟩
      rw [hrefused] at ht
      cases ht

/-- The colons behind the second one belong to the descriptor. -/
example : parse "f:C:x:[La:b;" = .ok (.field ⟨"C", "x", "[La:b;"⟩) := rfl

end Backref.Symbol
