import Backref.Proofs.Descriptor.Grammar
import Mathlib.Logic.ExistsUnique

/-!
# The language of descriptors

Reading a descriptor and displaying a type undo each other: a text is accepted
exactly when a well-formed type displays as it, and that type is what is read.
Any other text is refused as a malformed descriptor, with the text in the fault.

Main result: `Descriptor.parse_iff_displays`.
-/

namespace Backref

namespace Descriptor

/-- A text that is not accepted is refused as a malformed descriptor, and in no other way. -/
theorem refused_iff {α : Type} {text : String} {r : Except Stop (Step α)} :
    (∀ a, whole text r ≠ .ok a) ↔
      ∃ reason pos, whole text r = .error (.descriptor reason pos text) := by
  constructor
  · intro h
    -- a text is refused where reading stops, or where text is left behind what was read
    cases r with
    | error stop => exact ⟨stop.1, stop.2, rfl⟩
    | ok s =>
      obtain ⟨value, pos, rest⟩ := s
      cases rest with
      | nil => exact absurd rfl (h value)
      | cons c rest => exact ⟨.trailingText, pos, rfl⟩
  · intro h a hok
    obtain ⟨reason, pos, herror⟩ := h
    rw [herror] at hok
    cases hok

theorem render_eq_toList {cs : List Char} {text : String} :
    cs = text.toList ↔ String.ofList cs = text := by
  constructor
  · intro h
    rw [h, String.ofList_toList]
  · intro h
    rw [← h, String.toList_ofList]

end Descriptor

open Descriptor

/-- A field descriptor is read as the well-formed type that displays as it. -/
theorem FieldType.parse_iff_display {text : String} {t : FieldType} :
    parse text = .ok t ↔ t.WellFormed ∧ String.ofList t.render = text :=
  parse_eq_ok.trans (and_congr_right' render_eq_toList)

/-- A method descriptor is read as the well-formed type that displays as it. -/
theorem MethodType.parse_iff_display {text : String} {m : MethodType} :
    parse text = .ok m ↔ (∀ t ∈ m.parameters, t.WellFormed) ∧
      (m.result.WellFormed ∨ m.result = .void) ∧ String.ofList m.render = text := by
  rw [parse_eq_ok, SpelledBy, WellFormed, and_assoc, render_eq_toList]
  rfl

/-- What a text is read as, if it is read at all, is unique. -/
theorem Descriptor.exists_ok_iff_existsUnique {α : Type} {parsed : Except Fault α} {P : α → Prop}
    (h : ∀ a, parsed = .ok a ↔ P a) : (∃ a, parsed = .ok a) ↔ ∃! a, P a := by
  constructor
  · intro hread
    obtain ⟨a, ha⟩ := hread
    refine ⟨a, (h a).mp ha, ?_⟩
    intro b hb
    have hagain := (h b).mpr hb
    rw [ha, Except.ok.injEq] at hagain
    exact hagain.symm
  · intro hunique
    obtain ⟨a, ha, -⟩ := hunique
    exact ⟨a, (h a).mpr ha⟩

/-- A text is accepted as the descriptor of a field exactly when a type that a
field can have displays as it, and as the descriptor of a method exactly when
such parameters and such a result, or `void`, do. There is one such reading at
most, it is what is read, and it displays as the text. Any other text is refused
as a malformed descriptor. -/
theorem Descriptor.parse_iff_displays (text : String) :
    (∀ t : FieldType, FieldType.parse text = .ok t ↔
      t.WellFormed ∧ String.ofList t.render = text) ∧
    (∀ m : MethodType, MethodType.parse text = .ok m ↔
      (∀ t ∈ m.parameters, t.WellFormed) ∧ (m.result.WellFormed ∨ m.result = .void) ∧
        String.ofList m.render = text) ∧
    ((∃ t, FieldType.parse text = .ok t) ↔
      ∃! t : FieldType, t.WellFormed ∧ String.ofList t.render = text) ∧
    ((∃ m, MethodType.parse text = .ok m) ↔
      ∃! m : MethodType, (∀ t ∈ m.parameters, t.WellFormed) ∧
        (m.result.WellFormed ∨ m.result = .void) ∧ String.ofList m.render = text) ∧
    ((¬ ∃ t : FieldType, t.WellFormed ∧ String.ofList t.render = text) ↔
      ∃ reason pos, FieldType.parse text = .error (.descriptor reason pos text)) ∧
    ((¬ ∃ m : MethodType, (∀ t ∈ m.parameters, t.WellFormed) ∧
        (m.result.WellFormed ∨ m.result = .void) ∧ String.ofList m.render = text) ↔
      ∃ reason pos, MethodType.parse text = .error (.descriptor reason pos text)) := by
  have hfield : ∀ t : FieldType, FieldType.parse text = .ok t ↔
      t.WellFormed ∧ String.ofList t.render = text := fun _ => FieldType.parse_iff_display
  have hmethod : ∀ m : MethodType, MethodType.parse text = .ok m ↔
      (∀ t ∈ m.parameters, t.WellFormed) ∧ (m.result.WellFormed ∨ m.result = .void) ∧
        String.ofList m.render = text := fun _ => MethodType.parse_iff_display
  -- a type is found where it is displayed, and there is only one reading of a text
  refine ⟨hfield, hmethod, exists_ok_iff_existsUnique hfield,
    exists_ok_iff_existsUnique hmethod, ?_, ?_⟩
  · simp only [← hfield, not_exists]
    exact refused_iff
  · simp only [← hmethod, not_exists]
    exact refused_iff

/-- The name of a class may hold any characters but the one that ends it. -/
example : FieldType.parse "[Lä/日本;" = .ok ⟨1, .object "ä/日本"⟩ :=
  FieldType.parse_iff_display.mpr ⟨⟨by decide, by decide, by decide⟩, by decide⟩

/-- There is room for 255 array layers. -/
example : FieldType.parse (String.ofList (FieldType.render ⟨255, .primitive .int⟩)) =
    .ok ⟨255, .primitive .int⟩ :=
  FieldType.parse_iff_display.mpr ⟨⟨by decide, Primitive.noConfusion⟩, rfl⟩

end Backref
