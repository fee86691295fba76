import Backref.Proofs.Bytecode.Layout
import Backref.Proofs.Bytes.Extension

/-!
# Reading exactly the instruction set

The instruction set gives each opcode a form of operand by its number. Reading
an instruction accepts exactly the bytes that are laid out in this form, looks
at no others, and runs out of bytes wherever they end inside of a layout.

Main results:

* `Opcode.formOf?_eq` — the table of opcodes follows the instruction set;
* `Instruction.Layout.cut` — an instruction that is cut off is out of bounds;
* `Instruction.read_exactly_layouts` — all that reading an instruction does.
-/

namespace Backref

open FixedWidth Cursor Reader

-- ---------------------------------------------------------------------------
-- The instruction set
-- ---------------------------------------------------------------------------

namespace Opcode

/-- The opcodes with operands, as ranges of numbers with a common form. -/
def operandRanges : List (UInt8 × UInt8 × OperandForm) :=
  [(0x10, 0x10, .int8), (0x11, 0x11, .int16), (0x12, 0x12, .narrowConstant),
    (0x13, 0x14, .constant), (0x15, 0x19, .slot), (0x36, 0x3A, .slot), (0x84, 0x84, .increment),
    (0x99, 0xA8, .branch16), (0xA9, 0xA9, .slot), (0xAA, 0xAA, .tableSwitch),
    (0xAB, 0xAB, .lookupSwitch), (0xB2, 0xB8, .constant), (0xB9, 0xB9, .invokeInterface),
    (0xBA, 0xBA, .invokeDynamic), (0xBB, 0xBB, .constant), (0xBC, 0xBC, .uint8),
    (0xBD, 0xBD, .constant), (0xC0, 0xC1, .constant), (0xC4, 0xC4, .wide),
    (0xC5, 0xC5, .multiNewArray), (0xC6, 0xC7, .branch16), (0xC8, 0xC9, .branch32)]

/-- The form of operand of an opcode. The last opcode is `0xCA`. -/
def formOf? (opcode : UInt8) : Option OperandForm :=
  if 0xCA < opcode then none
  else
    match operandRanges.find? fun r => r.1 ≤ opcode && opcode ≤ r.2.1 with
    | some (_, _, form) => some form
    | none => some .none

/-- The forms of the table, all of its entries at once. -/
theorem map_form_table :
    table.toList.map (fun info => some info.form) =
      (List.range 203).map fun n => formOf? (UInt8.ofNat n) := by decide +kernel

/-- The table has an entry for each opcode, with its form. -/
theorem formOf?_eq (opcode : UInt8) : formOf? opcode = (info? opcode).map OpcodeInfo.form := by
  have hentry := congrArg (fun forms => forms[opcode.toNat]?) map_form_table
  by_cases hopcode : opcode.toNat < 203
  · simp only [List.getElem?_map, List.getElem?_range hopcode, Array.getElem?_toList,
      Option.map_some, UInt8.ofNat_toNat] at hentry
    obtain ⟨info, hinfo, hform⟩ := Option.map_eq_some_iff.mp hentry
    rw [← hform, info?, hinfo, Option.map_some]
  · have hlast : 0xCA < opcode := by
      rw [UInt8.lt_iff_toNat_lt]
      exact Nat.lt_of_succ_le (Nat.le_of_not_lt hopcode)
    have hnone : info? opcode = none := Array.getElem?_eq_none (Nat.le_of_not_lt hopcode)
    rw [formOf?, if_pos hlast, hnone, Option.map_none]

/-- The form of an opcode is the one in its entry of the table. -/
theorem formOf?_eq_some {opcode : UInt8} {form : OperandForm} :
    formOf? opcode = some form ↔ ∃ info, info? opcode = some info ∧ info.form = form := by
  rw [formOf?_eq, Option.map_eq_some_iff]

/-- What holds of the 256 bytes holds of every opcode. -/
theorem forall_opcode {P : UInt8 → Prop} (h : ∀ n < 256, P (UInt8.ofNat n)) (opcode : UInt8) :
    P opcode := by
  have hopcode := h opcode.toNat opcode.toNat_lt
  rwa [UInt8.ofNat_toNat] at hopcode

/-- The one opcode that is a prefix. -/
theorem formOf?_eq_wide {opcode : UInt8} : formOf? opcode = some .wide ↔ opcode = 0xC4 :=
  forall_opcode (P := fun o => formOf? o = some .wide ↔ o = 0xC4) (by decide +kernel) opcode

/-- The one opcode whose operand is a list of pairs. -/
theorem formOf?_eq_lookupSwitch {opcode : UInt8} :
    formOf? opcode = some .lookupSwitch ↔ opcode = 0xAB :=
  forall_opcode (P := fun o => formOf? o = some .lookupSwitch ↔ o = 0xAB) (by decide +kernel)
    opcode

end Opcode

namespace Instruction

/-- The bytes that are an instruction at a position of a code array: its opcode,
behind the prefix if it is widened, and the operand in the form of the opcode. A
prefix widens local variables and increments only (`Operand.WideLaid`); the
operand of a plain instruction starts one byte behind it, so a switch has
`3 - offset % 4` bytes of padding (`Operand.Laid`). -/
inductive Layout (offset : Nat) : Bytes → Instruction → Prop
  | plain {opcode : UInt8} {form : OperandForm} {bs : Bytes} {operand : Operand}
      (hform : Opcode.formOf? opcode = some form)
      (hoperand : Operand.Laid (offset + 1) bs operand form) :
      Layout offset (opcode :: bs) ⟨offset, bs.length + 1, opcode, false, operand⟩
  | wide {opcode : UInt8} {form : OperandForm} {bs : Bytes} {operand : Operand}
      (hform : Opcode.formOf? opcode = some form) (hoperand : Operand.WideLaid bs operand form) :
      Layout offset (0xC4 :: opcode :: bs) ⟨offset, bs.length + 2, opcode, true, operand⟩

/-- The layouts of the specification are those that reading follows. -/
theorem layout_iff_laid {offset : Nat} {bs : Bytes} {i : Instruction} :
    Layout offset bs i ↔ Laid offset bs i := by
  constructor
  · intro h
    -- the two differ in how the table of opcodes is asked, in each of the two shapes
    cases h with
    | plain hform hoperand =>
      obtain ⟨info, hinfo, rfl⟩ := Opcode.formOf?_eq_some.mp hform
      refine .plain hinfo ?_ hoperand
      -- a prefix has no operand of its own
      intro hwide
      rw [hwide] at hoperand
      exact hoperand
    | wide hform hoperand =>
      obtain ⟨info, hinfo, rfl⟩ := Opcode.formOf?_eq_some.mp hform
      obtain ⟨mark, hmark, hwide⟩ := Opcode.formOf?_eq_some.mp (Opcode.formOf?_eq_wide.mpr rfl)
      exact .wide hmark hwide hinfo hoperand
  · intro h
    cases h with
    | plain hinfo hform hoperand =>
      exact .plain (Opcode.formOf?_eq_some.mpr ⟨_, hinfo, rfl⟩) hoperand
    | wide hmark hform hinfo hoperand =>
      obtain rfl := Opcode.formOf?_eq_wide.mp (Opcode.formOf?_eq_some.mpr ⟨_, hmark, hform⟩)
      exact .wide (Opcode.formOf?_eq_some.mpr ⟨_, hinfo, rfl⟩) hoperand

end Instruction

-- ---------------------------------------------------------------------------
-- Code arrays that go on
-- ---------------------------------------------------------------------------

namespace Operand

/-- Asking for room is local. -/
theorem local_require (n : Nat) : Local (require n) := (Local.endOf n).bind fun _ => Local.pure _

/-- What is made of one integer is local. -/
theorem local_readOne {α β : Type} [FixedWidth α] (f : α → β) :
    Local (do return f (← int α) : Reader β) := Local.int.bind fun _ => Local.pure _

/-- What is made of two integers is local. -/
theorem local_readTwo {α β γ : Type} [FixedWidth α] [FixedWidth β] (f : α → β → γ) :
    Local (do return f (← int α) (← int β) : Reader γ) :=
  Local.int.bind fun _ => Local.int.bind fun _ => Local.pure _

/-- A table switch is read locally: its table is asked for before it is read. -/
theorem local_readTableSwitch : Local readTableSwitch := by
  refine (Local.align 4).bind fun _ => Local.int.bind fun default => ?_
  refine Local.int.bind fun low => Local.int.bind fun high => ?_
  refine Local.ite (Local.malformed _) ?_
  exact (local_require _).bind fun _ => (Local.times Local.int _).bind fun _ => Local.pure _

/-- A lookup switch is read locally: its pairs are asked for before they are read. -/
theorem local_readLookupSwitch : Local readLookupSwitch := by
  refine (Local.align 4).bind fun _ => Local.int.bind fun default => ?_
  refine Local.int.bind fun count => Local.ite (Local.malformed _) ?_
  have hpair : Local readPair := local_readTwo Prod.mk
  exact (local_require _).bind fun _ => (hpair.times _).bind fun _ => Local.pure _

/-- Operands of every form are read locally. -/
theorem local_read (form : OperandForm) : Local (read form) := by
  -- every form but the two switches is a fixed row of integers and gaps
  cases form with
  | none => exact Local.pure _
  | wide => exact Local.pure _
  | int8 => exact local_readOne _
  | int16 => exact local_readOne _
  | uint8 => exact local_readOne _
  | narrowConstant => exact local_readOne fun i : UInt8 => constant i.toUInt16
  | constant => exact local_readOne _
  | slot => exact local_readOne fun i : UInt8 => slot i.toUInt16
  | increment => exact local_readTwo fun (i : UInt8) (d : Int8) => increment i.toUInt16 d.toInt16
  | branch16 => exact local_readOne fun v : Int16 => branch v.toInt32
  | branch32 => exact local_readOne _
  | tableSwitch => exact local_readTableSwitch
  | lookupSwitch => exact local_readLookupSwitch
  | invokeInterface =>
    exact Local.int.bind fun _ => Local.int.bind fun _ => (Local.skip 1).bind fun _ => Local.pure _
  | invokeDynamic => exact Local.int.bind fun _ => (Local.skip 2).bind fun _ => Local.pure _
  | multiNewArray => exact local_readTwo _

/-- Operands behind the prefix are read locally. -/
theorem local_readWide (opcode : UInt8) (info : OpcodeInfo) : Local (readWide opcode info) := by
  unfold readWide
  cases info.form with
  | slot => exact local_readOne _
  | increment => exact local_readTwo _
  | _ => exact Local.malformed _

end Operand

namespace Instruction

/-- An opcode is read locally. -/
theorem local_readOpcode : Local readOpcode := by
  refine Local.int.bind fun opcode => ?_
  cases Opcode.info? opcode with
  | some info => exact Local.pure _
  | none => exact Local.malformed _

/-- An instruction is read in the same way where the code array goes on. -/
theorem local_read : Local read := by
  refine Local.position.bind fun offset => local_readOpcode.bind fun (opcode, info) => ?_
  refine Local.ite ?_ ?_
  · refine local_readOpcode.bind fun (opcode, info) => ?_
    exact (Operand.local_readWide opcode info).bind fun _ => Local.position.bind fun _ =>
      Local.pure _
  · exact (Operand.local_read info.form).bind fun _ => Local.position.bind fun _ => Local.pure _

-- ---------------------------------------------------------------------------
-- Reading layouts
-- ---------------------------------------------------------------------------

/-- An instruction is read exactly where one of its layouts is passed. -/
theorem read_eq_ok_iff_layout {c d : Cursor} {i : Instruction} :
    read c = .ok i d ↔ ∃ bs, Layout c.pos bs i ∧ c.Passes bs d := by
  simp only [layout_iff_laid]
  exact read_eq_ok

/-- A code array that ends inside of an instruction is out of bounds there. -/
theorem Layout.cut {c : Cursor} {bs : Bytes} {i : Instruction} (h : Layout c.pos bs i)
    (hstart : c.ahead <+: bs) (hshort : c.ahead.length < bs.length) :
    ∃ d, read c = .error .outOfBounds d := by
  -- the code array with the instruction in full
  obtain ⟨missing, hmissing⟩ := hstart
  have hpos : c.pos ≤ (c.data ++ missing).length := by
    have hle := c.pos_le
    rw [c.size_eq] at hle
    rw [List.length_append]
    omega
  let e : Cursor := (Cursor.ofBytes (c.data ++ missing)).moveTo c.pos hpos
  have hextended : c.ExtendedBy e := ⟨List.prefix_append _ _, rfl⟩
  have hahead : e.ahead = bs ++ [] := by
    have hle : c.pos ≤ c.data.length := c.size_eq ▸ c.pos_le
    show (c.data ++ missing).drop c.pos = _
    rw [List.drop_append_of_le_length hle, ← c.ahead_eq, hmissing, List.append_nil]
  obtain ⟨d, hpasses, -⟩ := exists_passes hahead
  have hfull : read e = .ok i d := read_eq_ok_iff_layout.mpr ⟨bs, h, hpasses⟩
  -- reading is local, so what the cut array yields goes over to the full one
  have hcarried := local_read hextended
  rw [hfull] at hcarried
  generalize hread : read c = short at hcarried
  cases hcarried with
  | short => exact ⟨_, rfl⟩
  | ok _ =>
    -- the instruction would lie within what is left of it
    obtain ⟨bs', hlayout, hpasses'⟩ := read_eq_ok_iff_layout.mp hread
    have hsize := (layout_iff_laid.mp hlayout).size_eq
    rw [(layout_iff_laid.mp h).size_eq] at hsize
    have hleft := hpasses'.left
    rw [← length_ahead] at hleft
    omega

/-- What is read does not change with the bytes before and behind it. -/
theorem read_of_same_bytes {c d e : Cursor} {i : Instruction} (h : read c = .ok i d)
    (hpos : e.pos = c.pos) (hsame : e.ahead.take i.size = c.ahead.take i.size) :
    ∃ d', read e = .ok i d' ∧ d'.pos = d.pos := by
  obtain ⟨bs, hlayout, hpasses⟩ := read_eq_ok_iff_layout.mp h
  have hsize := (layout_iff_laid.mp hlayout).size_eq
  rw [hsize, hpasses.ahead, List.take_left] at hsame
  have hahead : e.ahead = bs ++ e.ahead.drop bs.length := by
    conv_lhs => rw [← List.take_append_drop bs.length e.ahead, hsame]
  obtain ⟨d', hpasses', -⟩ := exists_passes hahead
  refine ⟨d', read_eq_ok_iff_layout.mpr ⟨bs, hpos ▸ hlayout, hpasses'⟩, ?_⟩
  rw [hpasses'.pos, hpasses.pos, hpos]

/-- What reading an instruction does, for a code array and a place in it. It
yields the instructions whose layouts start the bytes ahead, and then stands
behind the layout; offset and size of the instruction are those of the layout;
what comes before and behind the layout plays no part; and a code array that is
cut off inside of a layout is out of bounds. -/
theorem read_exactly_layouts (c : Cursor) :
    (∀ i d, read c = .ok i d ↔
      ∃ bs, Layout c.pos bs i ∧ bs <+: c.ahead ∧ d.data = c.data ∧ d.pos = c.pos + bs.length) ∧
    (∀ bs i, Layout c.pos bs i → i.offset = c.pos ∧ i.size = bs.length) ∧
    (∀ i d e, read c = .ok i d → e.pos = c.pos → e.ahead.take i.size = c.ahead.take i.size →
      ∃ d', read e = .ok i d' ∧ d'.pos = d.pos) ∧
    (∀ bs i, Layout c.pos bs i → c.ahead <+: bs → c.ahead.length < bs.length →
      ∃ d, read c = .error .outOfBounds d) := by
  refine ⟨?_, ?_, ?_, ?_⟩
  · intro i d
    rw [read_eq_ok_iff_layout]
    refine exists_congr fun bs => and_congr_right fun _ => ?_
    exact passes_iff_prefix
  · intro bs i h
    have hlaid := layout_iff_laid.mp h
    exact ⟨hlaid.offset_eq, hlaid.size_eq⟩
  · intro i d e h hpos hsame
    exact read_of_same_bytes h hpos hsame
  · intro bs i h hstart hshort
    exact h.cut hstart hshort

end Instruction

end Backref
