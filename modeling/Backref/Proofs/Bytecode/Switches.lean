import Backref.Proofs.Bytecode.Exact
import Backref.Proofs.Machine.Instruction

/-!
# The tables of switches

What may be said of the table of a switch that has been read. A `tableswitch`
has an offset for every value from its lower bound to its upper one, and these
can be counted in machine words whatever the bounds are. A `lookupswitch` has
the pairs that are written, as they are written: nothing makes sure that they
are in the order of their values, nor that no value comes twice.

Main results:

* `Operand.Laid.of_tableSwitch`, `Operand.laid_lookupSwitch_iff` — what the
  layouts say;
* `Instruction.switches_as_written` — the switches that are read;
* `Instruction.not_sorted_lookupSwitch` — and that they need not be sorted.
-/

namespace Backref

open FixedWidth Cursor

-- ---------------------------------------------------------------------------
-- Layouts
-- ---------------------------------------------------------------------------

namespace Operand

/-- The values from one bound to another are as many as the offsets. -/
theorem Laid.of_tableSwitch {start : Nat} {bs : Bytes} {form : OperandForm}
    {default low high : Int32} {offsets : Array Int32}
    (h : Laid start bs (.tableSwitch default low high offsets) form) :
    low ≤ high ∧ (offsets.size : Int) = high.toInt - low.toInt + 1 := by
  cases form with
  | tableSwitch =>
    obtain ⟨_, _, _, _, _, -, hle, hsize, -, ho⟩ := h
    cases ho
    exact ⟨hle, hsize⟩
  | _ => simp [Laid] at h

/-- The bytes of a `lookupswitch` behind its opcode, with its pairs in order. -/
def lookupBytes (padding : Bytes) (default : Int32) (pairs : Array (Int32 × Int32)) : Bytes :=
  padding ++ (encode default ++ (encode (Int32.ofNat pairs.size) ++
    pairs.toList.flatMap encodePair))

/-- Any pairs can be written, if a signed number counts them. -/
theorem laid_lookupSwitch_iff {start : Nat} {bs : Bytes} {default : Int32}
    {pairs : Array (Int32 × Int32)} {form : OperandForm} :
    Laid start bs (.lookupSwitch default pairs) form ↔ form = .lookupSwitch ∧
      pairs.size < 0x80000000 ∧ ∃ padding, padding.length = (4 - start % 4) % 4 ∧
        bs = lookupBytes padding default pairs := by
  constructor
  · intro h
    cases form with
    | lookupSwitch =>
      obtain ⟨padding, _, count, _, hpadding, hsize, rfl, ho⟩ := h
      cases ho
      have hlt := count.toInt_lt
      have hsmall : pairs.size < 0x80000000 := by omega
      -- the count that is written is the number of pairs, which fits
      have hcount : Int32.ofNat pairs.size = count := by
        rw [← Int32.toInt_inj, Int32.toInt_ofNat_of_lt hsmall, hsize]
      refine ⟨rfl, hsmall, padding, hpadding, ?_⟩
      rw [lookupBytes, hcount]
    | _ => simp [Laid] at h
  · rintro ⟨rfl, hsize, padding, hpadding, rfl⟩
    exact ⟨padding, default, Int32.ofNat pairs.size, pairs, hpadding,
      (Int32.toInt_ofNat_of_lt hsize).symm, rfl, rfl⟩

end Operand

-- ---------------------------------------------------------------------------
-- Switches that are read
-- ---------------------------------------------------------------------------

namespace Instruction

open Operand

/-- A table switch has its bounds in order and an offset for every match between
them, in whatever form it is written. -/
theorem Layout.of_tableSwitch {offset : Nat} {bs : Bytes} {i : Instruction}
    {default low high : Int32} {offsets : Array Int32} (h : Layout offset bs i)
    (ho : i.operand = .tableSwitch default low high offsets) :
    low ≤ high ∧ (offsets.size : Int) = high.toInt - low.toInt + 1 := by
  cases h with
  | plain _ hoperand =>
    cases ho
    exact hoperand.of_tableSwitch
  | @wide _ form _ _ _ hoperand =>
    cases ho
    cases form <;> simp [WideLaid] at hoperand

/-- The instructions with a list of pairs: the opcode, three bytes of padding at
most, and any list that a signed number counts. -/
theorem layout_lookupSwitch_iff {offset : Nat} {bs : Bytes} {i : Instruction} {default : Int32}
    {pairs : Array (Int32 × Int32)} :
    Layout offset bs i ∧ i.operand = .lookupSwitch default pairs ↔
      pairs.size < 0x80000000 ∧ ∃ padding, padding.length = 3 - offset % 4 ∧
        bs = 0xAB :: lookupBytes padding default pairs ∧
        i = ⟨offset, bs.length, 0xAB, false, .lookupSwitch default pairs⟩ := by
  -- the padding counts from behind the opcode
  have hpad : (4 - (offset + 1) % 4) % 4 = 3 - offset % 4 := by omega
  constructor
  · rintro ⟨h, ho⟩
    cases h with
    | plain hform hoperand =>
      cases ho
      obtain ⟨rfl, hsize, padding, hpadding, rfl⟩ := laid_lookupSwitch_iff.mp hoperand
      obtain rfl := Opcode.formOf?_eq_lookupSwitch.mp hform
      exact ⟨hsize, padding, hpadding.trans hpad, rfl, rfl⟩
    | @wide _ form _ _ _ hoperand =>
      cases ho
      -- neither operand that can be widened is a switch
      cases form <;> simp [WideLaid] at hoperand
  · rintro ⟨hsize, padding, hpadding, rfl, rfl⟩
    refine ⟨.plain (Opcode.formOf?_eq_lookupSwitch.mpr rfl) ?_, rfl⟩
    exact laid_lookupSwitch_iff.mpr ⟨rfl, hsize, padding, hpadding.trans hpad.symm, rfl⟩

/-- The switches that are read, at any place of a code array. A `tableswitch` has
its bounds in order and an offset for each value between them, and decoding it in
machine words goes wrong nowhere. A `lookupswitch` has the pairs that are
written, in the order in which they are, which may be any order and any pairs:
its values need not be sorted, and may repeat. Either branches to the default
first, and then in the order of its entries. -/
theorem switches_as_written (c : Cursor) :
    (∀ i d default low high offsets, read c = .ok i d →
      i.operand = .tableSwitch default low high offsets →
      low ≤ high ∧ (offsets.size : Int) = high.toInt - low.toInt + 1 ∧
      i.targets = (i.offset + default.toInt) ::
        offsets.toList.map fun offset => i.offset + offset.toInt) ∧
    (∀ i d default pairs, i.operand = .lookupSwitch default pairs →
      (read c = .ok i d ↔ pairs.size < 0x80000000 ∧ ∃ padding, padding.length = 3 - c.pos % 4 ∧
        c.Passes (0xAB :: lookupBytes padding default pairs) d ∧
        i = ⟨c.pos, d.pos - c.pos, 0xAB, false, .lookupSwitch default pairs⟩) ∧
      i.targets = (i.offset + default.toInt) ::
        pairs.toList.map fun pair => i.offset + pair.2.toInt) ∧
    (c.size < Machine.wordLimit →
      (∀ i d, read c = .ok i d →
        Machine.decodeInstruction (.ofCursor c) = .ok i (.ofCursor d)) ∧
      ∀ f d, read c = .error f d →
        ∃ p, Machine.decodeInstruction (.ofCursor c) = .error (.fault f) p) := by
  -- table switches, then lookup switches, then the machine that reads either
  refine ⟨?_, ?_, ?_⟩
  · intro i d default low high offsets h ho
    obtain ⟨bs, hlayout, -⟩ := read_eq_ok_iff_layout.mp h
    obtain ⟨hle, hsize⟩ := hlayout.of_tableSwitch ho
    exact ⟨hle, hsize, by simp [targets, ho, branches]⟩
  · intro i d default pairs ho
    refine ⟨?_, by simp [targets, ho, branches]⟩
    rw [read_eq_ok_iff_layout]
    constructor
    · rintro ⟨bs, hlayout, hpasses⟩
      obtain ⟨hsize, padding, hpadding, rfl, hi⟩ := layout_lookupSwitch_iff.mp ⟨hlayout, ho⟩
      refine ⟨hsize, padding, hpadding, hpasses, ?_⟩
      rw [hi, hpasses.pos, Nat.add_sub_cancel_left]
    · rintro ⟨hsize, padding, hpadding, hpasses, hi⟩
      rw [hpasses.pos, Nat.add_sub_cancel_left] at hi
      exact ⟨_, (layout_lookupSwitch_iff.mpr ⟨hsize, padding, hpadding, rfl, hi⟩).1, hpasses⟩
  · intro hword
    have hagrees := Machine.implements_decodeInstruction c
    refine ⟨fun i d h => ?_, fun f d h => ?_⟩
    · rw [h] at hagrees
      exact hagrees.eq_ok hword
    · rw [h] at hagrees
      exact hagrees.eq_error hword

/-- The bytes of a `tableswitch` from the least number to the next one. -/
def leastBoundsBytes : Bytes :=
  [0xAA, 0, 0, 0, 0, 0, 0, 9, 0x80, 0, 0, 0, 0x80, 0, 0, 1, 0, 0, 0, 8, 0, 0, 0, 7]

/-- The bytes of a `lookupswitch` with the values 2, 1 and 1. -/
def unsortedBytes : Bytes :=
  [0xAB, 0, 0, 0, 0, 0, 0, 9, 0, 0, 0, 3, 0, 0, 0, 2, 0, 0, 0, 8, 0, 0, 0, 1, 0, 0, 0, 7, 0, 0, 0,
    1, 0, 0, 0, 6]

/-- What is written in the first of them. -/
def leastBounds : Instruction :=
  ⟨0, 24, 0xAA, false, .tableSwitch 9 (-0x80000000) (-0x7FFFFFFF) #[8, 7]⟩

/-- What is written in the second. -/
def unsorted : Instruction := ⟨0, 36, 0xAB, false, .lookupSwitch 9 #[(2, 8), (1, 7), (1, 6)]⟩

/-- The switch of least bounds is laid out as it says. -/
theorem layout_leastBounds : Layout 0 leastBoundsBytes leastBounds := by
  have hform : Opcode.formOf? 0xAA = some .tableSwitch := by decide
  exact .plain hform ⟨[0, 0, 0], 9, -0x80000000, -0x7FFFFFFF, #[8, 7], rfl, by decide, by decide,
    by decide +kernel, rfl⟩

/-- The unsorted switch is the encoding of its three pairs. -/
theorem unsortedBytes_eq :
    unsortedBytes = 0xAB :: lookupBytes [0, 0, 0] 9 #[(2, 8), (1, 7), (1, 6)] := by
  decide +kernel

/-- Both switches are read as they are written, and decoded in machine words: the
values between the bounds of the first are counted, and the second is not put in order. -/
theorem switches_as_written_samples :
    (∃ d, read (ofBytes leastBoundsBytes) = .ok leastBounds d ∧
      leastBounds.targets = [9, 8, 7] ∧
      Machine.decodeInstruction (.new leastBoundsBytes) = .ok leastBounds (.ofCursor d)) ∧
    ∃ d, read (ofBytes unsortedBytes) = .ok unsorted d ∧ unsorted.targets = [9, 8, 7, 6] := by
  constructor
  · obtain ⟨d, hpasses, -⟩ := ofBytes_passes leastBoundsBytes
    have hread := read_eq_ok_iff_layout.mpr ⟨_, layout_leastBounds, hpasses⟩
    obtain ⟨htable, -, hmachine⟩ := switches_as_written (ofBytes leastBoundsBytes)
    obtain ⟨-, -, htargets⟩ := htable _ _ _ _ _ _ hread rfl
    exact ⟨d, hread, htargets, (hmachine (by decide +kernel)).1 _ _ hread⟩
  · obtain ⟨d, hpasses, -⟩ := ofBytes_passes unsortedBytes
    obtain ⟨-, hlookup, -⟩ := switches_as_written (ofBytes unsortedBytes)
    obtain ⟨hread, htargets⟩ := hlookup unsorted d _ _ rfl
    -- the opcode, three bytes of padding, two words and three pairs
    have hpos : d.pos = 36 := hpasses.pos
    refine ⟨d, hread.mpr ⟨by decide, [0, 0, 0], rfl, ?_, ?_⟩, htargets⟩
    · rwa [← unsortedBytes_eq]
    · rw [hpos]
      rfl

/-- A `lookupswitch` is read with its values out of order, and with one of them twice. -/
theorem not_sorted_lookupSwitch :
    ¬ ∀ code i d default pairs, read (ofBytes code) = .ok i d →
      i.operand = .lookupSwitch default pairs →
      pairs.toList.Pairwise fun p q => p.1 < q.1 := by
  intro h
  obtain ⟨d, hpasses, -⟩ := ofBytes_passes unsortedBytes
  -- the pairs are laid out as 2, 1, 1, and nothing asks for more
  have hlayout : Layout 0 unsortedBytes unsorted :=
    (layout_lookupSwitch_iff.mpr ⟨by decide, [0, 0, 0], rfl, unsortedBytes_eq, rfl⟩).1
  have hread := read_eq_ok_iff_layout.mpr ⟨_, hlayout, hpasses⟩
  exact absurd (h unsortedBytes unsorted d _ _ hread rfl) (by decide)

end Instruction

end Backref
