import Backref.Proofs.InOrder
import Backref.Proofs.Text.RoundTrip

/-!
# Texts, units and bytes as relations

What encoding and decoding are to do, said without them: which units stand for
a character, which text a sequence of units spells once each surrogate without
a partner is replaced, and which bytes are the form of a unit. The definitions
that run are then the only ones that fit.

Main results:

* `Utf16.spells_iff` — decoding units yields the one text that they spell;
* `Modified.form_iff`, `Modified.inOrder_form_iff` — each sequence of units has
  one form;
* `Modified.forms_read_back` — the form of any units is read as the text that
  they spell, and the form of the units of a text as that text.
-/

namespace Backref

-- ---------------------------------------------------------------------------
-- Units
-- ---------------------------------------------------------------------------

namespace Utf16

/-- The units that stand for a character: one that is no surrogate, or a pair
of surrogates with ten bits each of what is above `0xFFFF`. -/
inductive Stands : List UInt16 → Char → Prop
  | unit {u : UInt16} {c : Char} (same : u.toNat = c.toNat) : Stands [u] c
  | pair {high low : UInt16} {c : Char} {x y : Nat} (highBits : high.toNat = 0xD800 + x)
      (lowBits : low.toNat = 0xDC00 + y) (xBound : x < 0x400) (yBound : y < 0x400)
      (sum : c.toNat = 0x10000 + 0x400 * x + y) : Stands [high, low] c

/-- A surrogate at the start of units that is not the first half of a pair. -/
def Unpaired (u : UInt16) (rest : List UInt16) : Prop :=
  (0xD800 ≤ u.toNat ∧ u.toNat ≤ 0xDFFF) ∧
    ¬ (u.toNat ≤ 0xDBFF ∧ ∃ v ∈ rest.head?, 0xDC00 ≤ v.toNat ∧ v.toNat ≤ 0xDFFF)

/-- The text of a sequence of units, with `U+FFFD` for each surrogate that has
no partner. -/
inductive Spells : List UInt16 → List Char → Prop
  | nil : Spells [] []
  | char {us rest : List UInt16} {c : Char} {cs : List Char} (first : Stands us c)
      (others : Spells rest cs) : Spells (us ++ rest) (c :: cs)
  | unpaired {u : UInt16} {rest : List UInt16} {cs : List Char} (first : Unpaired u rest)
      (others : Spells rest cs) : Spells (u :: rest) ('\uFFFD' :: cs)

/-- The units of a character stand for it. -/
theorem stands_unitsOf (c : Char) : Stands (unitsOf c) c := by
  have hc := toNat_lt_or c
  unfold unitsOf
  by_cases hsmall : c.toNat < 0x10000
  · rw [if_pos hsmall]
    refine .unit ?_
    rw [UInt16.toNat_ofNat']
    omega
  · rw [if_neg hsmall]
    refine .pair (x := (c.toNat - 0x10000) / 0x400) (y := (c.toNat - 0x10000) % 0x400) ?_ ?_
      (by omega) (by omega) (by omega)
    · rw [UInt16.toNat_ofNat']
      omega
    · rw [UInt16.toNat_ofNat']
      omega

/-- The units of a text stand for its characters, one after the other. -/
theorem inOrder_units (text : String) :
    InOrder (fun c us => Stands us c) text.toList (units text) :=
  inOrder_flatMap fun c _ => stands_unitsOf c

/-! ### What decoding yields -/

/-- Units that stand for a character are read as that character. -/
theorem textAfter_stands {us : List UInt16} {c : Char} (h : Stands us c) (seen : String)
    (rest : List UInt16) : textAfter seen (us ++ rest) = textAfter (seen.push c) rest := by
  cases h with
  | unit same => exact textAfter_single same
  | @pair high low _ x y highBits lowBits xBound yBound sum =>
    have hpair : (isHigh high && isLow low) = true := by
      rw [Bool.and_eq_true, isHigh_iff, isLow_iff]
      omega
    have hsum : 0x10000 + (high.toNat - 0xD800) * 0x400 + (low.toNat - 0xDC00) = c.toNat := by
      omega
    have hchar : paired high low = c := by
      rw [paired, hsum, Char.ofNat_toNat]
    rw [List.cons_append, List.singleton_append, textAfter, if_pos hpair, hchar]

/-- A surrogate without a partner is read as the replacement character. -/
theorem textAfter_unpaired {u : UInt16} {rest : List UInt16} (h : Unpaired u rest)
    (seen : String) : textAfter seen (u :: rest) = textAfter (seen.push '\uFFFD') rest := by
  obtain ⟨hsurrogate, hlone⟩ := h
  have hsingle : single u = '\uFFFD' := by
    refine if_pos ?_
    rw [Bool.or_eq_true, isHigh_iff, isLow_iff]
    omega
  -- a high surrogate may be the last unit, or be followed by something that is no low one
  cases rest with
  | nil =>
    show seen.push (single u) = seen.push '\uFFFD'
    rw [hsingle]
  | cons v rest =>
    have hnopair : ¬ (isHigh u && isLow v) = true := by
      rw [Bool.and_eq_true, isHigh_iff, isLow_iff]
      rintro ⟨⟨-, hu⟩, hv⟩
      exact hlone ⟨by omega, v, rfl, by omega⟩
    rw [textAfter, if_neg hnopair, hsingle]

/-- Units that spell some characters are read as them, behind what is there. -/
theorem textAfter_of_spells {us : List UInt16} {cs : List Char} (h : Spells us cs)
    (seen : String) : textAfter seen us = seen ++ String.ofList cs := by
  induction h generalizing seen with
  | nil => simp [textAfter]
  | char first others ih =>
    rw [textAfter_stands first, ih]
    apply String.toList_injective
    simp
  | unpaired first others ih =>
    rw [textAfter_unpaired first, ih]
    apply String.toList_injective
    simp

/-! ### Every sequence of units spells a text -/

theorem toNat_ofNat {n : Nat} (h : n.isValidChar) : (Char.ofNat n).toNat = n := by
  rw [Char.ofNat, dif_pos h]
  rfl

/-- A unit in front that forms no pair is a character or an unpaired surrogate. -/
theorem exists_spells_cons {u : UInt16} {rest : List UInt16} {cs : List Char}
    (hnopair : ∀ v ∈ rest.head?, ¬ (isHigh u && isLow v) = true) (hrest : Spells rest cs) :
    ∃ c, Spells (u :: rest) (c :: cs) := by
  by_cases hsurrogate : 0xD800 ≤ u.toNat ∧ u.toNat ≤ 0xDFFF
  · refine ⟨'\uFFFD', .unpaired ⟨hsurrogate, ?_⟩ hrest⟩
    rintro ⟨hhigh, v, hv, hlow⟩
    refine hnopair v hv ?_
    rw [Bool.and_eq_true, isHigh_iff, isLow_iff]
    omega
  · have hvalid : u.toNat.isValidChar := by
      have hu := u.toNat_lt
      unfold Nat.isValidChar
      omega
    exact ⟨Char.ofNat u.toNat, .char (.unit (toNat_ofNat hvalid).symm) hrest⟩

/-- All units spell something, if only replacement characters. -/
theorem exists_spells (us : List UInt16) : ∃ cs, Spells us cs := by
  -- the cases are those of decoding, whatever has been decoded before
  suffices h : ∀ _ : String, ∃ cs, Spells us cs from h ""
  intro seen
  induction seen, us using textAfter.induct with
  | case1 => exact ⟨[], .nil⟩
  | case2 seen u =>
    obtain ⟨c, hc⟩ := exists_spells_cons (by simp) .nil
    exact ⟨_, hc⟩
  | case3 seen u v rest hpair ih =>
    obtain ⟨cs, hcs⟩ := ih
    rw [Bool.and_eq_true, isHigh_iff, isLow_iff] at hpair
    have hvalid : (0x10000 + 0x400 * (u.toNat - 0xD800) + (v.toNat - 0xDC00)).isValidChar := by
      unfold Nat.isValidChar
      omega
    refine ⟨_ :: cs, .char (.pair ?_ ?_ ?_ ?_ (toNat_ofNat hvalid)) hcs⟩ <;> omega
  | case4 seen u v rest hnopair ih =>
    obtain ⟨cs, hcs⟩ := ih
    obtain ⟨c, hc⟩ := exists_spells_cons (by simpa using hnopair) hcs
    exact ⟨_, hc⟩

/-- Decoding yields the one text that units spell. -/
theorem spells_iff {us : List UInt16} {cs : List Char} :
    Spells us cs ↔ (Utf16.text us).toList = cs := by
  have htext : ∀ {ds}, Spells us ds → (Utf16.text us).toList = ds := by
    intro ds hds
    rw [Utf16.text, textAfter_of_spells hds]
    simp
  constructor
  · exact htext
  · rintro rfl
    obtain ⟨ds, hds⟩ := exists_spells us
    rw [htext hds]
    exact hds

end Utf16

-- ---------------------------------------------------------------------------
-- Bytes
-- ---------------------------------------------------------------------------

namespace Modified

/-- The form of a unit: one byte of seven bits for `0x01` to `0x7F`, two bytes
with five and six bits for zero and for `0x80` to `0x7FF`, and three bytes with
four, six and six bits for all others. -/
inductive Form : UInt16 → Bytes → Prop
  | one {u : UInt16} {a : UInt8} (range : 0x01 ≤ u.toNat ∧ u.toNat ≤ 0x7F)
      (bits : a.toNat = u.toNat) : Form u [a]
  | two {u : UInt16} {a b : UInt8} {x y : Nat}
      (range : u.toNat = 0 ∨ 0x80 ≤ u.toNat ∧ u.toNat ≤ 0x7FF)
      (bits : u.toNat = 0x40 * x + y) (yBound : y < 0x40)
      (first : a.toNat = 0xC0 + x) (second : b.toNat = 0x80 + y) : Form u [a, b]
  | three {u : UInt16} {a b c : UInt8} {x y z : Nat} (range : 0x800 ≤ u.toNat)
      (bits : u.toNat = 0x1000 * x + 0x40 * y + z) (yBound : y < 0x40) (zBound : z < 0x40)
      (first : a.toNat = 0xE0 + x) (second : b.toNat = 0x80 + y) (third : c.toNat = 0x80 + z) :
      Form u [a, b, c]

/-- A unit is written in its form. -/
theorem form_encodeUnit (u : UInt16) : Form u (encodeUnit u) := by
  have hu := u.toNat_lt
  unfold encodeUnit
  simp only
  by_cases hone : 1 ≤ u.toNat ∧ u.toNat ≤ 0x7F
  · rw [if_pos hone]
    exact .one hone (toNat_ofNat (by omega))
  rw [if_neg hone]
  by_cases htwo : u.toNat ≤ 0x7FF
  · rw [if_pos htwo]
    exact .two (by omega) (Nat.div_add_mod u.toNat 0x40).symm (by omega) (toNat_ofNat (by omega))
      (toNat_ofNat (by omega))
  · rw [if_neg htwo]
    exact .three (by omega) (by omega) (by omega) (by omega) (toNat_ofNat (by omega))
      (toNat_ofNat (by omega)) (toNat_ofNat (by omega))

/-- A unit has one form. -/
theorem Form.unique {u : UInt16} {bs bs' : Bytes} (h : Form u bs) (h' : Form u bs') :
    bs = bs' := by
  -- the ranges tell the lengths apart
  cases h with
  | @one a =>
    cases h' with
    | @one a' =>
      obtain rfl : a = a' := UInt8.toNat_inj.mp (by omega)
      rfl
    | two | three => omega
  | @two a b =>
    cases h' with
    | @two a' b' =>
      obtain rfl : a = a' := UInt8.toNat_inj.mp (by omega)
      obtain rfl : b = b' := UInt8.toNat_inj.mp (by omega)
      rfl
    | one | three => omega
  | @three a b c =>
    cases h' with
    | @three a' b' c' =>
      obtain rfl : a = a' := UInt8.toNat_inj.mp (by omega)
      obtain rfl : b = b' := UInt8.toNat_inj.mp (by omega)
      obtain rfl : c = c' := UInt8.toNat_inj.mp (by omega)
      rfl
    | one | two => omega

/-- The form of a unit is what it is written as. -/
theorem form_iff {u : UInt16} {bs : Bytes} : Form u bs ↔ bs = encodeUnit u := by
  constructor
  · exact fun h => h.unique (form_encodeUnit u)
  · rintro rfl
    exact form_encodeUnit u

/-- Each sequence of units has one form. -/
theorem inOrder_form_iff {us : List UInt16} {bs : Bytes} :
    InOrder Form us bs ↔ bs = encodeUnits us := by
  constructor
  · intro h
    induction h with
    | nil => rfl
    | cons first others ih =>
      rw [ih, form_iff.mp first, encodeUnits, encodeUnits, List.flatMap_cons]
  · rintro rfl
    exact inOrder_flatMap fun u _ => form_encodeUnit u

/-- No form has a zero byte, or one above the first byte of three. -/
theorem Form.mem_range {u : UInt16} {bs : Bytes} (h : Form u bs) {b : UInt8} (hb : b ∈ bs) :
    0 < b.toNat ∧ b.toNat < 0xF0 := by
  have hu := u.toNat_lt
  cases h <;> simp only [List.mem_cons, List.not_mem_nil, or_false] at hb
  · subst hb
    omega
  · rcases hb with rfl | rfl <;> omega
  · rcases hb with rfl | rfl | rfl <;> omega

/-- Reading inverts writing, for units and for texts. Every sequence of units
has one form, and reading it yields the one text that they spell. What is
written for a text is the form of its units: it has no byte that is zero or
above `0xEF`, and is read as the text. -/
theorem forms_read_back :
    (∀ us : List UInt16, ∃ bs text, (∀ bs', InOrder Form us bs' ↔ bs' = bs) ∧
      (∀ cs, Utf16.Spells us cs ↔ cs = String.toList text) ∧
      Reader.Reads (Reader.text bs.length) bs text) ∧
    ∀ text : String, ∃ us, InOrder (fun c us => Utf16.Stands us c) text.toList us ∧
      InOrder Form us (encode text) ∧ (∀ b ∈ encode text, b ≠ 0x00 ∧ b < 0xF0) ∧
      Reader.Reads (Reader.text (encode text).length) (encode text) text := by
  -- from units to a text, then from a text to its units
  constructor
  · intro us
    refine ⟨encodeUnits us, Utf16.text us, fun _ => inOrder_form_iff, fun cs => ?_,
      reads_of_decode (decode_encodeUnits us)⟩
    rw [Utf16.spells_iff]
    exact eq_comm
  · intro text
    have hform : InOrder Form (Utf16.units text) (encode text) := inOrder_form_iff.mpr rfl
    refine ⟨Utf16.units text, Utf16.inOrder_units text, hform, fun b hb => ?_,
      reads_of_decode (decode_encode text)⟩
    -- every byte belongs to the form of some unit
    have hmem : ∃ u ∈ Utf16.units text, b ∈ encodeUnit u :=
      (hform.mem_iff (fun u bs hu b => by rw [form_iff.mp hu]) b).mp hb
    obtain ⟨u, -, hb⟩ := hmem
    obtain ⟨hpos, hlt⟩ := (form_encodeUnit u).mem_range hb
    refine ⟨?_, UInt8.lt_iff_toNat_lt.mpr hlt⟩
    rintro rfl
    exact absurd hpos (by decide)

end Modified

end Backref
