import Backref.Proofs.Bytes.Written
import Backref.Text.Modified

/-!
# Reading text back

Modified UTF-8 is read back as the units that it was written from, also where
its bytes happen to be standard UTF-8: a unit and a character with the same
bytes in front have the same number.

Main results:

* `Utf16.text_units` — the units of a text spell the text;
* `Modified.decode_encodeUnits` — the written form of any units, unpaired
  surrogates included, is read as the text of these units;
* `Modified.decode_encode` — the written form of a text is read as the text.
-/

namespace Backref

-- ---------------------------------------------------------------------------
-- Units and characters
-- ---------------------------------------------------------------------------

namespace Utf16

/-- A character is no surrogate. -/
theorem toNat_lt_or (c : Char) : c.toNat < 0xD800 ∨ 0xDFFF < c.toNat ∧ c.toNat < 0x110000 := by
  have h := c.valid
  simpa [UInt32.isValidChar, Nat.isValidChar] using h

theorem isHigh_iff (u : UInt16) : isHigh u = true ↔ 0xD800 ≤ u.toNat ∧ u.toNat < 0xDC00 := by
  simp [isHigh, UInt16.le_iff_toNat_le, UInt16.lt_iff_toNat_lt]

theorem isLow_iff (u : UInt16) : isLow u = true ↔ 0xDC00 ≤ u.toNat ∧ u.toNat < 0xE000 := by
  simp [isLow, UInt16.le_iff_toNat_le, UInt16.lt_iff_toNat_lt]

/-- A unit with the number of a character is read as that character. -/
theorem single_of_toNat {u : UInt16} {c : Char} (h : u.toNat = c.toNat) : single u = c := by
  have hc := toNat_lt_or c
  have hplain : ¬ (isHigh u || isLow u) = true := by
    rw [Bool.or_eq_true, isHigh_iff, isLow_iff]
    omega
  rw [single, if_neg hplain, h, Char.ofNat_toNat]

/-- A unit that is a character by itself is read as that character. -/
theorem textAfter_single {seen : String} {u : UInt16} {c : Char} {rest : List UInt16}
    (h : u.toNat = c.toNat) : textAfter seen (u :: rest) = textAfter (seen.push c) rest := by
  have hc := toNat_lt_or c
  have hhigh : isHigh u = false := by
    rw [Bool.eq_false_iff, ne_eq, isHigh_iff]
    omega
  cases rest with
  | nil =>
    show seen.push (single u) = seen.push c
    rw [single_of_toNat h]
  | cons v rest =>
    rw [textAfter, single_of_toNat h]
    simp [hhigh]

/-- The units of a character are read as that character, whether one or two. -/
theorem textAfter_unitsOf (seen : String) (c : Char) (rest : List UInt16) :
    textAfter seen (unitsOf c ++ rest) = textAfter (seen.push c) rest := by
  have hc := toNat_lt_or c
  unfold unitsOf
  by_cases hsmall : c.toNat < 0x10000
  · -- the character is a single unit
    rw [if_pos hsmall]
    refine textAfter_single ?_
    rw [UInt16.toNat_ofNat']
    omega
  · -- the character is a pair of surrogates
    rw [if_neg hsmall]
    generalize hhigh : UInt16.ofNat (0xD800 + (c.toNat - 0x10000) / 0x400) = high
    generalize hlow : UInt16.ofNat (0xDC00 + (c.toNat - 0x10000) % 0x400) = low
    have hhighNat : high.toNat = 0xD800 + (c.toNat - 0x10000) / 0x400 := by
      rw [← hhigh, UInt16.toNat_ofNat']
      omega
    have hlowNat : low.toNat = 0xDC00 + (c.toNat - 0x10000) % 0x400 := by
      rw [← hlow, UInt16.toNat_ofNat']
      omega
    have hpair : (isHigh high && isLow low) = true := by
      rw [Bool.and_eq_true, isHigh_iff, isLow_iff]
      omega
    have hchar : paired high low = c := by
      have hsum : 0x10000 + (high.toNat - 0xD800) * 0x400 + (low.toNat - 0xDC00) = c.toNat := by
        omega
      rw [paired, hsum, Char.ofNat_toNat]
    rw [List.cons_append, List.cons_append, List.nil_append, textAfter, if_pos hpair, hchar]

/-- The units of some characters are read as these characters. -/
theorem textAfter_units (seen : String) (cs : List Char) :
    textAfter seen (cs.flatMap unitsOf) = seen ++ String.ofList cs := by
  induction cs generalizing seen with
  | nil => simp [textAfter]
  | cons c cs ih =>
    rw [List.flatMap_cons, textAfter_unitsOf, ih]
    apply String.toList_injective
    simp

/-- The units of a text spell the text. -/
theorem text_units (text : String) : Utf16.text (units text) = text := by
  rw [Utf16.text, units, textAfter_units]
  simp

end Utf16

-- ---------------------------------------------------------------------------
-- Units and bytes
-- ---------------------------------------------------------------------------

namespace Modified

theorem ofNat_inj {a b : Nat} (h : UInt8.ofNat a = UInt8.ofNat b) (ha : a < 256) (hb : b < 256) :
    a = b := by
  have hnat := congrArg UInt8.toNat h
  rw [UInt8.toNat_ofNat', UInt8.toNat_ofNat'] at hnat
  omega

theorem toNat_ofNat {n : Nat} (h : n < 256) : (UInt8.ofNat n).toNat = n := by
  rw [UInt8.toNat_ofNat']
  omega

theorem isContinuation_iff {b : UInt8} :
    isContinuation b = true ↔ 0x80 ≤ b.toNat ∧ b.toNat < 0xC0 := by
  simp [isContinuation, UInt8.le_iff_toNat_le, UInt8.lt_iff_toNat_lt]

/-! ### Reading one unit -/

section Steps

variable {position : Nat} {seen : Array UInt16} {a b c : UInt8} {rest : Bytes}

/-- A byte that stands alone is a unit. -/
theorem unitsAfter_one (ha : 0x01 ≤ a.toNat ∧ a.toNat ≤ 0x7F) :
    unitsAfter position seen (a :: rest) =
      unitsAfter (position + 1) (seen.push (join a.toNat [])) rest := by
  have hlead : 0x01 ≤ a ∧ a ≤ 0x7F := by
    simpa [UInt8.le_iff_toNat_le] using ha
  rw [unitsAfter.eq_def]
  simp only
  rw [if_pos hlead]

/-- Two bytes are a unit of eleven bits. -/
theorem unitsAfter_two (ha : 0xC0 ≤ a.toNat ∧ a.toNat ≤ 0xDF) (hb : isContinuation b = true) :
    unitsAfter position seen (a :: b :: rest) =
      unitsAfter (position + 2) (seen.push (join (a.toNat - 0xC0) [b])) rest := by
  have hone : ¬ (0x01 ≤ a ∧ a ≤ 0x7F) := by
    simp only [UInt8.le_iff_toNat_le, UInt8.reduceToNat]
    omega
  have hlead : 0xC0 ≤ a ∧ a ≤ 0xDF := by
    simpa [UInt8.le_iff_toNat_le] using ha
  rw [unitsAfter.eq_def]
  simp only
  rw [if_neg hone, if_pos hlead, if_pos hb]

/-- Three bytes are a unit of sixteen bits. -/
theorem unitsAfter_three (ha : 0xE0 ≤ a.toNat ∧ a.toNat ≤ 0xEF) (hb : isContinuation b = true)
    (hc : isContinuation c = true) :
    unitsAfter position seen (a :: b :: c :: rest) =
      unitsAfter (position + 3) (seen.push (join (a.toNat - 0xE0) [b, c])) rest := by
  have hone : ¬ (0x01 ≤ a ∧ a ≤ 0x7F) := by
    simp only [UInt8.le_iff_toNat_le, UInt8.reduceToNat]
    omega
  have htwo : ¬ (0xC0 ≤ a ∧ a ≤ 0xDF) := by
    simp only [UInt8.le_iff_toNat_le, UInt8.reduceToNat]
    omega
  have hlead : 0xE0 ≤ a ∧ a ≤ 0xEF := by
    simpa [UInt8.le_iff_toNat_le] using ha
  rw [unitsAfter.eq_def]
  simp only
  rw [if_neg hone, if_neg htwo, if_pos hlead, if_pos hb, if_pos hc]

end Steps

/-- Reading takes the bytes of one unit and goes on behind them. -/
theorem unitsAfter_encodeUnit (position : Nat) (seen : Array UInt16) (u : UInt16) (rest : Bytes) :
    unitsAfter position seen (encodeUnit u ++ rest) =
      unitsAfter (position + (encodeUnit u).length) (seen.push u) rest := by
  have hu := u.toNat_lt
  -- what is joined again is the number of the unit
  have hjoined : ∀ n, n = u.toNat → UInt16.ofNat n = u := by
    rintro n rfl
    exact UInt16.ofNat_toNat
  unfold encodeUnit
  simp only
  by_cases hone : 1 ≤ u.toNat ∧ u.toNat ≤ 0x7F
  · -- one byte, which zero is not
    have ha : (UInt8.ofNat u.toNat).toNat = u.toNat := toNat_ofNat (by omega)
    rw [if_pos hone, List.singleton_append, unitsAfter_one (by omega), join, ha,
      List.foldl_nil, hjoined _ rfl]
    rfl
  rw [if_neg hone]
  by_cases htwo : u.toNat ≤ 0x7FF
  · -- two bytes, zero among them
    have ha : (UInt8.ofNat (0xC0 + u.toNat / 0x40)).toNat = 0xC0 + u.toNat / 0x40 :=
      toNat_ofNat (by omega)
    have hb : (UInt8.ofNat (0x80 + u.toNat % 0x40)).toNat = 0x80 + u.toNat % 0x40 :=
      toNat_ofNat (by omega)
    rw [if_pos htwo, List.cons_append, List.singleton_append,
      unitsAfter_two (by omega) (isContinuation_iff.mpr (by omega)), join]
    simp only [List.foldl_cons, List.foldl_nil, ha, hb]
    rw [hjoined _ (by omega)]
    rfl
  · -- three bytes, also for a surrogate
    have ha : (UInt8.ofNat (0xE0 + u.toNat / 0x1000)).toNat = 0xE0 + u.toNat / 0x1000 :=
      toNat_ofNat (by omega)
    have hb : (UInt8.ofNat (0x80 + u.toNat / 0x40 % 0x40)).toNat = 0x80 + u.toNat / 0x40 % 0x40 :=
      toNat_ofNat (by omega)
    have hc : (UInt8.ofNat (0x80 + u.toNat % 0x40)).toNat = 0x80 + u.toNat % 0x40 :=
      toNat_ofNat (by omega)
    rw [if_neg htwo, List.cons_append, List.cons_append, List.singleton_append,
      unitsAfter_three (by omega) (isContinuation_iff.mpr (by omega))
        (isContinuation_iff.mpr (by omega)), join]
    simp only [List.foldl_cons, List.foldl_nil, ha, hb, hc]
    rw [hjoined _ (by omega)]
    rfl

/-- The slow path reads every sequence of units back. -/
theorem unitsAfter_encodeUnits (position : Nat) (seen : Array UInt16) (us : List UInt16) :
    unitsAfter position seen (encodeUnits us) = .ok (seen ++ us) := by
  induction us generalizing position seen with
  | nil => simp [encodeUnits, unitsAfter]
  | cons u us ih =>
    rw [encodeUnits, List.flatMap_cons, unitsAfter_encodeUnit]
    rw [encodeUnits] at ih
    rw [ih]
    simp

/-! ### The shortcut -/

/-- The three lengths of a written unit. -/
theorem encodeUnit_cases (u : UInt16) :
    (1 ≤ u.toNat ∧ u.toNat ≤ 0x7F ∧ encodeUnit u = [UInt8.ofNat u.toNat]) ∨
    (u.toNat ≤ 0x7FF ∧ encodeUnit u =
      [UInt8.ofNat (0xC0 + u.toNat / 0x40), UInt8.ofNat (0x80 + u.toNat % 0x40)]) ∨
    encodeUnit u = [UInt8.ofNat (0xE0 + u.toNat / 0x1000),
      UInt8.ofNat (0x80 + u.toNat / 0x40 % 0x40), UInt8.ofNat (0x80 + u.toNat % 0x40)] := by
  unfold encodeUnit
  simp only
  by_cases hone : 1 ≤ u.toNat ∧ u.toNat ≤ 0x7F
  · exact .inl ⟨hone.1, hone.2, if_pos hone⟩
  rw [if_neg hone]
  by_cases htwo : u.toNat ≤ 0x7FF
  · exact .inr (.inl ⟨htwo, if_pos htwo⟩)
  · exact .inr (.inr (if_neg htwo))

/-- The four lengths of a character in standard UTF-8. -/
theorem utf8EncodeChar_cases (c : Char) :
    (c.toNat ≤ 0x7F ∧ String.utf8EncodeChar c = [UInt8.ofNat c.toNat]) ∨
    (c.toNat ≤ 0x7FF ∧ String.utf8EncodeChar c =
      [UInt8.ofNat (c.toNat / 0x40 % 0x20 + 0xC0), UInt8.ofNat (c.toNat % 0x40 + 0x80)]) ∨
    (c.toNat ≤ 0xFFFF ∧ String.utf8EncodeChar c =
      [UInt8.ofNat (c.toNat / 0x1000 % 0x10 + 0xE0), UInt8.ofNat (c.toNat / 0x40 % 0x40 + 0x80),
        UInt8.ofNat (c.toNat % 0x40 + 0x80)]) ∨
    String.utf8EncodeChar c =
      [UInt8.ofNat (c.toNat / 0x40000 % 8 + 0xF0), UInt8.ofNat (c.toNat / 0x1000 % 0x40 + 0x80),
        UInt8.ofNat (c.toNat / 0x40 % 0x40 + 0x80), UInt8.ofNat (c.toNat % 0x40 + 0x80)] := by
  have hval : c.val.toNat = c.toNat := rfl
  unfold String.utf8EncodeChar
  simp only [hval]
  -- the bounds are tried in order, so each case knows the one before it has failed
  by_cases hone : c.toNat ≤ 0x7F
  · exact .inl ⟨hone, if_pos hone⟩
  rw [if_neg hone]
  by_cases htwo : c.toNat ≤ 0x7FF
  · exact .inr (.inl ⟨htwo, if_pos htwo⟩)
  rw [if_neg htwo]
  by_cases hthree : c.toNat ≤ 0xFFFF
  · exact .inr (.inr (.inl ⟨hthree, if_pos hthree⟩))
  · exact .inr (.inr (.inr (if_neg hthree)))

/-- A character in standard UTF-8 and a unit with the same bytes in front are
the same number. -/
theorem eq_of_utf8_eq {c : Char} {u : UInt16} {x y : Bytes}
    (h : String.utf8EncodeChar c ++ x = encodeUnit u ++ y) : u.toNat = c.toNat ∧ x = y := by
  have hu := u.toNat_lt
  rcases utf8EncodeChar_cases c with ⟨hc, hchar⟩ | ⟨hc, hchar⟩ | ⟨hc, hchar⟩ | hchar <;>
    rcases encodeUnit_cases u with ⟨hpos, hle, hunit⟩ | ⟨hle, hunit⟩ | hunit
  all_goals
    rw [hchar, hunit] at h
    simp only [List.cons_append, List.nil_append, List.cons.injEq] at h
    have hfirst := ofNat_inj h.1 (by omega) (by omega)
  -- the first bytes differ unless the lengths are the same
  all_goals try omega
  · exact ⟨hfirst.symm, h.2⟩
  · have hsecond := ofNat_inj h.2.1 (by omega) (by omega)
    exact ⟨by omega, h.2.2⟩
  · have hsecond := ofNat_inj h.2.1 (by omega) (by omega)
    have hthird := ofNat_inj h.2.2.1 (by omega) (by omega)
    exact ⟨by omega, h.2.2.2⟩

/-- Characters from 1 to `0x7F` take a byte each. -/
theorem length_encode_ascii {cs : List Char} (h : ∀ c ∈ cs, 1 ≤ c.toNat ∧ c.toNat ≤ 0x7F) :
    (encode (String.ofList cs)).length = cs.length := by
  unfold encode encodeUnits Utf16.units
  rw [String.toList_ofList]
  induction cs with
  | nil => rfl
  | cons c cs ih =>
    obtain ⟨hc, hcs⟩ := List.forall_mem_cons.mp h
    -- such a character is one unit, and the unit is one byte
    have hunit : Utf16.unitsOf c = [UInt16.ofNat c.toNat] := if_pos (by omega)
    have hnat : (UInt16.ofNat c.toNat).toNat = c.toNat := by
      rw [UInt16.toNat_ofNat']
      omega
    have hbyte : encodeUnit (UInt16.ofNat c.toNat) = [UInt8.ofNat c.toNat] := by
      unfold encodeUnit
      simp only [hnat]
      rw [if_pos hc]
    rw [List.flatMap_cons, hunit, List.singleton_append, List.flatMap_cons, hbyte,
      List.singleton_append, List.length_cons, ih hcs, List.length_cons]

theorem encodeUnit_ne_nil (u : UInt16) : encodeUnit u ≠ [] := by
  rcases encodeUnit_cases u with ⟨-, -, h⟩ | ⟨-, h⟩ | h <;> simp [h]

/-- Bytes in standard UTF-8 that are also the written form of units spell these units. -/
theorem textAfter_of_utf8_eq {cs : List Char} {us : List UInt16}
    (h : cs.flatMap String.utf8EncodeChar = encodeUnits us) (seen : String) :
    Utf16.textAfter seen us = seen ++ String.ofList cs := by
  -- character by character: each one has to be the single unit with its number
  induction cs generalizing us seen with
  | nil =>
    cases us with
    | nil => simp [Utf16.textAfter]
    | cons u us =>
      have hempty := List.append_eq_nil_iff.mp h.symm
      exact absurd hempty.1 (encodeUnit_ne_nil u)
  | cons c cs ih =>
    cases us with
    | nil =>
      have hempty := List.append_eq_nil_iff.mp h
      exact absurd hempty.1 String.utf8EncodeChar_ne_nil
    | cons u us =>
      rw [List.flatMap_cons, encodeUnits, List.flatMap_cons] at h
      obtain ⟨hu, hrest⟩ := eq_of_utf8_eq h
      rw [Utf16.textAfter_single hu, ih hrest]
      apply String.toList_injective
      simp

/-- Standard text is the text that is encoded as these bytes. -/
theorem standard?_eq_some {bytes : Bytes} {text : String} (h : standard? bytes = some text) :
    text.toList.flatMap String.utf8EncodeChar = bytes := by
  unfold standard? String.fromUTF8? at h
  split at h
  · rename_i hvalid
    have htext : text.toByteArray = ⟨bytes.toArray⟩ := by
      rw [← Option.some.inj h]
      rfl
    rw [← String.utf8Encode_toList, List.utf8Encode] at htext
    have hlist := congrArg (fun b : ByteArray => b.data.toList) htext
    simpa using hlist
  · cases h

/-- The written form of units is read as their text, whichever way it is read. -/
theorem decode_encodeUnits (us : List UInt16) :
    decode (encodeUnits us) = .ok (Utf16.text us) := by
  rw [decode]
  split
  · -- the bytes happen to be standard UTF-8
    rename_i text hstandard
    rw [Utf16.text, textAfter_of_utf8_eq (standard?_eq_some hstandard)]
    simp
  · rw [unitsAfter_encodeUnits]
    simp

/-- The written form of a text is read as the text. -/
theorem decode_encode (text : String) : decode (encode text) = .ok text := by
  rw [encode, decode_encodeUnits, Utf16.text_units]

/-- Reading a text passes bytes that decode as it. -/
theorem text_eq_ok {n : Nat} {c d : Cursor} {text : String} :
    Reader.text n c = .ok text d ↔
      ∃ bs : Bytes, bs.length = n ∧ decode bs = .ok text ∧ c.Passes bs d := by
  unfold Reader.text
  rw [bind_eq_ok]
  -- the bytes are taken first and decoded then
  constructor
  · rintro ⟨bs, m, htake, h⟩
    obtain ⟨hlength, hpasses⟩ := Reader.take_eq_ok.mp htake
    cases hdecode : decode bs with
    | ok text' =>
      rw [hdecode] at h
      obtain ⟨rfl, rfl⟩ := pure_eq_ok.mp h
      exact ⟨bs, hlength, hdecode, hpasses⟩
    | error fault =>
      rw [hdecode] at h
      exact absurd h throw_ne_ok
  · rintro ⟨bs, hlength, hdecode, hpasses⟩
    refine ⟨bs, d, Reader.take_eq_ok.mpr ⟨hlength, hpasses⟩, ?_⟩
    rw [hdecode]
    rfl

/-- Reading bytes that decode as a text, wherever they stand. -/
theorem reads_of_decode {bs : Bytes} {text : String} (h : decode bs = .ok text) :
    Reader.Reads (Reader.text bs.length) bs text :=
  fun _ _ hpasses => text_eq_ok.mpr ⟨bs, rfl, h, hpasses⟩

end Modified

end Backref
