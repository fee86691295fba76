import Backref.Descriptor.Parse
import Backref.Proofs.Descriptor.Grammar
import Backref.Proofs.Machine.Text

/-!
# Slices of texts

A text is sliced by positions in its bytes, and may be cut between characters
only. A byte that starts a character is told from one within it, and the byte
of a letter is found nowhere but where that letter stands; so a position that
reading has come to, and the position of a letter behind it, are good for a cut.

Main results:

* `textSlice_ahead` — the characters between two positions that reading comes
  to can be sliced out, and are what is sliced out;
* `findIdx?_utf8` — searching for the byte of a letter is searching for the letter.
-/

namespace Backref.Machine

open Descriptor Modified

-- ---------------------------------------------------------------------------
-- Characters as bytes
-- ---------------------------------------------------------------------------

/-- Characters in standard UTF-8. -/
def utf8 (cs : List Char) : Bytes := cs.flatMap String.utf8EncodeChar

theorem utf8_cons (c : Char) (cs : List Char) :
    utf8 (c :: cs) = String.utf8EncodeChar c ++ utf8 cs := rfl

theorem utf8_append (as bs : List Char) : utf8 (as ++ bs) = utf8 as ++ utf8 bs :=
  List.flatMap_append

theorem length_utf8 (cs : List Char) : (utf8 cs).length = byteLength cs := by
  rw [utf8, List.length_flatMap, byteLength]
  congr 1
  exact List.map_congr_left fun c _ => String.length_utf8EncodeChar c

/-- The bytes of characters are the text of these characters. -/
theorem standard?_utf8 (cs : List Char) : standard? (utf8 cs) = some (String.ofList cs) := by
  have hbytes : (⟨(utf8 cs).toArray⟩ : ByteArray) = cs.utf8Encode := by
    apply ByteArray.ext
    simp [utf8, List.utf8Encode]
  rw [standard?, hbytes, String.fromUTF8?, dif_pos ⟨cs, rfl⟩]
  rfl

-- ---------------------------------------------------------------------------
-- Letters
-- ---------------------------------------------------------------------------

/-- A character that takes one byte. All letters of descriptors do. -/
def IsAscii (c : Char) : Prop := c.toNat ≤ 0x7F

instance (c : Char) : Decidable (IsAscii c) := inferInstanceAs (Decidable (_ ≤ _))

/-- The byte that such a character is written as. -/
def asciiByte (c : Char) : UInt8 := UInt8.ofNat c.toNat

/-- The first byte of a character. -/
def lead (c : Char) : UInt8 := (String.utf8EncodeChar c).head String.utf8EncodeChar_ne_nil

/-- A character of ASCII is one byte. -/
theorem utf8EncodeChar_of_ascii {c : Char} (h : IsAscii c) :
    String.utf8EncodeChar c = [asciiByte c] := by
  simp [String.utf8EncodeChar, asciiByte, show c.toNat ≤ 0x7F from h]

/-- No byte of any other character is one of these, and its first byte starts
a character. -/
theorem bytes_of_not_ascii {c : Char} (h : ¬ IsAscii c) :
    0xC0 ≤ (lead c).toNat ∧ ∀ x ∈ String.utf8EncodeChar c, 0x80 ≤ x.toNat := by
  rw [IsAscii] at h
  unfold lead
  rcases utf8EncodeChar_cases c with ⟨hc, -⟩ | ⟨-, hc⟩ | ⟨-, hc⟩ | hc
  · exact absurd hc h
  all_goals
    simp only [hc, List.head_cons, List.mem_cons, List.not_mem_nil, or_false]
    constructor
    · rw [toNat_ofNat] <;> omega
    · rintro x (rfl | rfl | rfl | rfl) <;> rw [toNat_ofNat] <;> omega

theorem toNat_asciiByte {c : Char} (h : IsAscii c) : (asciiByte c).toNat = c.toNat := by
  rw [IsAscii] at h
  exact toNat_ofNat (by omega)

theorem asciiByte_inj {c d : Char} (hc : IsAscii c) (hd : IsAscii d)
    (h : asciiByte c = asciiByte d) : c = d := by
  have hnat := congrArg UInt8.toNat h
  rw [toNat_asciiByte hc, toNat_asciiByte hd] at hnat
  rw [← Char.ofNat_toNat c, hnat, Char.ofNat_toNat]

theorem lead_of_ascii {c : Char} (h : IsAscii c) : lead c = asciiByte c := by
  simp [lead, utf8EncodeChar_of_ascii h]

/-- The first byte of a character tells whether it is a given one of ASCII. -/
theorem lead_eq_iff {c d : Char} (hd : IsAscii d) : lead c = asciiByte d ↔ c = d := by
  constructor
  · intro h
    by_cases hc : IsAscii c
    · exact asciiByte_inj hc hd (lead_of_ascii hc ▸ h)
    · have hlead := (bytes_of_not_ascii hc).1
      rw [h, toNat_asciiByte hd] at hlead
      rw [IsAscii] at hd
      omega
  · rintro rfl
    exact lead_of_ascii hd

/-- The first byte of a character is none that goes on with one. -/
theorem isContinuation_lead (c : Char) : isContinuation (lead c) = false := by
  rw [Bool.eq_false_iff, ne_eq, isContinuation_iff]
  by_cases hc : IsAscii c
  · rw [lead_of_ascii hc, toNat_asciiByte hc]
    rw [IsAscii] at hc
    omega
  · have hlead := (bytes_of_not_ascii hc).1
    omega

/-- The byte of a letter is in no other character. -/
theorem asciiByte_not_mem {c d : Char} (hd : IsAscii d) (hne : c ≠ d) :
    asciiByte d ∉ String.utf8EncodeChar c := by
  intro hmem
  by_cases hc : IsAscii c
  · rw [utf8EncodeChar_of_ascii hc, List.mem_singleton] at hmem
    exact hne (asciiByte_inj hd hc hmem).symm
  · have hbyte := (bytes_of_not_ascii hc).2 _ hmem
    rw [toNat_asciiByte hd] at hbyte
    rw [IsAscii] at hd
    omega

/-- Searching for the byte of a letter is searching for the letter. -/
theorem findIdx?_utf8 {d : Char} (hd : IsAscii d) (cs : List Char) :
    (utf8 cs).findIdx? (· == asciiByte d) =
      match cs.dropWhile (· != d) with
      | [] => none
      | _ :: _ => some (byteLength (cs.takeWhile (· != d))) := by
  induction cs with
  | nil => rfl
  | cons c cs ih =>
    rw [utf8_cons]
    -- no other character has this byte among its own
    by_cases hc : c = d
    · subst hc
      simp [utf8EncodeChar_of_ascii hd, List.findIdx?_cons]
    · have hnone : (String.utf8EncodeChar c).findIdx? (· == asciiByte d) = none := by
        rw [List.findIdx?_eq_none_iff]
        intro x hx
        rw [beq_eq_false_iff_ne]
        rintro rfl
        exact asciiByte_not_mem hd hc hx
      have hskip : (c != d) = true := bne_iff_ne.mpr hc
      rw [List.findIdx?_append, hnone, ih, List.dropWhile_cons, List.takeWhile_cons, if_pos hskip,
        if_pos hskip, byteLength_cons, String.length_utf8EncodeChar]
      cases cs.dropWhile (· != d) with
      | nil => rfl
      | cons _ _ => simp [Nat.add_comm]

-- ---------------------------------------------------------------------------
-- Positions in a text
-- ---------------------------------------------------------------------------

/-- The characters ahead of a position in the bytes of a text. -/
def Ahead (text : String) (pos : Nat) (cs : List Char) : Prop :=
  ∃ before, before ++ cs = text.toList ∧ byteLength before = pos

/-- Whether a text may be cut at a position: at its ends, and where a
character starts. -/
def isBoundary (bytes : Bytes) (pos : Nat) : Bool :=
  pos == 0 || pos == bytes.length ||
    match bytes[pos]? with
    | some b => !isContinuation b
    | none => false

/-- The text of a range, which has to lie in a text the right way round and
to have both ends where it may be cut. -/
def textSlice (text : String) (start stop : Nat) : Except Halt String := do
  let bytes := utf8 text.toList
  let range ← slice bytes start stop
  if isBoundary bytes start && isBoundary bytes stop then
    match standard? range with
    | some part => return part
    | none => throw .panic
  else
    throw .panic

namespace Ahead

variable {text : String} {pos : Nat} {c : Char} {cs name : List Char}

theorem start (text : String) : Ahead text 0 text.toList := ⟨[], rfl, rfl⟩

/-- What lies behind some characters lies ahead behind their bytes. -/
theorem append (h : Ahead text pos (name ++ cs)) : Ahead text (pos + byteLength name) cs := by
  obtain ⟨before, htext, rfl⟩ := h
  exact ⟨before ++ name, by rw [List.append_assoc, htext], byteLength_append _ _⟩

theorem next (h : Ahead text pos (c :: cs)) (hc : IsAscii c) : Ahead text (pos + 1) cs := by
  have hsize : byteLength [c] = 1 := by
    rw [← length_utf8, utf8, List.flatMap_singleton, utf8EncodeChar_of_ascii hc]
    rfl
  have happend : Ahead text (pos + byteLength [c]) cs := append h
  rwa [hsize] at happend

/-- The bytes from here on are those of the characters ahead. -/
theorem drop_eq (h : Ahead text pos cs) : (utf8 text.toList).drop pos = utf8 cs := by
  obtain ⟨before, htext, rfl⟩ := h
  rw [← htext, utf8_append, ← length_utf8, List.drop_left]

theorem length_eq (h : Ahead text pos cs) :
    (utf8 text.toList).length = pos + (utf8 cs).length := by
  obtain ⟨before, htext, rfl⟩ := h
  rw [← htext, utf8_append, List.length_append, length_utf8]

/-- The byte right here is the first one of the next character. -/
theorem getElem?_eq (h : Ahead text pos cs) :
    (utf8 text.toList)[pos]? = cs.head?.map lead := by
  have hhead := congrArg List.head? h.drop_eq
  rw [List.head?_drop] at hhead
  rw [hhead]
  cases cs with
  | nil => rfl
  | cons c cs =>
    rw [utf8_cons, List.head?_append, List.head?_eq_some_head String.utf8EncodeChar_ne_nil]
    rfl

/-- No character has been cut in two here. -/
theorem isBoundary (h : Ahead text pos cs) : isBoundary (utf8 text.toList) pos = true := by
  unfold Machine.isBoundary
  rw [h.getElem?_eq]
  cases cs with
  | nil =>
    have hlength : (utf8 text.toList).length = pos := h.length_eq
    simp [hlength]
  | cons c cs => simp [isContinuation_lead]

end Ahead

/-- The characters between two positions that reading comes to can be sliced out. -/
theorem textSlice_ahead {text : String} {pos : Nat} {name cs : List Char}
    (h : Ahead text pos (name ++ cs)) :
    textSlice text pos (pos + byteLength name) = .ok (String.ofList name) := by
  have hlength := h.length_eq
  rw [utf8_append, List.length_append, length_utf8 name] at hlength
  rw [textSlice, slice_eq_ok ⟨by omega, by omega⟩, except_ok_bind, h.isBoundary,
    h.append.isBoundary, h.drop_eq, Nat.add_sub_cancel_left, utf8_append, ← length_utf8 name,
    List.take_left, standard?_utf8]
  rfl

/-- A text cannot be cut within a character. -/
example : textSlice "Lé;" 1 2 = .error .panic := rfl

end Backref.Machine
