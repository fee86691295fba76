import Backref.Proofs.Text.Forms

/-!
# Bytes that no written text has

A zero byte and the bytes from `0xF0` on are in the form of no unit. Reading
units refuses them, but bytes that are standard UTF-8 as a whole are taken as
such before anything looks for units, and these may have zeros, or start the
four bytes of a character with one from `0xF0` on.

Main results:

* `Modified.Form.not_foreign` — no form of a unit has such a byte;
* `Modified.not_foreign_of_unitsAfter` — reading units refuses such a byte,
  wherever it is;
* `Modified.standard?_iff` — what is taken as standard UTF-8;
* `Modified.text_of_foreign` — a text with such a byte is read if it is
  standard UTF-8, and refused otherwise.
-/

namespace Backref.Modified

/-- A byte that no text is written with: zero, or one from `0xF0` on. -/
def Foreign (b : UInt8) : Prop := b = 0x00 ∨ 0xF0 ≤ b

instance (b : UInt8) : Decidable (Foreign b) := inferInstanceAs (Decidable (b = 0x00 ∨ 0xF0 ≤ b))

/-- A foreign byte is zero or one that starts four bytes. -/
theorem foreign_iff {b : UInt8} : Foreign b ↔ b.toNat = 0 ∨ 0xF0 ≤ b.toNat := by
  rw [Foreign, ← UInt8.toNat_inj, UInt8.le_iff_toNat_le]
  rfl

theorem Form.not_foreign {u : UInt16} {bs : Bytes} (h : Form u bs) {b : UInt8} (hb : b ∈ bs) :
    ¬ Foreign b := by
  have hrange := h.mem_range hb
  rw [foreign_iff]
  omega

/-- No continuation byte is foreign. -/
theorem not_foreign_of_isContinuation {b : UInt8} (h : isContinuation b = true) :
    ¬ Foreign b := by
  rw [isContinuation_iff] at h
  rw [foreign_iff]
  omega

theorem not_foreign_of_mem_range {low high b : UInt8} (h : low ≤ b ∧ b ≤ high)
    (hlow : 0 < low.toNat) (hhigh : high.toNat < 0xF0) : ¬ Foreign b := by
  rw [UInt8.le_iff_toNat_le, UInt8.le_iff_toNat_le] at h
  rw [foreign_iff]
  omega

/-- Where units are read to the end, each byte is one that a form can have. -/
theorem not_foreign_of_unitsAfter {position : Nat} {seen us : Array UInt16} {bs : Bytes}
    (h : unitsAfter position seen bs = .ok us) : ∀ b ∈ bs, ¬ Foreign b := by
  fun_induction unitsAfter position seen bs with
  | case1 => simp
  | case2 position seen a rest ha ih =>
    exact List.forall_mem_cons.mpr
      ⟨not_foreign_of_mem_range ha (by decide) (by decide), ih h⟩
  | case4 position seen a _ ha b rest hb ih =>
    refine List.forall_mem_cons.mpr ⟨not_foreign_of_mem_range ha (by decide) (by decide), ?_⟩
    exact List.forall_mem_cons.mpr ⟨not_foreign_of_isContinuation hb, ih h⟩
  | case8 position seen a _ _ ha b hb c rest hc ih =>
    refine List.forall_mem_cons.mpr ⟨not_foreign_of_mem_range ha (by decide) (by decide), ?_⟩
    refine List.forall_mem_cons.mpr ⟨not_foreign_of_isContinuation hb, ?_⟩
    exact List.forall_mem_cons.mpr ⟨not_foreign_of_isContinuation hc, ih h⟩
  | _ => cases h

/-- The bytes of a text in standard UTF-8. -/
def standardBytes (text : String) : Bytes := text.toUTF8.data.toList

/-- What is taken as a text in standard UTF-8. -/
theorem standard?_iff {bytes : Bytes} {text : String} :
    standard? bytes = some text ↔ standardBytes text = bytes := by
  unfold standard? String.fromUTF8?
  constructor
  · intro h
    split at h
    · rename_i hvalid
      rw [← Option.some.inj h]
      exact List.toList_toArray
    · cases h
  · rintro rfl
    have hbytes : (⟨(standardBytes text).toArray⟩ : ByteArray) = text.toByteArray :=
      ByteArray.ext Array.toArray_toList
    rw [hbytes, dif_pos text.isValidUTF8]
    rfl

/-- Every way in which reading units fails is a fault of the input. -/
theorem unitsAfter_eq_error {position : Nat} {seen : Array UInt16} {bs : Bytes} {fault : Fault}
    (h : unitsAfter position seen bs = .error fault) :
    fault = .outOfBounds ∨ ∃ cause, fault = .malformed cause := by
  fun_induction unitsAfter position seen bs with
  | case1 => cases h
  | case2 _ _ _ _ _ ih | case4 _ _ _ _ _ _ _ _ ih | case8 _ _ _ _ _ _ _ _ _ _ _ ih => exact ih h
  | case3 | case6 | case7 =>
    cases h
    exact .inl rfl
  | _ =>
    cases h
    exact .inr ⟨_, rfl⟩

/-- A text with a byte that no form has is read if its bytes are a text in
standard UTF-8, as that text, and refused otherwise, whatever else is in it and
wherever it stands. -/
theorem text_of_foreign {c d : Cursor} {bytes : Bytes} {b : UInt8} (hpasses : c.Passes bytes d)
    (hmem : b ∈ bytes) (hforeign : Foreign b) :
    (∃ text, standardBytes text = bytes ∧ Reader.text bytes.length c = .ok text d) ∨
    ((∀ text, standardBytes text ≠ bytes) ∧
      ∃ fault, Reader.text bytes.length c = .error fault d ∧
        (fault = .outOfBounds ∨ ∃ cause, fault = .malformed cause)) := by
  have htake := Reader.take_eq_ok.mpr ⟨rfl, hpasses⟩
  rw [Reader.text, bind_of_ok _ htake, decode]
  -- the shortcut takes standard text as it is; the slow path refuses the byte
  cases hstandard : standard? bytes with
  | some text => exact .inl ⟨text, standard?_iff.mp hstandard, rfl⟩
  | none =>
    refine .inr ⟨fun text htext => ?_, ?_⟩
    · rw [standard?_iff.mpr htext] at hstandard
      cases hstandard
    · cases hunits : unitsAfter 0 #[] bytes with
      | ok us => exact absurd hforeign (not_foreign_of_unitsAfter hunits b hmem)
      | error fault => exact ⟨fault, rfl, unitsAfter_eq_error hunits⟩

/-- A zero in front of a zero in its own form: the two bytes behind are no
standard UTF-8, so the byte in front of them is refused. -/
theorem text_of_zeros :
    ∃ fault d, Reader.text 3 (Cursor.ofBytes [0x00, 0xC0, 0x80]) = .error fault d ∧
      (fault = .outOfBounds ∨ ∃ cause, fault = .malformed cause) := by
  obtain ⟨d, hpasses, -⟩ := Cursor.ofBytes_passes [0x00, 0xC0, 0x80]
  rcases text_of_foreign hpasses (b := 0x00) (by decide) (by decide) with
    ⟨text, htext, -⟩ | ⟨-, fault, hfault⟩
  · have hnone : standard? [0x00, 0xC0, 0x80] = none := by decide +kernel
    rw [standard?_iff.mpr htext] at hnone
    cases hnone
  · exact ⟨fault, d, hfault⟩

/-- Not every text with such a byte is refused: a zero byte by itself is
standard UTF-8, and is read as the character zero. -/
theorem not_refused_of_foreign :
    ¬ ∀ bytes : Bytes, (∃ b ∈ bytes, Foreign b) →
      ∃ fault, (Reader.text bytes.length).run bytes = .error fault := by
  have hzero : (Reader.text 1).run [0x00] = .ok "\x00" := by decide +kernel
  intro h
  obtain ⟨fault, hfault⟩ := h [0x00] ⟨0x00, by decide, by decide⟩
  cases hzero.symm.trans hfault

end Backref.Modified
