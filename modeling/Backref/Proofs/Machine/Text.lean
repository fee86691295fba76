import Backref.Proofs.Machine.Parser
import Backref.Proofs.Text.RoundTrip

/-!
# Text with partial operations

A text that is not in standard UTF-8 is decoded with an index into its bytes,
which moves on by one, two or three. The index stays within the bytes: it
moves over what has been looked at only.

Main results:

* `decodeUnits_eq` — decoding with an index comes to what decoding from the
  front comes to;
* `implements_readText` — a text that is read has no more characters than bytes.
-/

namespace Backref

namespace Utf16

/-- There is a unit at least to each character. -/
theorem length_textAfter (seen : String) (us : List UInt16) :
    (textAfter seen us).toList.length ≤ seen.toList.length + us.length := by
  fun_induction textAfter seen us with
  | case1 => simp
  | case2 => simp
  | case3 seen u v rest _ ih =>
    rw [String.toList_push, List.length_append] at ih
    simp only [List.length_cons, List.length_nil] at ih ⊢
    omega
  | case4 seen u v rest _ ih =>
    rw [String.toList_push, List.length_append] at ih
    simp only [List.length_cons, List.length_nil] at ih ⊢
    omega

end Utf16

namespace Machine

open Modified

-- ---------------------------------------------------------------------------
-- Decoding with an index
-- ---------------------------------------------------------------------------

/-- The byte at an index behind a lead byte. -/
def continuation (bytes : Bytes) (index : Nat) : Except Halt UInt8 :=
  match bytes[index]? with
  | some b =>
    if isContinuation b then .ok b else .error (.fault (.malformed (.continuationByte b index)))
  | none => .error (.fault .outOfBounds)

/-- The unit at an index, with the number of bytes that it takes. -/
def readUnit (bytes : Bytes) (index : Nat) : Except Halt (UInt16 × Nat) := do
  let lead ← byteAt bytes index
  if 0x01 ≤ lead ∧ lead ≤ 0x7F then
    return (join lead.toNat [], 1)
  else if 0xC0 ≤ lead ∧ lead ≤ 0xDF then
    let second ← continuation bytes (← add index 1)
    return (join (lead.toNat - 0xC0) [second], 2)
  else if 0xE0 ≤ lead ∧ lead ≤ 0xEF then
    let second ← continuation bytes (← add index 1)
    let third ← continuation bytes (← add index 2)
    return (join (lead.toNat - 0xE0) [second, third], 3)
  else
    throw (.fault (.malformed (.leadByte lead index)))

/-- One round of decoding, from an index and the units before it. -/
def decodeRound {σ : Type} (bytes : Bytes) (s : Nat × Array UInt16) :
    EStateM Halt σ ((Nat × Array UInt16) ⊕ Array UInt16) := do
  if s.1 < bytes.length then
    let (unit, width) ← check (readUnit bytes s.1)
    let index ← check (add s.1 width)
    return .inl (index, s.2.push unit)
  else
    return .inr s.2

/-- Decodes units. -/
def decodeUnits {σ : Type} (bytes : Bytes) : EStateM Halt σ (Array UInt16) :=
  rounds (fun s _ => bytes.length - s.1) (decodeRound bytes) (0, #[])

section Decoding

variable {bytes : Bytes} {index : Nat}

/-- Either the byte at an index belongs to a unit, or decoding ends there, with
an index as from the front. -/
theorem continuation_cases (bytes : Bytes) (index : Nat) :
    (∃ b, index < bytes.length ∧ continuation bytes index = .ok b ∧
      bytes.drop index = b :: bytes.drop (index + 1) ∧ isContinuation b = true) ∨
    ∃ f, continuation bytes index = .error (.fault f) ∧
      ∀ next : UInt8 → Bytes → Except Fault (Array UInt16),
        (match bytes.drop index with
        | [] => .error .outOfBounds
        | b :: rest =>
          if isContinuation b then next b rest
          else .error (.malformed (.continuationByte b index)) : Except _ _) = .error f := by
  unfold continuation
  -- the byte is missing, is no continuation, or is the one that is asked for
  by_cases h : index < bytes.length
  · rw [List.getElem?_eq_getElem h, List.drop_eq_getElem_cons h]
    simp only
    by_cases hb : isContinuation bytes[index] = true
    · exact .inl ⟨bytes[index], h, if_pos hb, rfl, hb⟩
    · exact .inr ⟨_, if_neg hb, fun next => if_neg hb⟩
  · rw [List.getElem?_eq_none (Nat.le_of_not_lt h), List.drop_eq_nil_of_le (Nat.le_of_not_lt h)]
    exact .inr ⟨_, rfl, fun _ => rfl⟩

/-- The unit at an index is decoded as it is from the front, and lies within
the bytes. -/
theorem readUnit_cases (hlength : bytes.length < wordLimit) (hindex : index < bytes.length) :
    (∃ u w, readUnit bytes index = .ok (u, w) ∧ 0 < w ∧ index + w ≤ bytes.length ∧
      ∀ seen, unitsAfter index seen (bytes.drop index) =
        unitsAfter (index + w) (seen.push u) (bytes.drop (index + w))) ∨
    ∃ f, readUnit bytes index = .error (.fault f) ∧
      ∀ seen, unitsAfter index seen (bytes.drop index) = .error f := by
  have hlead : byteAt bytes index = .ok bytes[index] := by
    rw [byteAt, List.getElem?_eq_getElem hindex]
  have hadd : add index 1 = .ok (index + 1) := add_eq_ok (by omega)
  rw [List.drop_eq_getElem_cons hindex]
  generalize bytes[index] = a at hlead
  simp only [readUnit, hlead, hadd, except_ok_bind, unitsAfter.eq_def _ _ (a :: _)]
  -- the first byte says how many there are; the ranges are tried in the same order
  by_cases h1 : 0x01 ≤ a ∧ a ≤ 0x7F
  · simp only [if_pos h1]
    exact .inl ⟨_, 1, rfl, by omega, hindex, fun _ => rfl⟩
  simp only [if_neg h1]
  by_cases h2 : 0xC0 ≤ a ∧ a ≤ 0xDF
  · simp only [if_pos h2]
    rcases continuation_cases bytes (index + 1) with ⟨b, hlt, hb, hdrop, hcont⟩ | ⟨f, hb, hfault⟩
    · rw [hb, hdrop]
      simp only [if_pos hcont]
      exact .inl ⟨_, 2, rfl, by omega, hlt, fun _ => rfl⟩
    · rw [hb]
      exact .inr ⟨f, rfl, fun _ => hfault _⟩
  simp only [if_neg h2]
  by_cases h3 : 0xE0 ≤ a ∧ a ≤ 0xEF
  · simp only [if_pos h3]
    rcases continuation_cases bytes (index + 1) with ⟨b, hlt, hb, hdrop, hcont⟩ | ⟨f, hb, hfault⟩
    · have hadd' : add index 2 = .ok (index + 2) := add_eq_ok (by omega)
      rw [hb, hdrop]
      simp only [if_pos hcont, hadd', except_ok_bind]
      rcases continuation_cases bytes (index + 2) with ⟨c, hlt, hc, hdrop, hcont⟩ | ⟨f, hc, hfault⟩
      · rw [hc, hdrop]
        simp only [if_pos hcont]
        exact .inl ⟨_, 3, rfl, by omega, hlt, fun _ => rfl⟩
      · rw [hc]
        exact .inr ⟨f, rfl, fun _ => hfault _⟩
    · rw [hb]
      exact .inr ⟨f, rfl, fun _ => hfault _⟩
  simp only [if_neg h3]
  exact .inr ⟨_, rfl, fun _ => rfl⟩

/-- Decoding from an index on, within which the units before it do not matter. -/
theorem rounds_decode {σ : Type} (hlength : bytes.length < wordLimit)
    (hindex : index ≤ bytes.length) (seen : Array UInt16) (s : σ) :
    rounds (fun t _ => bytes.length - t.1) (decodeRound bytes) (index, seen) s =
      check (total (unitsAfter index seen (bytes.drop index))) s := by
  -- each round moves the index closer to the end of the bytes
  induction hleft : bytes.length - index using Nat.strongRecOn generalizing index seen with
  | _ n ih =>
    by_cases hmore : index < bytes.length
    · rcases readUnit_cases hlength hmore with ⟨u, w, hunit, hw, hend, hstep⟩ | ⟨f, hunit, hstep⟩
      · have hadd : add index w = .ok (index + w) := add_eq_ok (by omega)
        have hround : decodeRound bytes (index, seen) s =
            .ok (.inl (index + w, seen.push u)) s := by
          rw [decodeRound]
          simp only [if_pos hmore, hunit, hadd, check_ok_bind]
          rfl
        rw [rounds_next hround (by simp only; omega), hstep,
          ih (bytes.length - (index + w)) (by omega) hend _ rfl]
      · have hround : decodeRound bytes (index, seen) s = .error (.fault f) s := by
          rw [decodeRound]
          simp only [if_pos hmore, hunit]
          rfl
        rw [rounds_halt hround, hstep]
        rfl
    · have hround : decodeRound bytes (index, seen) s = .ok (.inr seen) s := by
        rw [decodeRound]
        simp only [if_neg hmore]
        rfl
      rw [rounds_done hround, List.drop_eq_nil_of_le (by omega), unitsAfter]
      rfl

/-- Decoding with an index comes to what decoding from the front comes to. -/
theorem decodeUnits_eq {σ : Type} (hlength : bytes.length < wordLimit) :
    (decodeUnits bytes : EStateM Halt σ _) = check (total (unitsAfter 0 #[] bytes)) := by
  funext s
  exact rounds_decode hlength (Nat.zero_le _) #[] s

end Decoding

-- ---------------------------------------------------------------------------
-- Reading texts
-- ---------------------------------------------------------------------------

/-- Reads a text of `n` bytes. -/
def readText (n : Nat) : Parsing String := do
  let bytes ← Parsing.readBytes n
  match standard? bytes with
  | some text => return text
  | none => return Utf16.text (← decodeUnits bytes).toList

/-- There is a byte at least to each unit. -/
theorem size_of_unitsAfter {position : Nat} {seen us : Array UInt16} {bytes : Bytes}
    (h : unitsAfter position seen bytes = .ok us) : us.size ≤ seen.size + bytes.length := by
  fun_induction unitsAfter position seen bytes <;> simp_all
  all_goals omega

/-- There is a byte at least to each character of standard UTF-8. -/
theorem length_le_utf8 (cs : List Char) :
    cs.length ≤ (cs.flatMap String.utf8EncodeChar).length := by
  induction cs with
  | nil => exact Nat.le_refl _
  | cons c cs ih =>
    have hpos : 0 < (String.utf8EncodeChar c).length :=
      List.length_pos_iff.mpr String.utf8EncodeChar_ne_nil
    rw [List.flatMap_cons, List.length_append, List.length_cons]
    omega

/-- There is a byte at least to each character. -/
theorem length_of_decode {bytes : Bytes} {text : String} (h : Modified.decode bytes = .ok text) :
    text.toList.length ≤ bytes.length := by
  unfold Modified.decode at h
  -- a standard text has as many characters as bytes at most, and so has a list of units
  split at h
  · rename_i standard hstandard
    cases h
    rw [← standard?_eq_some hstandard]
    exact length_le_utf8 _
  · split at h
    · rename_i us hunits
      cases h
      have hsize := size_of_unitsAfter hunits
      have hlength := Utf16.length_textAfter "" us.toList
      rw [Utf16.text]
      simp at hsize hlength ⊢
      omega
    · cases h

/-- A text is read as it is decoded, and has no more characters than bytes. -/
theorem implements_readText {n : Nat} (hn : n < wordLimit) :
    Implements (readText n) (Reader.text n) fun text => text.toList.length ≤ n := by
  unfold readText Reader.text
  refine .bind (implements_readBytes n) fun bytes hlength => ?_
  have hshort : ∀ text, Modified.decode bytes = .ok text → text.toList.length ≤ n :=
    fun text htext => hlength ▸ length_of_decode htext
  rw [decodeUnits_eq (hlength ▸ hn)]
  unfold Modified.decode at hshort ⊢
  -- standard text is accepted at once; anything else is read unit by unit
  cases hstandard : standard? bytes with
  | some text =>
    rw [hstandard] at hshort
    exact .pure (hshort text rfl)
  | none =>
    rw [hstandard] at hshort
    cases hunits : unitsAfter 0 #[] bytes with
    | ok us =>
      rw [hunits] at hshort
      exact .pure (hshort _ rfl)
    | error fault => exact .throw fault

end Machine

end Backref
