import Backref.Constant.Pool
import Backref.Proofs.Text.RoundTrip

/-!
# How constants are laid out

The bytes of a constant, stated without a reader: the byte that tells its kind,
and behind it numbers and indices of fixed widths, or a text with the number of
its bytes. The bytes of a pool are the number of its slots and those of its
constants in order.

Main results:

* `Constant.read_eq_ok` — reading succeeds exactly on the laid out constants, and
  passes exactly their bytes;
* `ConstantPool.read_eq_ok` — and so it does on pools, where the constants fill
  the slots.
-/

namespace Backref

open Cursor Reader

-- ---------------------------------------------------------------------------
-- Constants
-- ---------------------------------------------------------------------------

namespace Constant

/-- The bytes of a constant. A text may be spelled by any bytes that decode as it. -/
inductive Laid : Constant → Bytes → Prop
  | utf8 {text : String} {payload : Bytes} (hcount : payload.length ≤ countLimit)
      (htext : Modified.decode payload = .ok text) :
      Laid (.utf8 text) (1 :: (FixedWidth.encode (UInt16.ofNat payload.length) ++ payload))
  | integer (value : Int32) : Laid (.integer value) (3 :: FixedWidth.encode value)
  | float (bits : UInt32) : Laid (.float bits) (4 :: FixedWidth.encode bits)
  | long (value : Int64) : Laid (.long value) (5 :: FixedWidth.encode value)
  | double (bits : UInt64) : Laid (.double bits) (6 :: FixedWidth.encode bits)
  | classInfo (name : UInt16) : Laid (.classInfo name) (7 :: FixedWidth.encode name)
  | string (text : UInt16) : Laid (.string text) (8 :: FixedWidth.encode text)
  | fieldRef (owner signature : UInt16) :
      Laid (.memberRef .field owner signature)
        (9 :: (FixedWidth.encode owner ++ FixedWidth.encode signature))
  | methodRef (owner signature : UInt16) :
      Laid (.memberRef .method owner signature)
        (10 :: (FixedWidth.encode owner ++ FixedWidth.encode signature))
  | interfaceMethodRef (owner signature : UInt16) :
      Laid (.memberRef .interfaceMethod owner signature)
        (11 :: (FixedWidth.encode owner ++ FixedWidth.encode signature))
  | nameAndType (name descriptor : UInt16) :
      Laid (.nameAndType name descriptor)
        (12 :: (FixedWidth.encode name ++ FixedWidth.encode descriptor))
  | methodHandle (kind : UInt8) (member : UInt16) :
      Laid (.methodHandle kind member)
        (15 :: (FixedWidth.encode kind ++ FixedWidth.encode member))
  | methodType (descriptor : UInt16) :
      Laid (.methodType descriptor) (16 :: FixedWidth.encode descriptor)
  | dynamic (bootstrap signature : UInt16) :
      Laid (.dynamic bootstrap signature)
        (17 :: (FixedWidth.encode bootstrap ++ FixedWidth.encode signature))
  | invokeDynamic (bootstrap signature : UInt16) :
      Laid (.invokeDynamic bootstrap signature)
        (18 :: (FixedWidth.encode bootstrap ++ FixedWidth.encode signature))
  | moduleInfo (name : UInt16) : Laid (.moduleInfo name) (19 :: FixedWidth.encode name)
  | packageInfo (name : UInt16) : Laid (.packageInfo name) (20 :: FixedWidth.encode name)

/-! ### What has been laid out is read -/

theorem reads_one {α : Type} [FixedWidth α] (f : α → Constant) (a : α) :
    Reads (do return f (← int α)) (FixedWidth.encode a) (f a) :=
  (Reads.int a).bindPure rfl

theorem reads_two {α β : Type} [FixedWidth α] [FixedWidth β] (f : α → β → Constant) (a : α)
    (b : β) :
    Reads (do return f (← int α) (← int β)) (FixedWidth.encode a ++ FixedWidth.encode b)
      (f a b) :=
  (Reads.int a).bind (reads_one (f a) b)

theorem reads_text {text : String} {payload : Bytes} (hcount : payload.length ≤ countLimit)
    (htext : Modified.decode payload = .ok text) :
    Reads (do return utf8 (← Reader.text (← int UInt16).toNat))
      (FixedWidth.encode (UInt16.ofNat payload.length) ++ payload) (utf8 text) := by
  refine (Reads.int _).bind ?_
  rw [toNat_ofNat_count hcount]
  exact (Modified.reads_of_decode htext).bindPure rfl

/-- A constant is read if its parts are, behind the tag of its kind. -/
theorem reads_of_parts (kind : Kind) {k : Constant} {parts : Bytes}
    (h : Reads (readParts kind) parts k) (index : Nat) :
    Reads (Constant.read index) (kind.tag :: parts) k := by
  have htag : FixedWidth.encode kind.tag ++ parts = kind.tag :: parts := by
    rw [FixedWidth.encode_byte]
    rfl
  rw [← htag]
  refine (Reads.int _).bind ?_
  rw [Kind.ofTag?_tag]
  exact h

/-- A constant that is laid out is read, at whatever index. -/
theorem reads_of_laid {k : Constant} {bs : Bytes} (h : Laid k bs) (index : Nat) :
    Reads (Constant.read index) bs k := by
  -- each kind has a number, two numbers or a text, and a reader to match
  cases h with
  | utf8 hcount htext => exact reads_of_parts .utf8 (reads_text hcount htext) index
  | integer value => exact reads_of_parts .integer (reads_one integer value) index
  | float bits => exact reads_of_parts .float (reads_one float bits) index
  | long value => exact reads_of_parts .long (reads_one long value) index
  | double bits => exact reads_of_parts .double (reads_one double bits) index
  | classInfo name => exact reads_of_parts .classInfo (reads_one classInfo name) index
  | string text => exact reads_of_parts .string (reads_one string text) index
  | fieldRef owner signature =>
    exact reads_of_parts .fieldRef (reads_two (memberRef .field) owner signature) index
  | methodRef owner signature =>
    exact reads_of_parts .methodRef (reads_two (memberRef .method) owner signature) index
  | interfaceMethodRef owner signature =>
    exact reads_of_parts .interfaceMethodRef
      (reads_two (memberRef .interfaceMethod) owner signature) index
  | nameAndType name descriptor =>
    exact reads_of_parts .nameAndType (reads_two nameAndType name descriptor) index
  | methodHandle kind member =>
    exact reads_of_parts .methodHandle (reads_two methodHandle kind member) index
  | methodType descriptor =>
    exact reads_of_parts .methodType (reads_one methodType descriptor) index
  | dynamic bootstrap signature =>
    exact reads_of_parts .dynamic (reads_two dynamic bootstrap signature) index
  | invokeDynamic bootstrap signature =>
    exact reads_of_parts .invokeDynamic (reads_two invokeDynamic bootstrap signature) index
  | moduleInfo name => exact reads_of_parts .moduleInfo (reads_one moduleInfo name) index
  | packageInfo name => exact reads_of_parts .packageInfo (reads_one packageInfo name) index

/-! ### What is read has been laid out -/

section Parts

variable {tag : UInt8} {c d : Cursor} {k : Constant}

/-- What a constant of one number has been read from is laid out as it. -/
theorem exists_laid_of_one {α : Type} [FixedWidth α] {f : α → Constant}
    (hlaid : ∀ a, Laid (f a) (tag :: FixedWidth.encode a))
    (h : (do return f (← int α) : Reader Constant) c = .ok k d) :
    ∃ bs, Laid k (tag :: bs) ∧ c.Passes bs d := by
  obtain ⟨_, ⟨a, rfl, rfl⟩, hpasses⟩ := readOne_eq_ok.mp h
  exact ⟨_, hlaid a, hpasses⟩

theorem exists_laid_of_two {α β : Type} [FixedWidth α] [FixedWidth β] {f : α → β → Constant}
    (hlaid : ∀ a b, Laid (f a b) (tag :: (FixedWidth.encode a ++ FixedWidth.encode b)))
    (h : (do return f (← int α) (← int β) : Reader Constant) c = .ok k d) :
    ∃ bs, Laid k (tag :: bs) ∧ c.Passes bs d := by
  obtain ⟨_, ⟨a, b, rfl, rfl⟩, hpasses⟩ := readTwo_eq_ok.mp h
  exact ⟨_, hlaid a b, hpasses⟩

theorem exists_laid_of_text
    (h : (do return utf8 (← Reader.text (← int UInt16).toNat) : Reader Constant) c = .ok k d) :
    ∃ bs, Laid k (1 :: bs) ∧ c.Passes bs d := by
  obtain ⟨count, m, hcount, h⟩ := bind_eq_ok.mp h
  obtain ⟨text, m', htext, h⟩ := bind_eq_ok.mp h
  obtain ⟨rfl, rfl⟩ := pure_eq_ok.mp h
  obtain ⟨payload, hlength, hdecode, hpasses⟩ := Modified.text_eq_ok.mp htext
  have hlimit : payload.length ≤ countLimit := by
    rw [hlength, countLimit]
    exact Nat.le_of_lt_succ count.toNat_lt
  refine ⟨_, .utf8 hlimit hdecode, passes_append.mpr ⟨m, ?_, hpasses⟩⟩
  rw [hlength, UInt16.ofNat_toNat]
  exact int_eq_ok.mp hcount

/-- What the parts of a constant have been read from is laid out as them. -/
theorem exists_laid_of_readParts {kind : Kind} (h : readParts kind c = .ok k d) :
    ∃ bs, Laid k (kind.tag :: bs) ∧ c.Passes bs d := by
  -- the same kinds the other way round
  cases kind with
  | utf8 => exact exists_laid_of_text h
  | integer => exact exists_laid_of_one .integer h
  | float => exact exists_laid_of_one .float h
  | long => exact exists_laid_of_one .long h
  | double => exact exists_laid_of_one .double h
  | classInfo => exact exists_laid_of_one .classInfo h
  | string => exact exists_laid_of_one .string h
  | fieldRef => exact exists_laid_of_two .fieldRef h
  | methodRef => exact exists_laid_of_two .methodRef h
  | interfaceMethodRef => exact exists_laid_of_two .interfaceMethodRef h
  | nameAndType => exact exists_laid_of_two .nameAndType h
  | methodHandle => exact exists_laid_of_two .methodHandle h
  | methodType => exact exists_laid_of_one .methodType h
  | dynamic => exact exists_laid_of_two .dynamic h
  | invokeDynamic => exact exists_laid_of_two .invokeDynamic h
  | moduleInfo => exact exists_laid_of_one .moduleInfo h
  | packageInfo => exact exists_laid_of_one .packageInfo h

end Parts

/-- Reading a constant succeeds exactly on the laid out ones. -/
theorem read_eq_ok {index : Nat} {c d : Cursor} {k : Constant} :
    Constant.read index c = .ok k d ↔ ∃ bs, Laid k bs ∧ c.Passes bs d := by
  constructor
  · intro h
    obtain ⟨tag, m, htag, h⟩ := bind_eq_ok.mp h
    -- a tag that stands for no kind is malformed
    cases hkind : Kind.ofTag? tag with
    | none =>
      rw [hkind] at h
      exact absurd h malformed_ne_ok
    | some kind =>
      rw [hkind] at h
      obtain ⟨bs, hlaid, hpasses⟩ := exists_laid_of_readParts h
      rw [Kind.tag_of_ofTag? hkind] at hlaid
      have hbyte := int_eq_ok.mp htag
      rw [FixedWidth.encode_byte] at hbyte
      exact ⟨_, hlaid, passes_cons.mpr ⟨m, hbyte, hpasses⟩⟩
  · rintro ⟨bs, hlaid, hpasses⟩
    exact reads_of_laid hlaid index c d hpasses

/-- The slots that a constant fills in a pool. -/
def filled (k : Constant) : List (Option Constant) :=
  if k.kind.isWide then [some k, none] else [some k]

variable {k : Constant}

theorem slots_of_wide (h : k.kind.isWide = true) : k.slots = 2 := by simp [slots, h]

theorem slots_of_narrow (h : k.kind.isWide = false) : k.slots = 1 := by simp [slots, h]

/-- The second slot of a wide constant stays empty. -/
theorem filled_of_wide (h : k.kind.isWide = true) : k.filled = [some k, none] := by
  simp [filled, h]

theorem filled_of_narrow (h : k.kind.isWide = false) : k.filled = [some k] := by
  simp [filled, h]

theorem slots_pos (k : Constant) : 0 < k.slots := by
  unfold slots
  split <;> omega

/-- A constant fills as many slots as it takes. -/
theorem length_filled (k : Constant) : k.filled.length = k.slots := by
  cases h : k.kind.isWide with
  | true => rw [filled_of_wide h, slots_of_wide h]; rfl
  | false => rw [filled_of_narrow h, slots_of_narrow h]; rfl

end Constant

-- ---------------------------------------------------------------------------
-- Pools
-- ---------------------------------------------------------------------------

namespace ConstantPool

section Slots

variable {missing : Nat} {slots : Array (Option Constant)} {c d : Cursor} {k : Constant}

/-- A constant fills its slots, if as many are missing. -/
theorem readSlots_of_read (h : Constant.read slots.size c = .ok k d) (missing : Nat) :
    readSlots (k.slots + missing) slots c = readSlots missing (slots ++ k.filled) d := by
  cases hwide : k.kind.isWide with
  | true =>
    rw [Constant.slots_of_wide hwide, Constant.filled_of_wide hwide, Nat.add_comm, readSlots,
      bind_of_ok _ h]
    simp [hwide]
  | false =>
    rw [Constant.slots_of_narrow hwide, Constant.filled_of_narrow hwide, Nat.add_comm, readSlots,
      bind_of_ok _ h]
    simp [hwide]

/-- A wide constant needs two slots. -/
theorem readSlots_of_wide (h : Constant.read slots.size c = .ok k d)
    (hwide : k.kind.isWide = true) :
    readSlots 1 slots c = .error (.malformed (.widePastEnd slots.size)) d := by
  rw [readSlots, bind_of_ok _ h]
  simp only [hwide, if_true]
  rfl

/-- Slots are filled by a constant and then by others. -/
theorem exists_read_of_readSlots {slots' : Array (Option Constant)}
    (h : readSlots (missing + 1) slots c = .ok slots' d) :
    ∃ k m more, Constant.read slots.size c = .ok k m ∧ missing + 1 = k.slots + more ∧
      readSlots more (slots ++ k.filled) m = .ok slots' d := by
  rw [readSlots] at h
  obtain ⟨k, m, hread, h⟩ := bind_eq_ok.mp h
  -- a wide constant uses up two of the slots that are missing, or there is no room for it
  cases hwide : k.kind.isWide with
  | true =>
    simp only [hwide, if_true] at h
    cases missing with
    | zero => exact absurd h malformed_ne_ok
    | succ more =>
      refine ⟨k, m, more, hread, ?_, ?_⟩
      · rw [Constant.slots_of_wide hwide]
        omega
      · rw [Constant.filled_of_wide hwide]
        simpa using h
  | false =>
    simp only [hwide] at h
    refine ⟨k, m, missing, hread, ?_, ?_⟩
    · rw [Constant.slots_of_narrow hwide, Nat.add_comm]
    · rw [Constant.filled_of_narrow hwide]
      simpa using h

theorem append_flatMap_cons (slots : Array (Option Constant)) (k : Constant) (ks : List Constant) :
    slots ++ (k :: ks).flatMap Constant.filled =
      slots ++ k.filled ++ ks.flatMap Constant.filled :=
  Array.ext' (by simp)

/-- Constants in order fill their slots, if as many are missing. -/
theorem readSlots_of_laid {ks : List Constant} {bs : Bytes} (h : InOrder Constant.Laid ks bs)
    (hpasses : c.Passes bs d) (slots : Array (Option Constant)) (missing : Nat) :
    readSlots ((ks.flatMap Constant.filled).length + missing) slots c =
      readSlots missing (slots ++ ks.flatMap Constant.filled) d := by
  induction h generalizing c slots with
  | nil =>
    obtain rfl := passes_nil.mp hpasses
    simp
  | @cons k ks bs cs first others ih =>
    obtain ⟨m, hfirst, hothers⟩ := passes_append.mp hpasses
    have hread := Constant.reads_of_laid first slots.size c m hfirst
    rw [List.flatMap_cons, List.length_append, k.length_filled, Nat.add_assoc,
      readSlots_of_read hread, ih hothers, ← List.flatMap_cons, append_flatMap_cons]

/-- Missing slots are filled exactly by constants in order that have as many. -/
theorem readSlots_eq_ok {slots' : Array (Option Constant)} :
    readSlots missing slots c = .ok slots' d ↔
      ∃ ks bs, InOrder Constant.Laid ks bs ∧ (ks.flatMap Constant.filled).length = missing ∧
        slots' = slots ++ ks.flatMap Constant.filled ∧ c.Passes bs d := by
  constructor
  · intro h
    -- a constant may use up two slots, so the induction is on the number that is missing
    induction missing using Nat.strongRecOn generalizing slots c with
    | ind missing ih =>
      cases missing with
      | zero =>
        obtain ⟨rfl, rfl⟩ := pure_eq_ok.mp h
        exact ⟨[], [], .nil, rfl, by simp, passes_nil.mpr rfl⟩
      | succ missing =>
        obtain ⟨k, m, more, hread, hslots, hrest⟩ := exists_read_of_readSlots h
        have hpos := k.slots_pos
        obtain ⟨ks, bs, hlaid, hlength, rfl, hothers⟩ := ih more (by omega) hrest
        obtain ⟨first, hfirst, hpasses⟩ := Constant.read_eq_ok.mp hread
        refine ⟨k :: ks, first ++ bs, .cons hfirst hlaid, ?_, (append_flatMap_cons ..).symm, ?_⟩
        · rw [List.flatMap_cons, List.length_append, k.length_filled, hlength, hslots]
        · exact passes_append.mpr ⟨m, hpasses, hothers⟩
  · rintro ⟨ks, bs, hlaid, rfl, rfl, hpasses⟩
    exact readSlots_of_laid hlaid hpasses slots 0

end Slots

/-- A pool has the slots of its constants, and index 0. -/
theorem size_eq_of_slots {pool : ConstantPool} {ks : List Constant}
    (h : pool.slots.toList = none :: ks.flatMap Constant.filled) :
    pool.size = 1 + (ks.flatMap Constant.filled).length := by
  rw [size, ← Array.length_toList, h, List.length_cons, Nat.add_comm]

/-- Reading a pool succeeds exactly on constants that fill as many slots as are
announced, beside index 0. -/
theorem read_eq_ok {c d : Cursor} {pool : ConstantPool} :
    read c = .ok pool d ↔
      ∃ (ks : List Constant) (bs : Bytes) (count : UInt16), InOrder Constant.Laid ks bs ∧
        count.toNat = 1 + (ks.flatMap Constant.filled).length ∧
        pool.slots.toList = none :: ks.flatMap Constant.filled ∧
        c.Passes (FixedWidth.encode count ++ bs) d := by
  unfold read
  rw [bind_eq_ok]
  constructor
  · rintro ⟨count, m, hcount, h⟩
    split at h
    · exact absurd h malformed_ne_ok
    · rename_i hzero
      obtain ⟨slots, m', hslots, h⟩ := bind_eq_ok.mp h
      obtain ⟨rfl, rfl⟩ := pure_eq_ok.mp h
      obtain ⟨ks, bs, hlaid, hlength, rfl, hpasses⟩ := readSlots_eq_ok.mp hslots
      -- the count is one more than the slots, as slot zero is never filled
      have hpos : count.toNat ≠ 0 := fun h0 => hzero (UInt16.toNat_inj.mp h0)
      exact ⟨ks, bs, count, hlaid, by omega, by simp,
        passes_append.mpr ⟨m, int_eq_ok.mp hcount, hpasses⟩⟩
  · rintro ⟨ks, bs, count, hlaid, hcount, hpool, hpasses⟩
    obtain ⟨m, hfirst, hothers⟩ := passes_append.mp hpasses
    have hzero : count ≠ 0 := by
      rintro rfl
      rw [UInt16.toNat_zero] at hcount
      omega
    -- the slots behind slot zero are the ones that are read
    have hslots : readSlots (count.toNat - 1) #[none] m = .ok pool.slots d := by
      rw [hcount, Nat.add_sub_cancel_left]
      exact readSlots_eq_ok.mpr ⟨ks, bs, hlaid, rfl, Array.ext' (by simp [hpool]), hothers⟩
    refine ⟨count, m, int_eq_ok.mpr hfirst, ?_⟩
    rw [if_neg hzero]
    exact bind_eq_ok.mpr ⟨pool.slots, d, hslots, rfl⟩

end ConstantPool

end Backref
