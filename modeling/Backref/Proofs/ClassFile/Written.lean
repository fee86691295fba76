import Backref.ClassFile.Encode
import Backref.Proofs.ClassFile.Frame
import Backref.Proofs.Constant.Written

/-!
# Reading written class files

What is written of a class file is its *plain* frame, which has no attributes
but those that are needed. Where the pool consists of constants in order, and
holds the names of these attributes, the class file is what the frame holds,
and so it is what is read again.

Main results:

* `ClassFile.encode_eq_ok` — what is written is the plain frame;
* `ClassFile.Complete.reads` — a class file is read as it was written, wherever
  its bytes stand;
* `ClassFile.Complete.ofBytes` — and so from a byte string of its own.
-/

namespace Backref

open Reader

/-- A body that has a written form: it has code, and its handlers can be counted. -/
structure Code.Complete (c : Code) : Prop where
  bytes_ne_nil : c.bytes ≠ []
  handlers_le : c.handlers.size ≤ countLimit

namespace ClassFile

-- ---------------------------------------------------------------------------
-- Plain frames
-- ---------------------------------------------------------------------------

/-- A method with no attribute but its code. -/
def plainMethod (codeName : UInt16) (m : Method) : MethodFrame where
  access := m.access
  name := m.name
  descriptor := m.descriptor
  attributes := (m.code.map (MethodAttribute.code codeName · [])).toList

/-- The bootstrap methods, where there are any, as the only attribute of a class. -/
def plainAttributes (bootstrapName : UInt16) (methods : Array BootstrapMethod) :
    List ClassAttribute :=
  if methods.isEmpty then [] else [.bootstrap bootstrapName methods]

/-- A class file with no attributes but those that are needed. -/
def plainFrame (codeName bootstrapName : UInt16) (c : ClassFile) : ClassFrame where
  minor := c.minor
  major := c.major
  pool := c.pool.encode
  access := c.access
  thisClass := c.thisClass
  superClass := c.superClass
  interfaces := c.interfaces
  fields := c.fields.toList.map (⟨·, []⟩)
  methods := c.methods.toList.map (plainMethod codeName)
  attributes := plainAttributes bootstrapName c.bootstrapMethods

-- ---------------------------------------------------------------------------
-- Tables
-- ---------------------------------------------------------------------------

theorem encodeCount_eq_ok {count : Nat} {fault : Malformation} {bytes : Bytes} :
    encodeCount count fault = .ok bytes ↔
      count ≤ countLimit ∧ FixedWidth.encode (UInt16.ofNat count) = bytes := by
  unfold encodeCount
  by_cases h : count ≤ countLimit
  · rw [if_pos h, Except.ok.injEq]
    simp [h]
  · rw [if_neg h]
    simp [h]

/-- Entries are written in order behind what is there. -/
theorem encodeAllOnto_eq_ok {α : Type} {encode : α → Except Fault Bytes} {as : List α}
    {seen out : Array UInt8} :
    encodeAllOnto encode seen as = .ok out ↔
      ∃ bytes, InOrder (fun a bs => encode a = .ok bs) as bytes ∧
        out.toList = seen.toList ++ bytes := by
  -- the induction is on the entries, for whatever has been written before them
  induction as generalizing seen with
  | nil =>
    rw [encodeAllOnto, Except.ok.injEq]
    constructor
    · rintro rfl
      exact ⟨[], .nil, by simp⟩
    · rintro ⟨_, hnil, h⟩
      rw [inOrder_nil.mp hnil, List.append_nil] at h
      exact Array.ext' h.symm
  | cons a as ih =>
    rw [encodeAllOnto]
    cases ha : encode a with
    | error fault =>
      simp [inOrder_cons, ha]
    | ok bs =>
      simp only [ih, inOrder_cons, ha, Except.ok.injEq]
      constructor
      · rintro ⟨bytes, hbytes, h⟩
        exact ⟨bs ++ bytes, ⟨bs, bytes, rfl, hbytes, rfl⟩, by simp [h]⟩
      · rintro ⟨_, ⟨_, bytes, rfl, hbytes, rfl⟩, h⟩
        exact ⟨bytes, hbytes, by simp [h]⟩

theorem encodeAll_eq_ok {α : Type} {encode : α → Except Fault Bytes} {as : List α}
    {bytes : Bytes} :
    encodeAll encode as = .ok bytes ↔ InOrder (fun a bs => encode a = .ok bs) as bytes := by
  -- writing starts from nothing
  have honto : encodeAll encode as = .ok bytes ↔
      encodeAllOnto encode #[] as = .ok bytes.toArray := by
    rw [encodeAll]
    cases encodeAllOnto encode #[] as with
    | error fault =>
      constructor
      · intro h
        cases h
      · intro h
        cases h
    | ok out =>
      show Except.ok out.toList = Except.ok bytes ↔ _
      rw [Except.ok.injEq, Except.ok.injEq]
      constructor
      · rintro rfl
        rfl
      · rintro rfl
        rfl
  rw [honto, encodeAllOnto_eq_ok]
  simp

/-- Entries that each have one written form. -/
theorem flatMap_of_encodeAll {α : Type} {encode : α → Except Fault Bytes} {form : α → Bytes}
    {Fits : α → Prop} {as : List α} {bytes : Bytes} (h : encodeAll encode as = .ok bytes)
    (hentry : ∀ {a bs}, encode a = .ok bs → Fits a ∧ form a = bs) :
    (∀ a ∈ as, Fits a) ∧ as.flatMap form = bytes := by
  have hentries := encodeAll_eq_ok.mp h
  clear h
  induction hentries with
  | nil => exact ⟨by simp, rfl⟩
  | cons first _ ih =>
    obtain ⟨hfits, rfl⟩ := hentry first
    obtain ⟨hothers, rfl⟩ := ih
    exact ⟨List.forall_mem_cons.mpr ⟨hfits, hothers⟩, rfl⟩

-- ---------------------------------------------------------------------------
-- Parts
-- ---------------------------------------------------------------------------

/-- Code is written without attributes of its own. -/
theorem encodeCode_eq (c : Code) : encodeCode c = c.body [] := by
  have hhandlers : encodeHandler = ExceptionHandler.bytes := by
    funext h
    simp only [encodeHandler, ExceptionHandler.bytes, List.append_assoc]
  simp only [encodeCode, Code.body, measured, counted, hhandlers, List.append_assoc,
    Array.length_toList]
  rfl

theorem encodeField_eq (f : Field) : encodeField f = FieldFrame.bytes ⟨f, []⟩ := by
  simp only [encodeField, FieldFrame.bytes, List.append_assoc]
  rfl

/-- An attribute is written when its body has a length of four bytes. -/
theorem encodeAttribute_eq_ok {index : UInt16} {body bytes : Bytes} :
    encodeAttribute index body = .ok bytes ↔
      (Attribute.mk index body).Fits ∧ (Attribute.mk index body).bytes = bytes := by
  unfold encodeAttribute Attribute.Fits Attribute.bytes measured
  by_cases h : body.length < UInt32.size
  · rw [if_pos h, Except.ok.injEq, List.append_assoc]
    simp only [h, true_and]
  · rw [if_neg h]
    simp only [h, false_and, iff_false]
    exact fun herror => nomatch herror

/-- A method that is written has the bytes of its plain frame. -/
theorem encodeMethod_eq_ok {codeName : UInt16} {m : Method} {bytes : Bytes}
    (h : encodeMethod codeName m = .ok bytes) :
    (∀ a ∈ (plainMethod codeName m).attributes, a.toAttribute.Fits) ∧
      (plainMethod codeName m).bytes = bytes := by
  unfold encodeMethod at h
  obtain ⟨access, name, descriptor, body⟩ := m
  -- the code is the only attribute that a method is written with
  cases body with
  | none =>
    obtain rfl := except_pure_eq_ok.mp h
    refine ⟨by simp [plainMethod], ?_⟩
    simp only [plainMethod, MethodFrame.bytes, List.append_assoc]
    rfl
  | some code =>
    obtain ⟨written, hwritten, h⟩ := except_bind_eq_ok.mp h
    obtain rfl := except_pure_eq_ok.mp h
    rw [encodeCode_eq] at hwritten
    obtain ⟨hfits, rfl⟩ := encodeAttribute_eq_ok.mp hwritten
    refine ⟨by simpa [plainMethod, MethodAttribute.toAttribute] using hfits, ?_⟩
    simp only [plainMethod, MethodFrame.bytes, List.append_assoc]
    simp [counted, MethodAttribute.bytes, MethodAttribute.toAttribute]

theorem encodeBootstrapMethod_eq_ok {b : BootstrapMethod} {bytes : Bytes}
    (h : encodeBootstrapMethod b = .ok bytes) : b.Fits ∧ b.bytes = bytes := by
  obtain ⟨count, hcount, h⟩ := except_bind_eq_ok.mp h
  obtain rfl := except_pure_eq_ok.mp h
  obtain ⟨hsize, rfl⟩ := encodeCount_eq_ok.mp hcount
  refine ⟨hsize, ?_⟩
  rw [BootstrapMethod.bytes, counted, Array.length_toList, List.append_assoc]

/-- The attributes that are written are those of the plain frame. -/
theorem encodeAttributes_eq_ok {bootstrapName : UInt16} {methods : Array BootstrapMethod}
    {bytes : Bytes} (h : encodeAttributes bootstrapName methods = .ok bytes) :
    AllFit ClassAttribute.Fits (plainAttributes bootstrapName methods) ∧
      counted ClassAttribute.bytes (plainAttributes bootstrapName methods) = bytes := by
  unfold encodeAttributes at h
  unfold plainAttributes
  -- a class without bootstrap methods has no attribute for them
  split at h
  · rename_i hempty
    cases h
    rw [if_pos hempty]
    exact ⟨⟨Nat.zero_le _, by simp⟩, rfl⟩
  · rename_i hfull
    obtain ⟨count, hcount, h⟩ := except_bind_eq_ok.mp h
    obtain ⟨entries, hentries, h⟩ := except_bind_eq_ok.mp h
    obtain ⟨written, hwritten, h⟩ := except_bind_eq_ok.mp h
    obtain rfl := except_pure_eq_ok.mp h
    obtain ⟨hsize, rfl⟩ := encodeCount_eq_ok.mp hcount
    obtain ⟨hall, rfl⟩ := flatMap_of_encodeAll hentries encodeBootstrapMethod_eq_ok
    obtain ⟨hfits, rfl⟩ := encodeAttribute_eq_ok.mp hwritten
    rw [if_neg hfull]
    refine ⟨⟨by simp [countLimit], ?_⟩, ?_⟩
    · rw [List.forall_mem_singleton]
      exact ⟨hfits, hsize, hall⟩
    · simp [counted, ClassAttribute.bytes, ClassAttribute.toAttribute]

-- ---------------------------------------------------------------------------
-- Whole class files
-- ---------------------------------------------------------------------------

variable {codeName bootstrapName : UInt16} {c : ClassFile} {bytes : Bytes}

/-- What is written of a class file is its plain frame. -/
theorem encode_eq_ok (hcode : ∀ m ∈ c.methods, ∀ code, m.code = some code → code.Complete)
    (h : encode codeName bootstrapName c = .ok bytes) :
    (plainFrame codeName bootstrapName c).Fits ∧
      (plainFrame codeName bootstrapName c).bytes = bytes := by
  unfold encode at h
  obtain ⟨interfaceCount, hinterfaceCount, h⟩ := except_bind_eq_ok.mp h
  obtain ⟨fieldCount, hfieldCount, h⟩ := except_bind_eq_ok.mp h
  obtain ⟨methodCount, hmethodCount, h⟩ := except_bind_eq_ok.mp h
  obtain ⟨methods, hall, h⟩ := except_bind_eq_ok.mp h
  obtain ⟨attributes, hattributes, h⟩ := except_bind_eq_ok.mp h
  obtain rfl := except_pure_eq_ok.mp h
  obtain ⟨hinterfaces, rfl⟩ := encodeCount_eq_ok.mp hinterfaceCount
  obtain ⟨hfields, rfl⟩ := encodeCount_eq_ok.mp hfieldCount
  obtain ⟨hmethods, rfl⟩ := encodeCount_eq_ok.mp hmethodCount
  obtain ⟨hshort, rfl⟩ := flatMap_of_encodeAll hall encodeMethod_eq_ok
  obtain ⟨hfits, rfl⟩ := encodeAttributes_eq_ok hattributes
  refine ⟨⟨hinterfaces, ⟨by simpa [plainFrame] using hfields, ?_⟩,
    ⟨by simpa [plainFrame] using hmethods, ?_⟩, hfits⟩, ?_⟩
  · -- a field without attributes
    simp [plainFrame, FieldFrame.Fits, AllFit]
  · -- a method whose code can be written
    intro x hx
    obtain ⟨m, hm, rfl⟩ := List.mem_map.mp hx
    refine ⟨?_, fun a ha => ⟨hshort m hm a ha, ?_⟩⟩
    · exact Nat.le_trans Option.length_toList_le (by decide)
    · obtain ⟨code, hc, rfl⟩ := Option.map_eq_some_iff.mp (Option.mem_toList.mp ha)
      have hcomplete := hcode m (Array.mem_toList_iff.mp hm) code hc
      exact ⟨hcomplete.handlers_le, Nat.zero_le _, by simp⟩
  · simp only [ClassFrame.bytes, plainFrame, counted, List.append_assoc, List.length_map,
      Array.length_toList, List.flatMap_map, ← encodeField_eq]

/-- What a class file needs for its attributes: bodies that can be written,
and a pool that holds the names of the attributes that there are. -/
structure Complete (codeName bootstrapName : UInt16) (c : ClassFile) : Prop where
  pool : ∃ ks, c.pool.Filled ks
  code : ∀ m ∈ c.methods, ∀ code, m.code = some code → code.Complete
  codeName : ∀ m ∈ c.methods, m.code ≠ none → c.pool.NamesText codeName codeAttribute
  bootstrapName : c.bootstrapMethods ≠ #[] → c.pool.NamesText bootstrapName bootstrapAttribute

/-- The plain frame of a method stands for that method. -/
theorem Complete.holds_method (h : Complete codeName bootstrapName c) {m : Method}
    (hm : m ∈ c.methods) : (plainMethod codeName m).Holds c.pool m := by
  refine ⟨rfl, rfl, rfl, fun a ha => ?_, ?_⟩
  · obtain ⟨code, hcode, rfl⟩ := Option.map_eq_some_iff.mp (Option.mem_toList.mp ha)
    exact ⟨h.codeName m hm (by simp [hcode]), (h.code m hm code hcode).bytes_ne_nil⟩
  · unfold plainMethod
    cases m.code <;> rfl

/-- What its plain frame holds is the class file. -/
theorem Complete.holds (h : Complete codeName bootstrapName c) :
    (plainFrame codeName bootstrapName c).Holds c := by
  obtain ⟨ks, hpool⟩ := h.pool
  -- fields and methods, then the table of bootstrap methods if there is one
  refine ⟨rfl, rfl, hpool.reads, rfl, rfl, rfl, rfl, ?_, ?_, ?_, ?_⟩
  · exact List.forall₂_map_left_iff.mpr (List.forall₂_same.mpr fun f _ => rfl)
  · refine List.forall₂_map_left_iff.mpr (List.forall₂_same.mpr fun m hm => ?_)
    exact h.holds_method (Array.mem_toList_iff.mp hm)
  · intro a ha
    simp only [plainFrame, plainAttributes] at ha
    split at ha
    · cases ha
    · rename_i hfull
      obtain rfl := List.mem_singleton.mp ha
      exact h.bootstrapName (by simpa using hfull)
  · simp only [plainFrame, plainAttributes]
    split
    · rename_i hempty
      exact (Array.isEmpty_iff.mp hempty).symm
    · rfl

/-- A class file is read as it was written. -/
theorem Complete.reads (h : Complete codeName bootstrapName c)
    (hbytes : encode codeName bootstrapName c = .ok bytes) : Reads ClassFile.read bytes c := by
  obtain ⟨hfits, rfl⟩ := encode_eq_ok h.code hbytes
  exact h.holds.reads hfits

/-- The written form of a class file is read as that class file. -/
theorem Complete.ofBytes (h : Complete codeName bootstrapName c)
    (hbytes : encode codeName bootstrapName c = .ok bytes) : ofBytes bytes = .ok c :=
  (h.reads hbytes).last.run

end ClassFile

end Backref
