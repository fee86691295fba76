import Backref.ClassFile.Read
import Backref.Proofs.Bytes.Written
import Backref.Proofs.Constant.Links

/-!
# Class files with all of their attributes

A reader of class files keeps the code of methods and the table of bootstrap
methods, and passes over all other attributes. The *frame* of a class file has
all of them, each where it stands, and so it can be written as the file is.

A frame *fits* when its counts and lengths can be written, and it *holds* a
class file when that is what remains of it: the names of its attributes tell
code and bootstrap methods from the rest, and a method has one code at most.

Main results:

* `MethodFrame.Holds.reads` — a method is read as what its frame holds;
* `ClassFrame.Holds.reads` — and so is a class file.
-/

namespace Backref

open Reader

-- ---------------------------------------------------------------------------
-- Frames
-- ---------------------------------------------------------------------------

/-- The written form of a list: its 16-bit count, then its entries. -/
def counted {α : Type} (bytes : α → Bytes) (as : List α) : Bytes :=
  FixedWidth.encode (UInt16.ofNat as.length) ++ as.flatMap bytes

/-- The written form of a byte string: its 32-bit length, then the bytes. -/
def measured (body : Bytes) : Bytes :=
  FixedWidth.encode (UInt32.ofNat body.length) ++ body

/-- A list that can be counted, of entries that can be written. -/
def AllFit {α : Type} (Fits : α → Prop) (as : List α) : Prop :=
  as.length ≤ countLimit ∧ ∀ a ∈ as, Fits a

instance {α : Type} (Fits : α → Prop) [DecidablePred Fits] : DecidablePred (AllFit Fits) :=
  fun as => inferInstanceAs (Decidable (_ ∧ ∀ a ∈ as, Fits a))

/-- An attribute: the index of its name, and its body. -/
structure Attribute where
  name : UInt16
  body : Bytes
  deriving DecidableEq, Repr

namespace Attribute

/-- The written form of an attribute. -/
def bytes (a : Attribute) : Bytes := FixedWidth.encode a.name ++ measured a.body

/-- The length of an attribute can be written. -/
def Fits (a : Attribute) : Prop := a.body.length < UInt32.size

instance : DecidablePred Fits := fun a => inferInstanceAs (Decidable (a.body.length < UInt32.size))

end Attribute

/-- A field with its attributes. -/
structure FieldFrame where
  field : Field
  attributes : List Attribute
  deriving DecidableEq, Repr

/-- An attribute of a method: its code, which has attributes in turn, or another one. -/
inductive MethodAttribute
  | code (name : UInt16) (code : Code) (attributes : List Attribute)
  | foreign (a : Attribute)
  deriving DecidableEq, Repr

/-- A method with its attributes. -/
structure MethodFrame where
  access : AccessFlags
  name : UInt16
  descriptor : UInt16
  attributes : List MethodAttribute
  deriving DecidableEq, Repr

/-- An attribute of a class: a table of bootstrap methods, or another one. -/
inductive ClassAttribute
  | bootstrap (name : UInt16) (methods : Array BootstrapMethod)
  | foreign (a : Attribute)
  deriving DecidableEq, Repr

/-- A class file with its attributes. The pool is kept as its bytes: there are
several ways to write a text. -/
structure ClassFrame where
  minor : UInt16
  major : UInt16
  pool : Bytes
  access : AccessFlags
  thisClass : UInt16
  superClass : UInt16
  interfaces : Array UInt16
  fields : List FieldFrame
  methods : List MethodFrame
  attributes : List ClassAttribute
  deriving DecidableEq, Repr

-- ---------------------------------------------------------------------------
-- What is written of a frame, and what it holds
-- ---------------------------------------------------------------------------

/-- The written form of an entry of the exception table. -/
def ExceptionHandler.bytes (h : ExceptionHandler) : Bytes :=
  FixedWidth.encode h.start ++ (FixedWidth.encode h.stop ++
    (FixedWidth.encode h.handler ++ FixedWidth.encode h.catchType))

/-- The body of a code attribute. -/
def Code.body (c : Code) (attributes : List Attribute) : Bytes :=
  FixedWidth.encode c.maxStack ++ (FixedWidth.encode c.maxLocals ++ (measured c.bytes ++
    (counted ExceptionHandler.bytes c.handlers.toList ++ counted Attribute.bytes attributes)))

namespace BootstrapMethod

/-- The written form of a bootstrap method. -/
def bytes (b : BootstrapMethod) : Bytes :=
  FixedWidth.encode b.handle ++ counted FixedWidth.encode b.arguments.toList

/-- The arguments of a bootstrap method can be counted. -/
def Fits (b : BootstrapMethod) : Prop := b.arguments.size ≤ countLimit

instance : DecidablePred Fits :=
  fun b => inferInstanceAs (Decidable (b.arguments.size ≤ countLimit))

end BootstrapMethod

namespace FieldFrame

/-- The written form of a field. -/
def bytes (x : FieldFrame) : Bytes :=
  FixedWidth.encode x.field.access.bits ++ (FixedWidth.encode x.field.name ++
    (FixedWidth.encode x.field.descriptor ++ counted Attribute.bytes x.attributes))

/-- A field that can be written. -/
def Fits (x : FieldFrame) : Prop := AllFit Attribute.Fits x.attributes

instance : DecidablePred Fits :=
  fun x => inferInstanceAs (Decidable (AllFit Attribute.Fits x.attributes))

end FieldFrame

namespace MethodAttribute

/-- The attribute without a distinction of what is in it. -/
def toAttribute : MethodAttribute → Attribute
  | code name c attributes => ⟨name, c.body attributes⟩
  | foreign a => a

/-- The code that the attribute gives to a method. -/
def code? : MethodAttribute → Option Code
  | code _ c _ => some c
  | foreign _ => none

/-- The written form of an attribute of a method. -/
def bytes (x : MethodAttribute) : Bytes := x.toAttribute.bytes

/-- An attribute of a method that can be written. -/
def Fits (x : MethodAttribute) : Prop :=
  x.toAttribute.Fits ∧
    match x with
    | code _ c attributes => c.handlers.size ≤ countLimit ∧ AllFit Attribute.Fits attributes
    | foreign _ => True

instance : DecidablePred Fits
  | code .. => inferInstanceAs (Decidable (_ ∧ _ ≤ _ ∧ AllFit Attribute.Fits _))
  | foreign _ => inferInstanceAs (Decidable (_ ∧ True))

/-- The name tells code from other attributes, and there is something in the code. -/
def Named (pool : ConstantPool) : MethodAttribute → Prop
  | code name c _ => pool.NamesText name ClassFile.codeAttribute ∧ c.bytes ≠ []
  | foreign a => ∃ text, pool.NamesText a.name text ∧ text ≠ ClassFile.codeAttribute

end MethodAttribute

namespace MethodFrame

/-- The written form of a method. -/
def bytes (x : MethodFrame) : Bytes :=
  FixedWidth.encode x.access.bits ++ (FixedWidth.encode x.name ++
    (FixedWidth.encode x.descriptor ++ counted MethodAttribute.bytes x.attributes))

/-- A method that can be written. -/
def Fits (x : MethodFrame) : Prop := AllFit MethodAttribute.Fits x.attributes

instance : DecidablePred Fits :=
  fun x => inferInstanceAs (Decidable (AllFit MethodAttribute.Fits x.attributes))

/-- What remains of a frame is a method. -/
structure Holds (pool : ConstantPool) (x : MethodFrame) (m : Method) : Prop where
  access : x.access = m.access
  name : x.name = m.name
  descriptor : x.descriptor = m.descriptor
  named : ∀ a ∈ x.attributes, a.Named pool
  code : x.attributes.filterMap MethodAttribute.code? = m.code.toList

end MethodFrame

namespace ClassAttribute

/-- The attribute without a distinction of what is in it. -/
def toAttribute : ClassAttribute → Attribute
  | bootstrap name methods => ⟨name, counted BootstrapMethod.bytes methods.toList⟩
  | foreign a => a

/-- The bootstrap methods that the attribute gives to a class. -/
def bootstrap? : ClassAttribute → Option (Array BootstrapMethod)
  | bootstrap _ methods => some methods
  | foreign _ => none

/-- The written form of an attribute of a class. -/
def bytes (x : ClassAttribute) : Bytes := x.toAttribute.bytes

/-- An attribute of a class that can be written. -/
def Fits (x : ClassAttribute) : Prop :=
  x.toAttribute.Fits ∧
    match x with
    | bootstrap _ methods => AllFit BootstrapMethod.Fits methods.toList
    | foreign _ => True

instance : DecidablePred Fits
  | bootstrap .. => inferInstanceAs (Decidable (_ ∧ AllFit BootstrapMethod.Fits _))
  | foreign _ => inferInstanceAs (Decidable (_ ∧ True))

/-- The name tells bootstrap methods from other attributes. -/
def Named (pool : ConstantPool) : ClassAttribute → Prop
  | bootstrap name _ => pool.NamesText name ClassFile.bootstrapAttribute
  | foreign a => ∃ text, pool.NamesText a.name text ∧ text ≠ ClassFile.bootstrapAttribute

end ClassAttribute

namespace ClassFrame

/-- The written form of a class file. -/
def bytes (x : ClassFrame) : Bytes :=
  FixedWidth.encode ClassFile.magic ++ (FixedWidth.encode x.minor ++ (FixedWidth.encode x.major ++
    (x.pool ++ (FixedWidth.encode x.access.bits ++ (FixedWidth.encode x.thisClass ++
      (FixedWidth.encode x.superClass ++ (counted FixedWidth.encode x.interfaces.toList ++
        (counted FieldFrame.bytes x.fields ++ (counted MethodFrame.bytes x.methods ++
          counted ClassAttribute.bytes x.attributes)))))))))

/-- A class file that can be written: all counts in 16 bits, all lengths in 32. -/
structure Fits (x : ClassFrame) : Prop where
  interfaces : x.interfaces.size ≤ countLimit
  fields : AllFit FieldFrame.Fits x.fields
  methods : AllFit MethodFrame.Fits x.methods
  attributes : AllFit ClassAttribute.Fits x.attributes

instance : DecidablePred Fits := fun x =>
  decidable_of_iff (x.interfaces.size ≤ countLimit ∧ AllFit FieldFrame.Fits x.fields ∧
      AllFit MethodFrame.Fits x.methods ∧ AllFit ClassAttribute.Fits x.attributes)
    ⟨fun ⟨hi, hf, hm, ha⟩ => ⟨hi, hf, hm, ha⟩, fun ⟨hi, hf, hm, ha⟩ => ⟨hi, hf, hm, ha⟩⟩

/-- What remains of a frame is a class file. Of several tables of bootstrap
methods the last one counts. -/
structure Holds (x : ClassFrame) (c : ClassFile) : Prop where
  minor : x.minor = c.minor
  major : x.major = c.major
  pool : Reads ConstantPool.read x.pool c.pool
  access : x.access = c.access
  thisClass : x.thisClass = c.thisClass
  superClass : x.superClass = c.superClass
  interfaces : x.interfaces = c.interfaces
  fields : List.Forall₂ (fun y f => y.field = f) x.fields c.fields.toList
  methods : List.Forall₂ (MethodFrame.Holds c.pool) x.methods c.methods.toList
  named : ∀ a ∈ x.attributes, a.Named c.pool
  bootstrapMethods :
    (x.attributes.filterMap ClassAttribute.bootstrap?).getLastD #[] = c.bootstrapMethods

end ClassFrame

-- ---------------------------------------------------------------------------
-- Counts and lengths
-- ---------------------------------------------------------------------------

section Entries

variable {α β : Type} {entry : Reader α} {bytes : β → Bytes}

/-- A table is read from entries that stand for what is read of them. -/
theorem Reads.counted {V : β → α → Prop} {bs : List β} {as : Array α}
    (hsize : bs.length ≤ countLimit) (h : List.Forall₂ V bs as.toList)
    (hentry : ∀ b ∈ bs, ∀ a, V b a → Reads entry (bytes b) a) :
    Reads (table entry) (counted bytes bs) as := by
  have hlength : bs.length = as.size := h.length_eq
  rw [Backref.counted, hlength]
  exact Reads.table (inOrder_of_forall₂ h hentry) (hlength ▸ hsize)

/-- A table is read from its own entries. -/
theorem Reads.entries {bytes : α → Bytes} {as : Array α} (hsize : as.size ≤ countLimit)
    (hentry : ∀ a ∈ as, Reads entry (bytes a) a) :
    Reads (table entry) (Backref.counted bytes as.toList) as := by
  refine Reads.counted hsize (List.forall₂_same.mpr fun a _ => (rfl : a = a)) ?_
  rintro a ha _ rfl
  exact hentry a (Array.mem_toList_iff.mp ha)

end Entries

theorem toNat_ofNat_length {body : Bytes} (h : body.length < UInt32.size) :
    (UInt32.ofNat body.length).toNat = body.length := by
  rw [UInt32.size] at h
  rw [UInt32.toNat_ofNat']
  omega

/-- As many bytes as are skipped may be any. -/
theorem Reads.skip {n : Nat} {bs : Bytes} (h : bs.length = n) : Reads (skip n) bs () :=
  fun _ _ hpasses => skip_eq_ok.mpr ⟨bs, h, hpasses⟩

-- ---------------------------------------------------------------------------
-- Attributes
-- ---------------------------------------------------------------------------

namespace Attribute

/-- An attribute that is passed over may have any name. -/
theorem Fits.reads_skip {a : Attribute} (h : a.Fits) : Reads Code.skipAttribute a.bytes () :=
  (Reads.skip (FixedWidth.length_encode a.name)).bind <|
    (Reads.int _).bind (Reads.skip (toNat_ofNat_length h).symm)

/-- A table of attributes that fit is skipped as a whole. -/
theorem reads_skipAttributes {as : List Attribute} (h : AllFit Fits as) :
    Reads Code.skipAttributes (counted bytes as) () := by
  obtain ⟨hlength, hfits⟩ := h
  refine (Reads.int _).bind ?_
  rw [toNat_ofNat_count hlength]
  clear hlength
  induction as with
  | nil => exact .pure ()
  | cons a as ih =>
    have hfirst := (hfits a List.mem_cons_self).reads_skip
    exact hfirst.bind (ih fun b hb => hfits b (List.mem_cons_of_mem a hb))

/-- An attribute whose name the pool holds. -/
theorem Fits.reads {pool : ConstantPool} {a : Attribute} {name : String}
    (hname : pool.NamesText a.name name) (h : a.Fits) :
    Reads (ClassFile.readAttribute pool) a.bytes (name, a.body) := by
  refine (Reads.int _).bind <| (Reads.int _).bind <|
    (Reads.take (toNat_ofNat_length h).symm).bindPure ?_
  rw [ConstantPool.utf8_eq_ok.mpr hname]

end Attribute

/-- A body that is read to its end gives its value and moves nothing outside it. -/
theorem readBody_eq_pure {α : Type} {r : Reader α} {body : Bytes} {a : α}
    (h : ReadsLast r body a) : ClassFile.readBody r body = pure a := by
  rw [ClassFile.readBody, h.run]

namespace Code

theorem reads_handler (h : ExceptionHandler) : Reads readHandler h.bytes h :=
  (Reads.int _).bind <| (Reads.int _).bind <| (Reads.int _).bind <| (Reads.int _).bindPure rfl

/-- The body of a code attribute is read as the code in it. -/
theorem reads_body {c : Code} {attributes : List Attribute} (hbytes : c.bytes ≠ [])
    (hhandlers : c.handlers.size ≤ countLimit) (hattributes : AllFit Attribute.Fits attributes)
    (hshort : (c.body attributes).length < UInt32.size) :
    ReadsLast Code.read (c.body attributes) c := by
  have hlength : (UInt32.ofNat c.bytes.length).toNat = c.bytes.length := by
    apply toNat_ofNat_length
    simp only [body, measured, List.length_append] at hshort
    omega
  -- a reader turns down an empty code array
  have hpositive : UInt32.ofNat c.bytes.length ≠ 0 := by
    intro hzero
    rw [hzero] at hlength
    exact hbytes (List.length_eq_zero_iff.mp hlength.symm)
  unfold Code.read body measured
  rw [List.append_assoc (FixedWidth.encode _)]
  refine (Reads.int _).bindLast <| (Reads.int _).bindLast <| (Reads.int _).bindLast ?_
  rw [if_neg hpositive]
  refine (Reads.take hlength.symm).bindLast ?_
  refine (Reads.entries hhandlers fun h _ => reads_handler h).bindLast ?_
  -- the attributes, and nothing behind them
  rw [← List.append_nil (counted Attribute.bytes attributes)]
  exact (Attribute.reads_skipAttributes hattributes).bindLast (ReadsLast.hasMore.bindPure rfl)

end Code

namespace BootstrapMethod

theorem Fits.reads {b : BootstrapMethod} (h : b.Fits) :
    Reads ClassFile.readBootstrapMethod b.bytes b :=
  (Reads.int _).bind ((Reads.entries h fun i _ => Reads.int i).bindPure rfl)

/-- A table of bootstrap methods is read to its end. -/
theorem reads_all {methods : Array BootstrapMethod} (h : AllFit Fits methods.toList) :
    ReadsLast ClassFile.readBootstrapMethods (counted bytes methods.toList) methods := by
  rw [← List.append_nil (counted bytes methods.toList)]
  refine (Reads.entries h.1 fun b hb => ?_).bindLast (ReadsLast.hasMore.bindPure rfl)
  exact (h.2 b (Array.mem_toList_iff.mpr hb)).reads

end BootstrapMethod

-- ---------------------------------------------------------------------------
-- Members
-- ---------------------------------------------------------------------------

theorem ClassFile.reads_access (a : AccessFlags) :
    Reads readAccess (FixedWidth.encode a.bits) a :=
  (Reads.int _).bindPure rfl

theorem FieldFrame.Fits.reads {x : FieldFrame} (h : x.Fits) :
    Reads ClassFile.readField x.bytes x.field :=
  (ClassFile.reads_access _).bind <| (Reads.int _).bind <| (Reads.int _).bind <|
    (Attribute.reads_skipAttributes h).bindPure rfl

/-- The attributes of a method are read one by one: the code is kept, and there
is none before it or behind it. -/
theorem MethodAttribute.reads_all {pool : ConstantPool} {as : List MethodAttribute}
    (before : Option Code) {after : Option Code} (hfits : ∀ a ∈ as, a.Fits)
    (hnamed : ∀ a ∈ as, a.Named pool)
    (hcode : before.toList ++ as.filterMap code? = after.toList) :
    Reads (ClassFile.readMethodAttributes pool as.length before) (as.flatMap bytes) after := by
  induction as generalizing before with
  | nil =>
    obtain rfl : before = after := by
      cases before <;> cases after <;> simp_all
    exact .pure before
  | cons a as ih =>
    have hothers := fun before => ih before (fun b hb => hfits b (List.mem_cons_of_mem a hb))
      fun b hb => hnamed b (List.mem_cons_of_mem a hb)
    obtain ⟨hshort, hinner⟩ := hfits a List.mem_cons_self
    have hname := hnamed a List.mem_cons_self
    cases a with
    | foreign a =>
      obtain ⟨text, htext, hother⟩ := hname
      refine (hshort.reads htext).bind ?_
      simp only [if_neg hother]
      exact hothers before hcode
    | code name c attributes =>
      obtain ⟨htext, hbytes⟩ := hname
      -- two codes would be too many
      obtain rfl : before = none := by
        have hlength := congrArg List.length hcode
        have hle := Option.length_toList_le (o := after)
        cases before with
        | none => rfl
        | some c' =>
          simp [code?] at hlength
          omega
      have hbody := readBody_eq_pure (Code.reads_body hbytes hinner.1 hinner.2 hshort)
      refine (hshort.reads htext).bind ?_
      simp only [if_true, Option.isSome_none, toAttribute, hbody, pure_bind]
      exact hothers (some c) hcode

/-- A method is read as what its frame holds. -/
theorem MethodFrame.Holds.reads {pool : ConstantPool} {x : MethodFrame} {m : Method}
    (h : x.Holds pool m) (hfits : x.Fits) : Reads (ClassFile.readMethod pool) x.bytes m := by
  obtain ⟨access, name, descriptor, code⟩ := m
  obtain ⟨rfl, rfl, rfl, hnamed, hcode⟩ := h
  have hattributes := MethodAttribute.reads_all none hfits.2 hnamed hcode
  rw [← toNat_ofNat_count hfits.1] at hattributes
  exact (ClassFile.reads_access _).bind <| (Reads.int _).bind <| (Reads.int _).bind <|
    (Reads.int _).bind (hattributes.bindPure rfl)

-- ---------------------------------------------------------------------------
-- Classes
-- ---------------------------------------------------------------------------

/-- The attributes of a class are read one by one: a table of bootstrap methods
takes the place of the one before it. -/
theorem ClassAttribute.reads_all {pool : ConstantPool} {as : List ClassAttribute}
    (before : Array BootstrapMethod) {after : Array BootstrapMethod} (hfits : ∀ a ∈ as, a.Fits)
    (hnamed : ∀ a ∈ as, a.Named pool) (hlast : (as.filterMap bootstrap?).getLastD before = after) :
    Reads (ClassFile.readClassAttributes pool as.length before) (as.flatMap bytes) after := by
  -- the induction is on the attributes, for whatever table has been read before them
  induction as generalizing before with
  | nil =>
    rw [← hlast]
    exact .pure before
  | cons a as ih =>
    have hothers := fun before => ih before (fun b hb => hfits b (List.mem_cons_of_mem a hb))
      fun b hb => hnamed b (List.mem_cons_of_mem a hb)
    obtain ⟨hshort, hinner⟩ := hfits a List.mem_cons_self
    have hname := hnamed a List.mem_cons_self
    cases a with
    | foreign a =>
      obtain ⟨text, htext, hother⟩ := hname
      refine (hshort.reads htext).bind ?_
      simp only [if_neg hother]
      exact hothers before hlast
    | bootstrap name methods =>
      have htext : pool.NamesText name ClassFile.bootstrapAttribute := hname
      have hbody := readBody_eq_pure (BootstrapMethod.reads_all hinner)
      refine (hshort.reads htext).bind ?_
      simp only [if_true, toAttribute, hbody, pure_bind]
      -- a table replaces the one before it
      exact hothers methods ((List.getLastD_cons ..).symm.trans hlast)

/-- A class file is read as what its frame holds. -/
theorem ClassFrame.Holds.reads {x : ClassFrame} {c : ClassFile} (h : x.Holds c) (hfits : x.Fits) :
    Reads ClassFile.read x.bytes c := by
  obtain ⟨minor, major, pool, access, thisClass, superClass, interfaces, fields, methods,
    bootstrapMethods⟩ := c
  obtain ⟨rfl, rfl, hpool, rfl, rfl, rfl, rfl, hfields, hmethods, hnamed, hlast⟩ := h
  have hattributes := ClassAttribute.reads_all #[] hfits.attributes.2 hnamed hlast
  rw [← toNat_ofNat_count hfits.attributes.1] at hattributes
  have hfieldTable : Reads (table ClassFile.readField) (counted FieldFrame.bytes x.fields) fields :=
    Reads.counted hfits.fields.1 hfields fun y hy f hf => hf ▸ (hfits.fields.2 y hy).reads
  have hmethodTable : Reads (table (ClassFile.readMethod pool))
      (counted MethodFrame.bytes x.methods) methods :=
    Reads.counted hfits.methods.1 hmethods fun y hy m hm => hm.reads (hfits.methods.2 y hy)
  refine (Reads.int ClassFile.magic).bind ?_
  -- the magic number is the one that is asked for
  rw [if_neg (by simp)]
  exact (Reads.int _).bind <| (Reads.int _).bind <| hpool.bind <| (ClassFile.reads_access _).bind <|
    (Reads.int _).bind <| (Reads.int _).bind <|
    (Reads.entries hfits.interfaces fun i _ => Reads.int i).bind <| hfieldTable.bind <|
    hmethodTable.bind <| (Reads.int _).bind (hattributes.bindPure rfl)

end Backref
