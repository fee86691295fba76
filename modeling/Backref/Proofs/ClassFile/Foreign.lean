import Backref.Discovery
import Backref.Proofs.ClassFile.Accepted
import Backref.Proofs.ClassFile.Written

/-!
# Attributes that make no difference

Further attributes may be put anywhere into a class file: among those of a
field or inside code with any name, even one that no constant gives, and among
those of a method or of the class with the name of neither code nor bootstrap
methods. The frame *grows* by them. What it holds stays the same, so the class
file that is read stays the same, and so do the references found in it.

Main results:

* `Grown.filterMap_eq`, `Grown.forall_mem` — what becomes of a list that grows;
* `ClassFrame.Grows.holds` — a frame that has grown holds the same class file;
* `ClassFile.ofBytes_of_grows` — and so it is read as the same class file.
-/

namespace Backref

open Reader

-- ---------------------------------------------------------------------------
-- Lists that grow
-- ---------------------------------------------------------------------------

/-- A list to which entries have been added anywhere, and whose other entries
stand for those that were there before. -/
inductive Grown {α : Type} (Kept : α → α → Prop) (Added : α → Prop) : List α → List α → Prop
  | nil : Grown Kept Added [] []
  | keep {a b : α} {as bs : List α} (first : Kept a b) (others : Grown Kept Added as bs) :
      Grown Kept Added (a :: as) (b :: bs)
  | add {b : α} {as bs : List α} (first : Added b) (others : Grown Kept Added as bs) :
      Grown Kept Added as (b :: bs)

namespace Grown

variable {α β : Type} {Kept : α → α → Prop} {Added : α → Prop} {as bs : List α}

/-- What is made of the entries stays the same if nothing is made of new ones. -/
theorem filterMap_eq {f : α → Option β} (h : Grown Kept Added as bs)
    (hkept : ∀ a b, Kept a b → f b = f a) (hadded : ∀ b, Added b → f b = none) :
    bs.filterMap f = as.filterMap f := by
  induction h with
  | nil => rfl
  | @keep a b as bs first _ ih =>
    rw [List.filterMap_cons, List.filterMap_cons, hkept a b first, ih]
  | @add b as bs first _ ih => rw [List.filterMap_cons_none (hadded b first), ih]

/-- What holds of every old entry and of every added one holds of all. -/
theorem forall_mem {P : α → Prop} (h : Grown Kept Added as bs)
    (hkept : ∀ a b, Kept a b → P a → P b) (hadded : ∀ b, Added b → P b) (hall : ∀ a ∈ as, P a) :
    ∀ b ∈ bs, P b := by
  induction h with
  | nil => exact hall
  | @keep a b as bs first _ ih =>
    obtain ⟨ha, has⟩ := List.forall_mem_cons.mp hall
    exact List.forall_mem_cons.mpr ⟨hkept a b first ha, ih has⟩
  | @add b as bs first _ ih => exact List.forall_mem_cons.mpr ⟨hadded b first, ih hall⟩

end Grown

-- ---------------------------------------------------------------------------
-- Frames that grow
-- ---------------------------------------------------------------------------

/-- A list to which attributes of any name have been added. -/
def Attribute.Grow : List Attribute → List Attribute → Prop := Grown Eq fun _ => True

/-- A field with more attributes. -/
structure FieldFrame.Grows (x y : FieldFrame) : Prop where
  field : y.field = x.field
  attributes : Attribute.Grow x.attributes y.attributes

namespace MethodAttribute

/-- An attribute whose name says that it is no code. -/
def Foreign (pool : ConstantPool) (x : MethodAttribute) : Prop :=
  ∃ a text, x = foreign a ∧ pool.NamesText a.name text ∧ text ≠ ClassFile.codeAttribute

/-- An attribute as it was, or code with more attributes inside. -/
inductive Grows : MethodAttribute → MethodAttribute → Prop
  | code {name : UInt16} {c : Code} {inner outer : List Attribute}
      (attributes : Attribute.Grow inner outer) : Grows (code name c inner) (code name c outer)
  | foreign {a : Attribute} : Grows (foreign a) (foreign a)

variable {pool : ConstantPool} {x y : MethodAttribute}

/-- A foreign attribute is not the code of a method. -/
theorem Foreign.code?_eq (h : Foreign pool x) : x.code? = none := by
  obtain ⟨a, text, rfl, -⟩ := h
  rfl

theorem Foreign.named (h : Foreign pool x) : x.Named pool := by
  obtain ⟨a, text, rfl, htext⟩ := h
  exact ⟨text, htext⟩

/-- A code attribute that grows is still read as the same code. -/
theorem Grows.code?_eq (h : Grows x y) : y.code? = x.code? := by
  cases h with
  | code _ => rfl
  | foreign => rfl

/-- An attribute keeps its name while it grows. -/
theorem Grows.named (h : Grows x y) (hx : x.Named pool) : y.Named pool := by
  cases h with
  | code _ => exact hx
  | foreign => exact hx

end MethodAttribute

/-- A method with more attributes. -/
structure MethodFrame.Grows (pool : ConstantPool) (x y : MethodFrame) : Prop where
  access : y.access = x.access
  name : y.name = x.name
  descriptor : y.descriptor = x.descriptor
  attributes :
    Grown MethodAttribute.Grows (MethodAttribute.Foreign pool) x.attributes y.attributes

/-- An attribute whose name says that it holds no bootstrap methods. -/
def ClassAttribute.Foreign (pool : ConstantPool) (x : ClassAttribute) : Prop :=
  ∃ a text, x = foreign a ∧ pool.NamesText a.name text ∧ text ≠ ClassFile.bootstrapAttribute

/-- A class file with more attributes, and otherwise the same. -/
structure ClassFrame.Grows (constants : ConstantPool) (x y : ClassFrame) : Prop where
  minor : y.minor = x.minor
  major : y.major = x.major
  pool : y.pool = x.pool
  access : y.access = x.access
  thisClass : y.thisClass = x.thisClass
  superClass : y.superClass = x.superClass
  interfaces : y.interfaces = x.interfaces
  fields : List.Forall₂ FieldFrame.Grows x.fields y.fields
  methods : List.Forall₂ (MethodFrame.Grows constants) x.methods y.methods
  attributes : Grown Eq (ClassAttribute.Foreign constants) x.attributes y.attributes

-- ---------------------------------------------------------------------------
-- What they hold
-- ---------------------------------------------------------------------------

/-- A method that grows by foreign attributes stands for the same method. -/
theorem MethodFrame.Grows.holds {pool : ConstantPool} {x y : MethodFrame} {m : Method}
    (h : x.Grows pool y) (hx : x.Holds pool m) : y.Holds pool m where
  access := h.access.trans hx.access
  name := h.name.trans hx.name
  descriptor := h.descriptor.trans hx.descriptor
  named := h.attributes.forall_mem (fun _ _ hgrows => hgrows.named) (fun _ hnew => hnew.named)
    hx.named
  code := (h.attributes.filterMap_eq (fun _ _ hgrows => hgrows.code?_eq)
    fun _ hnew => hnew.code?_eq).trans hx.code

/-- Entries that grow one by one stand for the same things as before. -/
theorem forall₂_of_grows {α β : Type} {G : α → α → Prop} {H : α → β → Prop}
    (hgrows : ∀ {x y a}, G x y → H x a → H y a) {xs ys : List α} {as : List β}
    (h : List.Forall₂ G xs ys) (hxs : List.Forall₂ H xs as) : List.Forall₂ H ys as := by
  induction h generalizing as with
  | nil => exact hxs
  | cons first _ ih =>
    cases hxs with
    | cons hfirst hothers => exact .cons (hgrows first hfirst) (ih hothers)

/-- A frame that has grown holds the same class file. -/
theorem ClassFrame.Grows.holds {x y : ClassFrame} {c : ClassFile} (h : x.Grows c.pool y)
    (hx : x.Holds c) : y.Holds c where
  minor := h.minor.trans hx.minor
  major := h.major.trans hx.major
  pool := h.pool ▸ hx.pool
  access := h.access.trans hx.access
  thisClass := h.thisClass.trans hx.thisClass
  superClass := h.superClass.trans hx.superClass
  interfaces := h.interfaces.trans hx.interfaces
  fields := forall₂_of_grows (fun hgrows hfield => hgrows.field.trans hfield) h.fields hx.fields
  methods := forall₂_of_grows (fun hgrows hmethod => hgrows.holds hmethod) h.methods hx.methods
  named := by
    refine h.attributes.forall_mem ?_ ?_ hx.named
    · rintro a _ rfl hnamed
      exact hnamed
    · rintro _ ⟨a, text, rfl, htext⟩
      exact ⟨text, htext⟩
  bootstrapMethods := by
    -- a foreign attribute is no table of bootstrap methods
    have hsame : y.attributes.filterMap ClassAttribute.bootstrap? =
        x.attributes.filterMap ClassAttribute.bootstrap? := by
      refine h.attributes.filterMap_eq ?_ ?_
      · rintro a _ rfl
        rfl
      · rintro _ ⟨a, text, rfl, -⟩
        rfl
    rw [hsame]
    exact hx.bootstrapMethods

-- ---------------------------------------------------------------------------
-- What is read
-- ---------------------------------------------------------------------------

/-- What is found in a byte string depends on the class file in it alone. -/
theorem Findings.ofBytes_congr {data other : Bytes}
    (h : ClassFile.ofBytes data = ClassFile.ofBytes other) (lambdas : Bool) :
    ofBytes lambdas data = ofBytes lambdas other := by
  rw [ofBytes, h, ofBytes]

namespace ClassFile

/-- Whatever is read as a class file is the written form of a frame; and
however this frame grows, if only it can still be written, the same class file
is read and the same references are found in it. -/
theorem ofBytes_of_grows {data : Bytes} {c : ClassFile} (h : ofBytes data = .ok c) :
    (∃ (x : ClassFrame) (rest : Bytes), data = x.bytes ++ rest ∧ x.Fits ∧ x.Holds c) ∧
    ∀ (x y : ClassFrame) (rest : Bytes), data = x.bytes ++ rest → x.Holds c →
      x.Grows c.pool y → y.Fits →
        ofBytes (y.bytes ++ rest) = .ok c ∧
        ∀ lambdas, Findings.ofBytes lambdas (y.bytes ++ rest) = Findings.ofBytes lambdas data := by
  constructor
  · obtain ⟨x, rest, hfits, hholds, hdata⟩ := ofBytes_eq_ok.mp h
    exact ⟨x, rest, hdata, hfits, hholds⟩
  · intro x y rest _ hholds hgrows hfits
    have hsame : ofBytes (y.bytes ++ rest) = .ok c :=
      ofBytes_eq_ok.mpr ⟨y, rest, hfits, hgrows.holds hholds, rfl⟩
    exact ⟨hsame, Findings.ofBytes_congr (hsame.trans h.symm)⟩

/-- The class `C` with a field `f` and a method `m` that returns at once. -/
def fieldAndMethod : ClassFile where
  minor := 0
  major := 52
  pool := ⟨#[none, some (.utf8 "C"), some (.classInfo 1), some (.utf8 "f"), some (.utf8 "LB;"),
    some (.utf8 "m"), some (.utf8 "()V"), some (.utf8 "Code"), some (.utf8 "Note")]⟩
  access := ⟨0x21⟩
  thisClass := 2
  superClass := 0
  interfaces := #[]
  fields := #[⟨⟨0⟩, 3, 4⟩]
  methods := #[⟨⟨0⟩, 5, 6, some ⟨0, 1, [0xB1], #[]⟩⟩]
  bootstrapMethods := #[]

theorem complete_fieldAndMethod : fieldAndMethod.Complete 7 0 where
  pool := by
    refine ⟨[.utf8 "C", .classInfo 1, .utf8 "f", .utf8 "LB;", .utf8 "m", .utf8 "()V",
      .utf8 "Code", .utf8 "Note"], rfl, by decide, ?_⟩
    decide +kernel
  code := by
    intro m hm code hcode
    obtain rfl := Array.mem_singleton.mp hm
    obtain rfl := Option.some.inj hcode
    exact ⟨by simp, by decide⟩
  codeName := fun _ _ _ => rfl
  bootstrapName := fun h => absurd rfl h

/-- The same class with a note in each place that attributes may stand in. Where
nobody asks for its name, there is none. -/
def annotated : ClassFrame :=
  { plainFrame 7 0 fieldAndMethod with
    fields := [⟨⟨⟨0⟩, 3, 4⟩, [⟨0xFFFF, [1, 2, 3]⟩]⟩]
    methods := [⟨⟨0⟩, 5, 6, [.foreign ⟨8, [4]⟩, .code 7 ⟨0, 1, [0xB1], #[]⟩ [⟨0, []⟩]]⟩]
    attributes := [.foreign ⟨8, []⟩] }

/-- The notes do not show in what is read, nor in what is found. -/
theorem ofBytes_annotated :
    ofBytes (plainFrame 7 0 fieldAndMethod).bytes = .ok fieldAndMethod ∧
      (plainFrame 7 0 fieldAndMethod).Grows fieldAndMethod.pool annotated ∧
      annotated.Fits ∧ ofBytes annotated.bytes = .ok fieldAndMethod ∧
      ∀ lambdas, Findings.ofBytes lambdas annotated.bytes =
        Findings.ofBytes lambdas (plainFrame 7 0 fieldAndMethod).bytes := by
  have hread : ofBytes (plainFrame 7 0 fieldAndMethod).bytes = .ok fieldAndMethod := by
    decide +kernel
  have hnote : fieldAndMethod.pool.NamesText 8 "Note" := rfl
  -- a foreign attribute at each of the four places
  have hgrows : (plainFrame 7 0 fieldAndMethod).Grows fieldAndMethod.pool annotated :=
    { minor := rfl, major := rfl, pool := rfl, access := rfl, thisClass := rfl, superClass := rfl
      interfaces := rfl
      fields := .cons ⟨rfl, .add trivial .nil⟩ .nil
      methods := .cons ⟨rfl, rfl, rfl, .add ⟨_, _, rfl, hnote, by decide⟩
        (.keep (.code (.add trivial .nil)) .nil)⟩ .nil
      attributes := .add ⟨_, _, rfl, hnote, by decide⟩ .nil }
  have hfits : annotated.Fits := by decide +kernel
  obtain ⟨-, hsame⟩ := ofBytes_of_grows hread
  have hannotated := hsame _ annotated [] (List.append_nil _).symm
    complete_fieldAndMethod.holds hgrows hfits
  rw [List.append_nil] at hannotated
  exact ⟨hread, hgrows, hfits, hannotated⟩

end ClassFile

end Backref
