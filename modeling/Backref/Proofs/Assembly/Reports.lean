import Backref.Proofs.Assembly.Class

/-!
# What an assembled class refers to

The written form of a class is read as the class file that assembling it put
together, so a search of it finds what the class was asked to refer to.

Main results:

* `ClassSpec.findings_assemble` — a search of the assembled bytes finds the
  references of the class as it was described;
* `ClassSpec.reports_assemble` — and reports them in that order.
-/

namespace Backref

open Discovery

-- ---------------------------------------------------------------------------
-- What a class is asked for
-- ---------------------------------------------------------------------------

/-- The references of a method: the classes in its descriptor, then what its body refers to. -/
def MethodSpec.references (owner : String) (m : MethodSpec) : List Reference :=
  noted (.method ⟨owner, m.name, m.descriptor⟩) (methodTypeTargets m.descriptor ++ m.bodyTargets)

/-- The references of a field: the class in its type. -/
def FieldSpec.references (owner : String) (f : FieldSpec) : List Reference :=
  noted (.field ⟨owner, f.name, f.descriptor⟩) (fieldTypeTargets f.descriptor)

/-- The references of a class: those of its fields in order, then those of its
methods in order. -/
def ClassSpec.references (spec : ClassSpec) : List Reference :=
  spec.fields.flatMap (FieldSpec.references spec.name) ++
    spec.methods.flatMap (MethodSpec.references spec.name)

-- ---------------------------------------------------------------------------
-- Whole classes
-- ---------------------------------------------------------------------------

namespace ClassSpec

open Assembler

/-- The class file that stands for a description. -/
def classFile (spec : ClassSpec) (pool : ConstantPool) (l : Links)
    (rows : Array BootstrapMethod) : ClassFile where
  minor := spec.minor
  major := spec.major
  pool := pool
  access := spec.access
  thisClass := l.thisClass
  superClass := l.superClass
  interfaces := l.interfaces
  fields := l.fields
  methods := l.methods
  bootstrapMethods := rows

/-- A class whose members have descriptors, and whose bodies keep to the rules
of the instruction set. -/
structure Regular (spec : ClassSpec) : Prop where
  fields : ∀ f ∈ spec.fields, ∃ t : FieldType, t.SpelledBy f.descriptor
  methods : ∀ m ∈ spec.methods, ∃ t : MethodType, t.SpelledBy m.descriptor
  bodies : AllRegular spec.methods .empty

/-- A class is finished when its names are linked and its parts encoded. -/
theorem finish_eq_ok {spec : ClassSpec} {a : Assembler} {bytes : Bytes} :
    a.finish spec = .ok bytes ↔ ∃ l pool,
      internLinks spec a.bodies (!a.bootstraps.isEmpty) a.pool = .ok l pool ∧
      ClassFile.encode l.codeName l.bootstrapName (spec.classFile pool.pool l a.bootstraps) =
        .ok bytes := by
  unfold finish
  cases hlinks : internLinks spec a.bodies (!a.bootstraps.isEmpty) a.pool with
  | error fault pool => simp
  | ok l pool => simp [classFile]

/-- A class is assembled when its methods are added and it is finished. -/
theorem assemble_eq_ok {spec : ClassSpec} {bytes : Bytes} :
    spec.assemble = .ok bytes ↔ ∃ a l pool, addMethods spec.methods .empty = .ok () a ∧
      internLinks spec a.bodies (!a.bootstraps.isEmpty) a.pool = .ok l pool ∧
      ClassFile.encode l.codeName l.bootstrapName (spec.classFile pool.pool l a.bootstraps) =
        .ok bytes := by
  unfold assemble assembly
  cases hadd : addMethods spec.methods .empty with
  | error fault a => simp
  | ok u a =>
    simp only [EStateM.Result.ok.injEq, true_and, exists_and_left, exists_eq_left']
    rw [finish_eq_ok]

variable {spec : ClassSpec} {a : Assembler} {l : Links} {pool : ConstantPool}

/-- The code of a method of the class file is one of the bodies. -/
theorem code_mem_bodies {m : Method} {bodies : List (Option Code)}
    (hmethods : List.Forall₂ (MethodOf pool) (spec.methods.zip bodies) l.methods.toList)
    (hm : m ∈ l.methods) : m.code ∈ bodies := by
  obtain ⟨⟨described, body⟩, hmem, -, -, -, hcode⟩ :=
    exists_of_mem_forall₂ hmethods (Array.mem_toList_iff.mpr hm)
  rw [hcode]
  exact (List.of_mem_zip hmem).2

/-- The class file has all that its written form needs, if its bodies can be written. -/
theorem complete_classFile (hfilled : ∃ ks, pool.Filled ks)
    (hlinked : Linked pool spec a.bodies (!a.bootstraps.isEmpty) l)
    (hbodies : ∀ code, some code ∈ a.bodies.toList → code.Complete) :
    (spec.classFile pool l a.bootstraps).Complete l.codeName l.bootstrapName where
  pool := hfilled
  code := by
    intro m hm code hcode
    have hmem := code_mem_bodies hlinked.methods hm
    rw [hcode] at hmem
    exact hbodies code hmem
  codeName := by
    intro m hm hcode
    -- where some method has code, the name of its attribute was asked for
    have hmem := code_mem_bodies hlinked.methods hm
    refine hlinked.codeName (Array.any_eq_true'.mpr ⟨m.code, Array.mem_toList_iff.mp hmem, ?_⟩)
    exact Option.isSome_iff_ne_none.mpr hcode
  bootstrapName := by
    intro hrows
    refine hlinked.bootstrapName ?_
    rw [Bool.not_eq_true', Array.isEmpty_eq_false_iff]
    exact hrows

/-- A field that stands for its description is found to refer to what that refers to. -/
theorem fieldFinds_references {c : ClassFile} {owner : String} {described : FieldSpec} {f : Field}
    (h : FieldOf c.pool described f) (ht : ∃ t : FieldType, t.SpelledBy described.descriptor) :
    FieldFinds c owner f (described.references owner) :=
  ⟨_, ⟨rfl, h.2.1, h.2.2⟩, _, fieldTypeRefers_targets ht, rfl⟩

/-- A method that stands for its description is found to refer to what that refers to. -/
theorem methodFinds_references {c : ClassFile} {owner : String} {described : MethodSpec}
    {m : Method} (h : MethodOf c.pool (described, m.code) m) (hbody : BodyOf c described m.code)
    (ht : ∃ t : MethodType, t.SpelledBy described.descriptor) :
    MethodFinds true c owner m (described.references owner) :=
  ⟨_, ⟨rfl, h.2.1, h.2.2.1⟩, _, ⟨_, _, methodTypeRefers_targets ht, hbody.1, rfl⟩, rfl⟩

/-- The members of the class file make the references of the description. -/
theorem classFinds_references (hspec : spec.Regular)
    (hlinked : Linked pool spec a.bodies (!a.bootstraps.isEmpty) l)
    (hbodies : List.Forall₂ (BodyOf (spec.classFile pool l a.bootstraps)) spec.methods
      a.bodies.toList) :
    ClassFinds true (spec.classFile pool l a.bootstraps) spec.references := by
  refine ⟨spec.name, _, _, hlinked.thisClass, ?_, ?_, rfl⟩
  · exact inOrder_of_forall₂ hlinked.fields fun f hf _ h =>
      fieldFinds_references h (hspec.fields f hf)
  · -- the bodies are only known next to the methods that they belong to
    have hfirst : (spec.methods.zip a.bodies.toList).map Prod.fst = spec.methods :=
      List.map_fst_zip (Nat.le_of_eq hbodies.length_eq)
    rw [← hfirst, List.flatMap_map]
    refine inOrder_of_forall₂ hlinked.methods fun p hp m h => ?_
    obtain ⟨described, body⟩ := p
    obtain rfl : m.code = body := h.2.2.2
    exact methodFinds_references h (List.forall₂_zip hbodies hp)
      (hspec.methods described (List.of_mem_zip hp).1)

/-- A search of the written form of a class finds its references, in order, and
nothing else, and reaches the end of it. -/
theorem findings_assemble {bytes : Bytes} (hspec : spec.Regular)
    (hbytes : spec.assemble = .ok bytes) :
    Findings.ofBytes true bytes = ⟨spec.references.toArray, none⟩ := by
  obtain ⟨a, l, pool, hadd, hlinks, hencode⟩ := assemble_eq_ok.mp hbytes
  -- the bodies fill the pool first, then the names do
  obtain ⟨hsound, -, bodies, hbodies, hrefers⟩ :=
    addMethods_bodies PoolBuilder.sound_empty hspec.bodies hadd
  obtain ⟨hsound', hwithin, hlinked⟩ := (interns_links spec _ _).of_ok hsound hlinks
  obtain rfl : a.bodies.toList = bodies := by simpa [empty] using hbodies
  -- the class file has the last pool, so the bodies keep their meaning in it
  have hcovers : (spec.classFile pool.pool l a.bootstraps).Covers a.pool.pool a.bootstraps :=
    ⟨hwithin, List.prefix_refl _⟩
  have hall := hrefers _ hcovers
  have hwritten : ∀ code, some code ∈ a.bodies.toList → code.Complete := by
    intro code hcode
    obtain ⟨described, -, hbody⟩ := exists_of_mem_forall₂ hall hcode
    exact hbody.2 code rfl
  -- reading the bytes gives the class file back
  have hcomplete := complete_classFile hsound'.filled hlinked hwritten
  rw [Findings.ofBytes, hcomplete.ofBytes hencode]
  exact Findings.ofClass_eq_iff.mpr (classFinds_references hspec hlinked hall)

/-- What a search of the written form of the class reports. -/
def reports (spec : ClassSpec) : List Report :=
  spec.references.map fun r => (r.target.usage, r.user.usage)

/-- A search of the written form of a class reaches the end of it, and reports
what the class was asked to refer to, in order. -/
theorem reports_assemble {bytes : Bytes} (hspec : spec.Regular)
    (hbytes : spec.assemble = .ok bytes) :
    (Findings.ofBytes true bytes).fault = none ∧
      (Findings.ofBytes true bytes).reports = spec.reports := by
  have hfound := findings_assemble hspec hbytes
  rw [hfound]
  exact ⟨rfl, rfl⟩

/-! ### A small class -/

/-- A method that loads the class `A`, and forgets it. -/
def loadingMethod : MethodSpec :=
  ⟨⟨0⟩, "m", "()V", some [.loadClass "A", .raw 0x57 [], .raw 0xB1 []]⟩

/-- A class with a field of type `B[]` and a method that loads a class. -/
def loadingClass : ClassSpec where
  name := "C"
  superName := none
  fields := [⟨⟨0⟩, "f", "[LB;"⟩]
  methods := [loadingMethod]

theorem regular_loadingClass : loadingClass.Regular where
  fields := by
    intro f hf
    obtain rfl := List.mem_singleton.mp hf
    have hparsed : FieldType.parse "[LB;" = .ok ⟨1, .object "B"⟩ := by decide +kernel
    exact ⟨_, FieldType.parse_eq_ok.mp hparsed⟩
  methods := by
    intro m hm
    obtain rfl := List.mem_singleton.mp hm
    have hparsed : MethodType.parse "()V" = .ok ⟨[], ⟨0, .primitive .void⟩⟩ := by decide +kernel
    exact ⟨_, MethodType.parse_eq_ok.mp hparsed⟩
  bodies := by
    refine ⟨fun es hes slots _ => ?_, fun _ _ => trivial⟩
    obtain rfl := Option.some.inj hes
    have hnamed : FieldType.ofOperand "A" = .ok ⟨0, .object "A"⟩ := by decide +kernel
    exact ⟨⟨_, FieldType.ofOperand_eq_ok.mp hnamed⟩, fun _ _ =>
      ⟨Emission.exists_laid_alone (by decide +kernel), fun _ _ =>
        ⟨Emission.exists_laid_alone (by decide +kernel), fun _ _ => trivial⟩⟩⟩

/-- The constants of the small class: those of its body, then those of its names. -/
def loadingConstants : List Constant :=
  [.utf8 "A", .classInfo 1, .utf8 "C", .classInfo 3, .utf8 "f", .utf8 "[LB;", .utf8 "m",
    .utf8 "()V", .utf8 "Code"]

def loadingCode : Code := ⟨8, 1, [0x12, 2, 0x57, 0xB1], #[]⟩

/-- The first constants of the small class. -/
def loadingPool (count : Nat) : PoolBuilder := .ofConstants (loadingConstants.take count)

theorem onPool_of_ok {α : Type} {x : Interning α} {s : Encoder} {b : PoolBuilder} {a : α}
    (h : x s.pool = .ok a b) : Encoder.onPool x s = .ok a { s with pool := b } := by
  unfold Encoder.onPool
  simp only [h]

theorem addMethods_loadingClass :
    addMethods loadingClass.methods .empty =
      .ok () ⟨loadingPool 2, #[], #[], #[some loadingCode]⟩ := by
  have hslots : MethodType.argumentSlots "()V" = .ok 0 := by decide +kernel
  have htext : PoolBuilder.utf8 "A" (loadingPool 0) = .ok 1 (loadingPool 1) :=
    PoolBuilder.utf8_take rfl (by decide +kernel)
  have hclass : PoolBuilder.classInfo "A" (loadingPool 0) = .ok 2 (loadingPool 2) :=
    bind_eq_ok.mpr ⟨1, _, htext, PoolBuilder.intern_take rfl (by decide +kernel)⟩
  have hload : (Emission.loadClass "A").run (encoder .empty loadingMethod 0) =
      .ok () ⟨loadingPool 2, #[], #[], #[0x12, 2], 8, 1⟩ :=
    bind_eq_ok.mpr ⟨2, _, onPool_of_ok hclass, rfl⟩
  have hbody : addBody loadingMethod 0
      (Emission.runAll [.loadClass "A", .raw 0x57 [], .raw 0xB1 []]) .empty =
      .ok () ⟨loadingPool 2, #[], #[], #[some loadingCode]⟩ :=
    addBody_eq_ok.mpr ⟨_, bind_eq_ok.mpr ⟨(), _, hload, rfl⟩, rfl, rfl⟩
  exact bind_eq_ok.mpr ⟨(), _, bind_eq_ok.mpr ⟨0, _, ofExcept_eq_ok.mpr ⟨hslots, rfl⟩, hbody⟩, rfl⟩

/-- Linking puts in its own name, its field, its method and the name of the code. -/
theorem internLinks_loadingClass :
    internLinks loadingClass #[some loadingCode] false (loadingPool 2) =
      .ok ⟨4, 0, #[], #[⟨⟨0⟩, 5, 6⟩], #[⟨⟨0⟩, 7, 8, some loadingCode⟩], 9, 0⟩ (loadingPool 9) := by
  have hthis : PoolBuilder.classInfo "C" (loadingPool 2) = .ok 4 (loadingPool 4) :=
    bind_eq_ok.mpr ⟨3, _, PoolBuilder.utf8_take rfl (by decide +kernel),
      PoolBuilder.intern_take rfl (by decide +kernel)⟩
  have hfield : internField ⟨⟨0⟩, "f", "[LB;"⟩ (loadingPool 4) = .ok ⟨⟨0⟩, 5, 6⟩ (loadingPool 6) :=
    bind_eq_ok.mpr ⟨5, _, PoolBuilder.utf8_take rfl (by decide +kernel),
      bind_eq_ok.mpr ⟨6, _, PoolBuilder.utf8_take rfl (by decide +kernel), rfl⟩⟩
  have hmethod : internMethod (loadingMethod, some loadingCode) (loadingPool 6) =
      .ok ⟨⟨0⟩, 7, 8, some loadingCode⟩ (loadingPool 8) :=
    bind_eq_ok.mpr ⟨7, _, PoolBuilder.utf8_take rfl (by decide +kernel),
      bind_eq_ok.mpr ⟨8, _, PoolBuilder.utf8_take rfl (by decide +kernel), rfl⟩⟩
  have hname : internAttribute (#[some loadingCode].any Option.isSome) ClassFile.codeAttribute
      (loadingPool 8) = .ok 9 (loadingPool 9) := by
    have hneeded : #[some loadingCode].any Option.isSome = true := by decide +kernel
    have htext : PoolBuilder.utf8 "Code" (loadingPool 8) = .ok 9 (loadingPool 9) :=
      PoolBuilder.utf8_take rfl (by decide +kernel)
    rw [hneeded]
    exact htext
  -- no superclass and no interfaces, then the members
  refine bind_eq_ok.mpr ⟨4, _, hthis, bind_eq_ok.mpr ⟨0, _, rfl, bind_eq_ok.mpr ⟨#[], _, rfl, ?_⟩⟩⟩
  refine bind_eq_ok.mpr ⟨#[⟨⟨0⟩, 5, 6⟩], _, bind_eq_ok.mpr ⟨_, _, hfield, rfl⟩, ?_⟩
  refine bind_eq_ok.mpr ⟨#[⟨⟨0⟩, 7, 8, some loadingCode⟩], _,
    bind_eq_ok.mpr ⟨_, _, hmethod, rfl⟩, ?_⟩
  exact bind_eq_ok.mpr ⟨9, _, hname, bind_eq_ok.mpr ⟨0, _, rfl, rfl⟩⟩

/-- The written form of the small class. -/
def loadingBytes : Bytes :=
  [202, 254, 186, 190, 0, 0, 0, 52, 0, 10, 1, 0, 1, 65, 7, 0, 1, 1, 0, 1, 67, 7, 0, 3, 1, 0, 1, 102,
    1, 0, 4, 91, 76, 66, 59, 1, 0, 1, 109, 1, 0, 3, 40, 41, 86, 1, 0, 4, 67, 111, 100, 101, 0, 33,
    0, 4, 0, 0, 0, 0, 0, 1, 0, 0, 0, 5, 0, 6, 0, 0, 0, 1, 0, 0, 0, 7, 0, 8, 0, 1, 0, 9, 0, 0, 0, 16,
    0, 8, 0, 1, 0, 0, 0, 4, 18, 2, 87, 177, 0, 0, 0, 0, 0, 0]

theorem assemble_loadingClass : loadingClass.assemble = .ok loadingBytes := by
  refine assemble_eq_ok.mpr ⟨_, _, _, addMethods_loadingClass, internLinks_loadingClass, ?_⟩
  decide +kernel

/-- The small class refers to the class of its field, and to the class that it loads. -/
theorem reports_loadingClass :
    loadingClass.Regular ∧ loadingClass.assemble = .ok loadingBytes ∧
      (Findings.ofBytes true loadingBytes).fault = none ∧
      (Findings.ofBytes true loadingBytes).reports =
        [("s:B", "f:C:f:[LB;"), ("s:A", "m:C:m:()V")] := by
  have hreports := reports_assemble regular_loadingClass assemble_loadingClass
  have hspelled : loadingClass.reports = [("s:B", "f:C:f:[LB;"), ("s:A", "m:C:m:()V")] := by
    decide +kernel
  rw [hspelled] at hreports
  exact ⟨regular_loadingClass, assemble_loadingClass, hreports⟩

end ClassSpec

end Backref
