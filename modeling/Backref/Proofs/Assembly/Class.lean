import Backref.Proofs.Assembly.Code
import Backref.Proofs.ClassFile.Written
import Backref.Assembly.Class

/-!
# What an assembled class consists of

Assembling a class adds the bodies of its methods one after the other, then
interns its names. A class file that covers the last state covers every state
on the way, so each body in it still refers to what its emissions were asked
for, and each index of a member still names what the member was called.

Main results:

* `Assembler.addMethods_bodies` — what the bodies refer to;
* `Assembler.interns_links` — what the indices of the parts stand for.
-/

namespace Backref

open Discovery

/-- The references of the body of a method. -/
def MethodSpec.bodyTargets (m : MethodSpec) : List Symbol :=
  match m.body with
  | none => []
  | some es => es.flatMap Emission.targets

namespace Assembler

-- ---------------------------------------------------------------------------
-- Bodies
-- ---------------------------------------------------------------------------

/-- The constants and the bootstrap methods of a state are still there later. -/
abbrev Grows (a a' : Assembler) : Prop :=
  Extends a.pool.pool a.bootstraps a'.pool.pool a'.bootstraps

/-- The state in which the body of a method starts. -/
def encoder (a : Assembler) (m : MethodSpec) (argumentSlots : Nat) : Encoder :=
  ⟨a.pool, a.bootstraps, a.marks, #[], defaultMaxStack, defaultMaxLocals m.access argumentSlots⟩

/-- A method whose emissions keep to the rules. -/
def Regular (a : Assembler) (m : MethodSpec) : Prop :=
  ∀ es, m.body = some es → ∀ slots, MethodType.argumentSlots m.descriptor = .ok slots →
    Emission.AllRegular es (a.encoder m slots)

/-- Methods whose emissions all keep to the rules, each where it comes to stand. -/
def AllRegular : List MethodSpec → Assembler → Prop
  | [], _ => True
  | m :: ms, a => a.Regular m ∧ ∀ a', addMethod m a = .ok () a' → AllRegular ms a'

/-- A method's code in a class: it refers to what the body refers to, and can be written. -/
def BodyOf (c : ClassFile) (m : MethodSpec) (body : Option Code) : Prop :=
  BodyRefers true c m.bodyTargets body ∧ ∀ code, body = some code → code.Complete

/-- A body is added when its calls succeed and leave some code. -/
theorem addBody_eq_ok {m : MethodSpec} {slots : Nat} {body : Encoding Unit} {a a' : Assembler} :
    addBody m slots body a = .ok () a' ↔
      ∃ s : Encoder, body (a.encoder m slots) = .ok () s ∧ s.code.isEmpty = false ∧
        a' = ⟨s.pool, s.bootstraps, s.marks,
          a.bodies.push (some ⟨s.maxStack, s.maxLocals, s.code.toList, #[]⟩)⟩ := by
  obtain ⟨pool, rows, marks, bodies⟩ := a
  unfold addBody encoder
  simp only
  generalize body _ = result
  cases result with
  | error fault s => simp
  | ok u s =>
    -- a body without code is turned down
    simp only [EStateM.Result.ok.injEq, exists_eq_left', true_and]
    cases s.code.isEmpty with
    | true => simp
    | false =>
      simp only [Bool.false_eq_true, if_false, EStateM.Result.ok.injEq, true_and]
      exact eq_comm

/-- Adding a method adds one body, which refers to what it was asked for. -/
theorem addMethod_body {m : MethodSpec} {a a' : Assembler} (ha : a.pool.Sound)
    (hregular : a.Regular m) (h : addMethod m a = .ok () a') :
    a'.pool.Sound ∧ a.Grows a' ∧ ∃ body, a'.bodies = a.bodies.push body ∧
      ∀ c : ClassFile, c.Covers a'.pool.pool a'.bootstraps → BodyOf c m body := by
  unfold addMethod at h
  cases hbody : m.body with
  | none =>
    rw [hbody] at h
    -- an abstract method adds nothing but its place among the bodies
    obtain rfl := (EStateM.Result.ok.inj h).2
    refine ⟨ha, .refl _ _, none, rfl, fun c _ => ⟨?_, fun _ h => nomatch h⟩⟩
    show m.bodyTargets = []
    rw [MethodSpec.bodyTargets, hbody]
  | some es =>
    rw [hbody] at h
    obtain ⟨slots, between, hslots, h⟩ := bind_eq_ok.mp h
    obtain ⟨hparsed, rfl⟩ := ofExcept_eq_ok.mp hslots
    obtain ⟨s, hrun, hfull, rfl⟩ := addBody_eq_ok.mp h
    obtain ⟨hsound, hgrows, bytes, hcode, hrefers⟩ :=
      Emission.runAll_refers (s := a.encoder m slots) ha (hregular es hbody slots hparsed) hrun
    -- the code of a method starts empty, so all of it comes from the emissions
    have hbytes : s.code.toList = bytes := hcode
    refine ⟨hsound, hgrows, _, rfl, fun c hc => ⟨?_, ?_⟩⟩
    · obtain ⟨is, htiled, his⟩ := hrefers c hc
      refine ⟨is, ?_, ?_⟩
      · rw [hbytes]
        exact htiled
      · rw [MethodSpec.bodyTargets, hbody]
        exact his
    · rintro code ⟨⟩
      refine ⟨?_, Nat.zero_le _⟩
      simpa using hfull

/-- Adding methods adds a body for each of them, in order. -/
theorem addMethods_bodies {ms : List MethodSpec} {a a' : Assembler} (ha : a.pool.Sound)
    (hregular : AllRegular ms a) (h : addMethods ms a = .ok () a') :
    a'.pool.Sound ∧ a.Grows a' ∧ ∃ bodies, a'.bodies.toList = a.bodies.toList ++ bodies ∧
      ∀ c : ClassFile, c.Covers a'.pool.pool a'.bootstraps → List.Forall₂ (BodyOf c) ms bodies := by
  -- the induction is on the methods; each adds one body behind those before it
  induction ms generalizing a with
  | nil =>
    obtain ⟨-, rfl⟩ := pure_eq_ok.mp h
    exact ⟨ha, .refl _ _, [], by simp, fun _ _ => .nil⟩
  | cons m ms ih =>
    obtain ⟨hfirst, hothers⟩ := hregular
    obtain ⟨_, between, hadd, hrest⟩ := bind_eq_ok.mp h
    obtain ⟨hsound, hgrows, body, hbody, hbodyOf⟩ := addMethod_body ha hfirst hadd
    obtain ⟨hsound', hgrows', bodies, hbodies, hall⟩ := ih hsound (hothers between hadd) hrest
    refine ⟨hsound', hgrows.trans hgrows', body :: bodies, ?_, fun c hc => ?_⟩
    · rw [hbodies, hbody]
      simp
    · exact .cons (hbodyOf c (hgrows'.trans hc)) (hall c hc)

-- ---------------------------------------------------------------------------
-- Names
-- ---------------------------------------------------------------------------

/-- A field of a class stands for a field that was asked for. -/
def FieldOf (pool : ConstantPool) (spec : FieldSpec) (f : Field) : Prop :=
  f.access = spec.access ∧ pool.NamesText f.name spec.name ∧
    pool.NamesText f.descriptor spec.descriptor

/-- A method of a class stands for a method that was asked for, whose code is known. -/
def MethodOf (pool : ConstantPool) (spec : MethodSpec × Option Code) (m : Method) : Prop :=
  m.access = spec.1.access ∧ pool.NamesText m.name spec.1.name ∧
    pool.NamesText m.descriptor spec.1.descriptor ∧ m.code = spec.2

theorem interns_field (f : FieldSpec) :
    PoolBuilder.Interns (internField f) fun pool x => FieldOf pool f x :=
  ((PoolBuilder.interns_utf8 f.name).bind ConstantPool.NamesText.mono fun name =>
    (PoolBuilder.interns_utf8 f.descriptor).bind ConstantPool.NamesText.mono fun descriptor =>
      .pure (Q := fun _ x => x = ⟨f.access, name, descriptor⟩) fun _ => rfl).imp <| by
    rintro pool x ⟨name, hname, descriptor, hdescriptor, rfl⟩
    exact ⟨rfl, hname, hdescriptor⟩

/-- A method is put in the pool by its name and its descriptor; its code is there already. -/
theorem interns_method (m : MethodSpec × Option Code) :
    PoolBuilder.Interns (internMethod m) fun pool x => MethodOf pool m x :=
  ((PoolBuilder.interns_utf8 m.1.name).bind ConstantPool.NamesText.mono fun name =>
    (PoolBuilder.interns_utf8 m.1.descriptor).bind ConstantPool.NamesText.mono fun descriptor =>
      .pure (Q := fun _ x => x = ⟨m.1.access, name, descriptor, m.2⟩) fun _ => rfl).imp <| by
    rintro pool x ⟨name, hname, descriptor, hdescriptor, rfl⟩
    exact ⟨rfl, hname, hdescriptor, rfl⟩

/-- An index of the superclass: of nothing where there is none. -/
def NamesSuper (pool : ConstantPool) (i : UInt16) : Option String → Prop
  | none => i = 0
  | some name => pool.NamesClass i name

/-- A superclass is put in the pool, or zero stands for there being none. -/
theorem interns_super (name : Option String) :
    PoolBuilder.Interns (internSuper name) fun pool i => NamesSuper pool i name := by
  cases name with
  | none => exact .pure fun _ => rfl
  | some name => exact PoolBuilder.interns_classInfo name

/-- The name of an attribute is put in the pool if the attribute is needed. -/
theorem interns_attribute (needed : Bool) (name : String) :
    PoolBuilder.Interns (internAttribute needed name) fun pool i =>
      needed = true → pool.NamesText i name := by
  cases needed with
  | false => exact .pure fun _ h => nomatch h
  | true => exact (PoolBuilder.interns_utf8 name).imp fun _ _ h _ => h

section Mono

variable {pool larger : ConstantPool}

theorem FieldOf.mono {spec : FieldSpec} {f : Field} (h : FieldOf pool spec f)
    (hw : pool.Within larger) : FieldOf larger spec f :=
  ⟨h.1, h.2.1.mono hw, h.2.2.mono hw⟩

theorem MethodOf.mono {spec : MethodSpec × Option Code} {m : Method} (h : MethodOf pool spec m)
    (hw : pool.Within larger) : MethodOf larger spec m :=
  ⟨h.1, h.2.1.mono hw, h.2.2.1.mono hw, h.2.2.2⟩

theorem NamesSuper.mono {i : UInt16} {name : Option String} (h : NamesSuper pool i name)
    (hw : pool.Within larger) : NamesSuper larger i name := by
  cases name with
  | none => exact h
  | some name => exact ConstantPool.NamesClass.mono h hw

end Mono

/-- What the parts of a class file stand for. -/
structure Linked (pool : ConstantPool) (spec : ClassSpec) (bodies : Array (Option Code))
    (hasBootstraps : Bool) (l : Links) : Prop where
  thisClass : pool.NamesClass l.thisClass spec.name
  superClass : NamesSuper pool l.superClass spec.superName
  interfaces : List.Forall₂ (fun name i => pool.NamesClass i name) spec.interfaces
    l.interfaces.toList
  fields : List.Forall₂ (FieldOf pool) spec.fields l.fields.toList
  methods : List.Forall₂ (MethodOf pool) (spec.methods.zip bodies.toList) l.methods.toList
  codeName : bodies.any Option.isSome = true → pool.NamesText l.codeName ClassFile.codeAttribute
  bootstrapName : hasBootstraps = true →
    pool.NamesText l.bootstrapName ClassFile.bootstrapAttribute

/-- Interning the names of a class answers the parts of a class file. -/
theorem interns_links (spec : ClassSpec) (bodies : Array (Option Code)) (hasBootstraps : Bool) :
    PoolBuilder.Interns (internLinks spec bodies hasBootstraps) fun pool l =>
      Linked pool spec bodies hasBootstraps l := by
  have hinterfaces := PoolBuilder.interns_internAll PoolBuilder.interns_classInfo
    ConstantPool.NamesClass.mono spec.interfaces
  have hfields := PoolBuilder.interns_internAll interns_field FieldOf.mono spec.fields
  have hmethods := PoolBuilder.interns_internAll interns_method MethodOf.mono
    (spec.methods.zip bodies.toList)
  have hcode := interns_attribute (bodies.any Option.isSome) ClassFile.codeAttribute
  have hbootstrap := interns_attribute hasBootstraps ClassFile.bootstrapAttribute
  -- every part keeps its meaning while the pool grows for the later ones
  refine ((PoolBuilder.interns_classInfo spec.name).bind ConstantPool.NamesClass.mono
      fun thisClass =>
    (interns_super spec.superName).bind NamesSuper.mono fun superClass =>
    hinterfaces.bind (fun h hw => h.imp fun _ _ h => h.mono hw) fun interfaces =>
    hfields.bind (fun h hw => h.imp fun _ _ h => h.mono hw) fun fields =>
    hmethods.bind (fun h hw => h.imp fun _ _ h => h.mono hw) fun methods =>
    hcode.bind (fun h hw needed => (h needed).mono hw) fun codeName =>
    hbootstrap.bind (fun h hw needed => (h needed).mono hw) fun bootstrapName =>
    .pure (Q := fun _ l => l = ⟨thisClass, superClass, interfaces, fields, methods, codeName,
      bootstrapName⟩) fun _ => rfl).imp ?_
  rintro pool l ⟨_, hthis, _, hsuper, _, hinterfaces, _, hfields, _, hmethods, _, hcode, _,
    hbootstrap, rfl⟩
  exact ⟨hthis, hsuper, hinterfaces, hfields, hmethods, hcode, hbootstrap⟩

end Assembler

end Backref
