import Backref.Proofs.Assembly.Body
import Backref.Proofs.Assembly.Reports

/-!
# What calls of a class builder declare

A class is declared by calls, one after the other: of several versions, access
flags or superclasses the last one counts, interfaces and members are
collected, and a method has its body run at once, which fills the pool before
the names of the class do. Assembling a described class is one such sequence
of calls.

The bytes that a builder writes in the end are read as a class file that is
what the calls have declared: the choices that were made last, the members in
order under their names, and for each body the code that its encoder had when
the body was done.

Main results:

* `ClassSpec.assemble_eq_performAll` — assembling a described class by calls;
* `ClassBuilder.declared_of_finish` — reading back what a builder has written.
-/

namespace Backref

-- ---------------------------------------------------------------------------
-- Calls
-- ---------------------------------------------------------------------------

/-- A method to declare. An abstract one has no body. -/
structure MethodCall where
  access : AccessFlags
  name : String
  descriptor : String
  body : Option (List Attempt)
  deriving DecidableEq, Repr

/-- A call of a class builder. -/
inductive ClassCall
  | access (flags : AccessFlags)
  | version (major minor : UInt16)
  /-- Chooses a superclass, or that there is none. -/
  | superName (choice : Option String)
  | interface (name : String)
  | field (f : FieldSpec)
  | method (m : MethodCall)
  deriving DecidableEq, Repr

/-- A class that is being declared: what has been said about it, and what its
methods' bodies have added. -/
structure ClassBuilder where
  spec : ClassSpec
  state : Assembler

namespace MethodCall

/-- What is asked of a method. -/
def spec (m : MethodCall) : MethodSpec :=
  ⟨m.access, m.name, m.descriptor, m.body.map fun ts => ts.map Attempt.emission⟩

/-- Adds a method, after its body has been run. -/
def add (m : MethodCall) : Assembling Unit := do
  match m.body with
  | none => modify fun a => { a with bodies := a.bodies.push none }
  | some ts =>
    let slots ← MonadExcept.ofExcept (MethodType.argumentSlots m.descriptor)
    Assembler.addBody m.spec slots (Attempt.runAll ts)

end MethodCall

namespace ClassCall

/-- What has been said about a class after one more call. -/
def declare (spec : ClassSpec) : ClassCall → ClassSpec
  | access flags => { spec with access := flags }
  | version major minor => { spec with major, minor }
  | superName choice => { spec with superName := choice }
  | interface name => { spec with interfaces := spec.interfaces ++ [name] }
  | field f => { spec with fields := spec.fields ++ [f] }
  | method m => { spec with methods := spec.methods ++ [m.spec] }

/-- What a call adds to a class beside what it says about it. -/
def add : ClassCall → Assembling Unit
  | method m => m.add
  | _ => pure ()

/-- Makes a call. A builder whose call has failed is gone. -/
def perform (call : ClassCall) (b : ClassBuilder) : Except Fault ClassBuilder :=
  match call.add b.state with
  | .ok _ state => .ok ⟨call.declare b.spec, state⟩
  | .error fault _ => .error fault

/-- The access flags that a call chooses. -/
def access? : ClassCall → Option AccessFlags
  | access flags => some flags
  | _ => none

/-- The major and the minor version that a call chooses. -/
def version? : ClassCall → Option (UInt16 × UInt16)
  | version major minor => some (major, minor)
  | _ => none

/-- The superclass that a call chooses, or that it chooses none. -/
def superName? : ClassCall → Option (Option String)
  | superName choice => some choice
  | _ => none

/-- The interface that a call adds. -/
def interface? : ClassCall → Option String
  | interface name => some name
  | _ => none

/-- The field that a call adds. -/
def field? : ClassCall → Option FieldSpec
  | field f => some f
  | _ => none

/-- The method that a call adds. -/
def method? : ClassCall → Option MethodCall
  | method m => some m
  | _ => none

end ClassCall

namespace ClassBuilder

open Assembler

/-- The builder of a class of which nothing but its name has been said. -/
def new (name : String) : ClassBuilder := ⟨{ name }, .empty⟩

/-- Makes calls one after the other. -/
def performAll : List ClassCall → ClassBuilder → Except Fault ClassBuilder
  | [], b => .ok b
  | call :: calls, b =>
    match call.perform b with
    | .ok b' => performAll calls b'
    | .error fault => .error fault

/-- The written form of a class that has been declared. -/
def finish (b : ClassBuilder) : Except Fault Bytes := b.state.finish b.spec

variable {b b' : ClassBuilder} {name : String} {calls : List ClassCall}

theorem performAll_append (before after : List ClassCall) (b : ClassBuilder) :
    performAll (before ++ after) b = performAll before b >>= performAll after := by
  induction before generalizing b with
  | nil => rfl
  | cons call before ih =>
    rw [List.cons_append, performAll, performAll]
    cases call.perform b with
    | ok between => exact ih between
    | error fault => rfl

end ClassBuilder

-- ---------------------------------------------------------------------------
-- Described classes
-- ---------------------------------------------------------------------------

/-- The call for a method that gives up where an emission fails. -/
def MethodSpec.call (m : MethodSpec) : MethodCall :=
  ⟨m.access, m.name, m.descriptor, m.body.map fun es => es.map Attempt.ofEmission⟩

theorem MethodSpec.spec_call (m : MethodSpec) : m.call.spec = m := by
  have hbody : (m.body.map fun es => es.map Attempt.ofEmission).map
      (fun ts => ts.map Attempt.emission) = m.body := by
    rw [Option.map_map]
    have hid : (fun ts : List Attempt => ts.map Attempt.emission) ∘
        (fun es : List Emission => es.map Attempt.ofEmission) = id := by
      funext es
      show (es.map Attempt.ofEmission).map Attempt.emission = es
      rw [List.map_map]
      exact List.map_id es
    rw [hid, Option.map_id, id]
  unfold MethodSpec.call MethodCall.spec
  simp only [hbody]

/-- The call that declares a method adds it as the assembler does. -/
theorem MethodSpec.add_call (m : MethodSpec) : m.call.add = Assembler.addMethod m := by
  have hspec := m.spec_call
  unfold MethodCall.add Assembler.addMethod
  rw [hspec]
  obtain ⟨access, name, descriptor, body⟩ := m
  cases body with
  | none => rfl
  | some es =>
    have hbody : (MethodSpec.call ⟨access, name, descriptor, some es⟩).body =
        some (es.map Attempt.ofEmission) := rfl
    simp only [hbody, Attempt.runAll_map_ofEmission]
    rfl

namespace ClassSpec

/-- The calls that declare a class. -/
def calls (spec : ClassSpec) : List ClassCall :=
  [.access spec.access, .version spec.major spec.minor, .superName spec.superName] ++
    spec.interfaces.map .interface ++ spec.fields.map .field ++
    spec.methods.map fun m => .method m.call

open ClassBuilder Assembler

/-- Calls that add nothing beside what they say, made for the entries of a list. -/
theorem performAll_map {α : Type} {call : α → ClassCall} (extend : ClassSpec → List α → ClassSpec)
    (hadd : ∀ a, (call a).add = pure ()) (hnil : ∀ spec, extend spec [] = spec)
    (hcons : ∀ spec a as, extend ((call a).declare spec) as = extend spec (a :: as))
    (as : List α) (b : ClassBuilder) :
    performAll (as.map call) b = .ok ⟨extend b.spec as, b.state⟩ := by
  -- the induction is on the entries, for whatever has been declared before them
  induction as generalizing b with
  | nil =>
    rw [hnil]
    rfl
  | cons a as ih =>
    rw [List.map_cons, performAll, ClassCall.perform, hadd]
    show performAll _ ⟨(call a).declare b.spec, b.state⟩ = _
    rw [ih, hcons]

/-- Interfaces are declared in order, and nothing is assembled for them yet. -/
theorem performAll_interfaces (names : List String) (b : ClassBuilder) :
    performAll (names.map .interface) b =
      .ok { b with spec.interfaces := b.spec.interfaces ++ names } :=
  performAll_map (fun spec names => { spec with interfaces := spec.interfaces ++ names })
    (fun _ => rfl) (fun _ => by simp only [List.append_nil])
    (fun _ _ _ => by simp only [ClassCall.declare, List.append_assoc, List.singleton_append])
    names b

theorem performAll_fields (fs : List FieldSpec) (b : ClassBuilder) :
    performAll (fs.map .field) b = .ok { b with spec.fields := b.spec.fields ++ fs } :=
  performAll_map (fun spec fs => { spec with fields := spec.fields ++ fs })
    (fun _ => rfl) (fun _ => by simp only [List.append_nil])
    (fun _ _ _ => by simp only [ClassCall.declare, List.append_assoc, List.singleton_append]) fs b

/-- Methods are declared in order, and their bodies are assembled on the way. -/
theorem performAll_methods (ms : List MethodSpec) (b : ClassBuilder) :
    performAll (ms.map fun m => .method m.call) b =
      match addMethods ms b.state with
      | .ok _ state => .ok ⟨{ b.spec with methods := b.spec.methods ++ ms }, state⟩
      | .error fault _ => .error fault := by
  -- the induction is on the methods, for any builder; each may fail
  induction ms generalizing b with
  | nil =>
    rw [List.append_nil]
    rfl
  | cons m ms ih =>
    rw [List.map_cons, performAll, ClassCall.perform, ClassCall.add, m.add_call]
    show _ = match EStateM.bind (addMethod m) (fun _ => addMethods ms) b.state with
      | .ok _ _ => _
      | .error _ _ => _
    unfold EStateM.bind
    cases addMethod m b.state with
    | error fault state => rfl
    | ok u state =>
      simp only
      rw [ih, ClassCall.declare, m.spec_call]
      simp only [List.append_assoc, List.singleton_append]

/-- Assembling a described class is making the calls that declare it. -/
theorem assemble_eq_performAll (spec : ClassSpec) :
    spec.assemble = performAll spec.calls (.new spec.name) >>= finish := by
  unfold calls
  rw [performAll_append, performAll_append, performAll_append]
  show _ = (((performAll (spec.interfaces.map .interface) ⟨⟨spec.name, spec.access, spec.major,
    spec.minor, spec.superName, [], [], []⟩, .empty⟩ >>= _) >>= _) >>= _)
  rw [performAll_interfaces]
  show _ = ((performAll (spec.fields.map .field) _ >>= _) >>= _)
  rw [performAll_fields]
  show _ = (performAll (spec.methods.map fun m => .method m.call) _ >>= _)
  rw [performAll_methods]
  simp only [List.nil_append]
  unfold assemble assembly
  -- only the methods can fail before the class is finished
  cases addMethods spec.methods .empty with
  | ok u state => rfl
  | error fault state => rfl

end ClassSpec

-- ---------------------------------------------------------------------------
-- What has been said
-- ---------------------------------------------------------------------------

namespace ClassBuilder

open Assembler

section Said

variable {spec : ClassSpec}

/-- Of several choices the last one counts. -/
theorem choice_foldl {α : Type} (part : ClassSpec → α) {choice? : ClassCall → Option α}
    (hdeclare : ∀ spec call, part (ClassCall.declare spec call) = (choice? call).getD (part spec))
    (calls : List ClassCall) :
    part (calls.foldl ClassCall.declare spec) =
      (calls.filterMap choice?).getLastD (part spec) := by
  induction calls generalizing spec with
  | nil => rfl
  | cons call calls ih => rw [List.foldl_cons, ih, hdeclare, Attempt.filterMap_getLastD_cons]

/-- Entries are collected in order. -/
theorem entries_foldl {α : Type} (part : ClassSpec → List α) {added? : ClassCall → Option α}
    (hdeclare : ∀ spec call, part (ClassCall.declare spec call) =
      part spec ++ (added? call).toList) (calls : List ClassCall) :
    part (calls.foldl ClassCall.declare spec) = part spec ++ calls.filterMap added? := by
  induction calls generalizing spec with
  | nil => exact (List.append_nil _).symm
  | cons call calls ih =>
    rw [List.foldl_cons, ih, hdeclare, List.append_assoc]
    -- a call either adds an entry of this kind or leaves them alone
    cases hadded : added? call with
    | none => rw [List.filterMap_cons_none hadded, Option.toList_none, List.nil_append]
    | some a =>
      rw [List.filterMap_cons_some hadded, Option.toList_some, List.singleton_append]

/-- The version is the one that was set last. -/
theorem version_foldl (calls : List ClassCall) :
    ((calls.foldl ClassCall.declare spec).major, (calls.foldl ClassCall.declare spec).minor) =
      (calls.filterMap ClassCall.version?).getLastD (spec.major, spec.minor) :=
  choice_foldl (fun spec => (spec.major, spec.minor))
    (fun spec call => by cases call <;> rfl) calls

theorem access_foldl (calls : List ClassCall) :
    (calls.foldl ClassCall.declare spec).access =
      (calls.filterMap ClassCall.access?).getLastD spec.access :=
  choice_foldl ClassSpec.access (fun spec call => by cases call <;> rfl) calls

theorem superName_foldl (calls : List ClassCall) :
    (calls.foldl ClassCall.declare spec).superName =
      (calls.filterMap ClassCall.superName?).getLastD spec.superName :=
  choice_foldl ClassSpec.superName (fun spec call => by cases call <;> rfl) calls

/-- The interfaces are those that were added, in order. -/
theorem interfaces_foldl (calls : List ClassCall) :
    (calls.foldl ClassCall.declare spec).interfaces =
      spec.interfaces ++ calls.filterMap ClassCall.interface? :=
  entries_foldl ClassSpec.interfaces (fun spec call => by
    cases call <;> simp [ClassCall.declare, ClassCall.interface?]) calls

theorem fields_foldl (calls : List ClassCall) :
    (calls.foldl ClassCall.declare spec).fields =
      spec.fields ++ calls.filterMap ClassCall.field? :=
  entries_foldl ClassSpec.fields (fun spec call => by
    cases call <;> simp [ClassCall.declare, ClassCall.field?]) calls

/-- No call changes the name of the class. -/
theorem name_foldl (calls : List ClassCall) :
    (calls.foldl ClassCall.declare spec).name = spec.name := by
  induction calls generalizing spec with
  | nil => rfl
  | cons call calls ih =>
    rw [List.foldl_cons, ih]
    cases call <;> rfl

/-- The methods are those that were added, in order. -/
theorem methods_foldl (calls : List ClassCall) :
    (calls.foldl ClassCall.declare spec).methods =
      spec.methods ++ (calls.filterMap ClassCall.method?).map MethodCall.spec := by
  rw [List.map_filterMap]
  exact entries_foldl ClassSpec.methods (fun spec call => by
    cases call <;> simp [ClassCall.declare, ClassCall.method?]) calls

end Said

variable {b b' : ClassBuilder} {name : String} {calls : List ClassCall}

/-- A call succeeds when what it assembles does, and then it declares what it is about. -/
theorem perform_eq_ok {call : ClassCall} : call.perform b = .ok b' ↔
    call.add b.state = .ok () b'.state ∧ b'.spec = call.declare b.spec := by
  obtain ⟨spec, state⟩ := b'
  unfold ClassCall.perform
  cases call.add b.state with
  | error fault state' => simp
  | ok u state' =>
    simp only [Except.ok.injEq, ClassBuilder.mk.injEq, EStateM.Result.ok.injEq, true_and]
    constructor
    · rintro ⟨rfl, rfl⟩
      exact ⟨rfl, rfl⟩
    · rintro ⟨rfl, rfl⟩
      exact ⟨rfl, rfl⟩

/-- Calls succeed when the first one does and then the others. -/
theorem performAll_cons_eq_ok {call : ClassCall} : performAll (call :: calls) b = .ok b' ↔
    ∃ between, call.perform b = .ok between ∧ performAll calls between = .ok b' := by
  rw [performAll]
  cases call.perform b with
  | ok between => simp
  | error fault => simp

/-- Calls that succeed declare what they are about. -/
theorem spec_of_performAll (h : performAll calls b = .ok b') :
    b'.spec = calls.foldl ClassCall.declare b.spec := by
  induction calls generalizing b with
  | nil =>
    cases h
    rfl
  | cons call calls ih =>
    obtain ⟨between, hcall, hrest⟩ := performAll_cons_eq_ok.mp h
    rw [ih hrest, (perform_eq_ok.mp hcall).2, List.foldl_cons]

theorem methods_of_performAll (h : performAll calls (.new name) = .ok b) :
    b.spec.methods = (calls.filterMap ClassCall.method?).map MethodCall.spec := by
  rw [spec_of_performAll h, methods_foldl]
  rfl

end ClassBuilder

-- ---------------------------------------------------------------------------
-- What has been added
-- ---------------------------------------------------------------------------

namespace MethodCall

open Assembler

/-- The code of a method that is added to a class: that of its encoder when
the body is done, with the limits that the body has set, and no handlers. -/
def HasCode (m : MethodCall) (a : Assembler) (code : Option Code) : Prop :=
  match m.body with
  | none => code = none
  | some ts => ∃ slots s, MethodType.argumentSlots m.descriptor = .ok slots ∧
      Attempt.runAll ts (a.encoder m.spec slots) = .ok () s ∧ s.code.isEmpty = false ∧
      code = some {
        maxStack := (ts.filterMap fun t => t.emission.maxStack?).getLastD defaultMaxStack
        maxLocals := (ts.filterMap fun t => t.emission.maxLocals?).getLastD
          (defaultMaxLocals m.access slots)
        bytes := s.code.toList
        handlers := #[] }

/-- A method with a body is added when its descriptor can be read and the body
runs to its end and leaves code, which is then what the assembler keeps of it. -/
theorem add_eq_ok {m : MethodCall} {ts : List Attempt} {a a' : Assembler}
    (hbody : m.body = some ts) : m.add a = .ok () a' ↔
    ∃ slots s, MethodType.argumentSlots m.descriptor = .ok slots ∧
      Attempt.runAll ts (a.encoder m.spec slots) = .ok () s ∧ s.code.isEmpty = false ∧
      a' = ⟨s.pool, s.bootstraps, s.marks,
        a.bodies.push (some ⟨s.maxStack, s.maxLocals, s.code.toList, #[]⟩)⟩ := by
  unfold add
  rw [hbody]
  constructor
  · intro h
    obtain ⟨slots, between, hslots, h⟩ := bind_eq_ok.mp h
    obtain ⟨hparsed, rfl⟩ := ofExcept_eq_ok.mp hslots
    obtain ⟨s, hrun, hfull, rfl⟩ := addBody_eq_ok.mp h
    exact ⟨slots, s, hparsed, hrun, hfull, rfl⟩
  · rintro ⟨slots, s, hparsed, hrun, hfull, rfl⟩
    refine bind_eq_ok.mpr ⟨slots, a, ofExcept_eq_ok.mpr ⟨hparsed, rfl⟩, ?_⟩
    exact addBody_eq_ok.mpr ⟨s, hrun, hfull, rfl⟩

/-- Adding a method adds one body. -/
theorem add_body {m : MethodCall} {a a' : Assembler} (ha : a.pool.Sound)
    (h : m.add a = .ok () a') :
    a'.pool.Sound ∧ a.Grows a' ∧ ∃ code, a'.bodies = a.bodies.push code ∧ m.HasCode a code := by
  unfold HasCode
  -- a method without a body assembles nothing
  cases hbody : m.body with
  | none =>
    unfold add at h
    rw [hbody] at h
    obtain rfl := (EStateM.Result.ok.inj h).2
    exact ⟨ha, .refl _ _, none, rfl, rfl⟩
  | some ts =>
    obtain ⟨slots, s, hparsed, hrun, hfull, rfl⟩ := (add_eq_ok hbody).mp h
    obtain ⟨hsound, hgrows⟩ := Attempt.runAll_sound (s := a.encoder m.spec slots) ha hrun
    have hstack := Attempt.maxStack_runAll hrun
    have hlocals := Attempt.maxLocals_runAll hrun
    refine ⟨hsound, hgrows, _, rfl, slots, s, hparsed, hrun, hfull, ?_⟩
    rw [hstack, hlocals]
    rfl

/-- The code that is added can be written. -/
theorem HasCode.complete {m : MethodCall} {a : Assembler} {code : Code}
    (h : m.HasCode a (some code)) : code.Complete := by
  unfold HasCode at h
  cases hbody : m.body with
  | none =>
    rw [hbody] at h
    cases h
  | some ts =>
    rw [hbody] at h
    obtain ⟨slots, s, -, -, hfull, hcode⟩ := h
    obtain rfl := Option.some.inj hcode
    exact ⟨by simpa using hfull, Nat.zero_le _⟩

end MethodCall

namespace ClassBuilder

open Assembler

variable {b b' : ClassBuilder} {name : String} {calls : List ClassCall}

/-- A call adds a body if it is for a method. -/
theorem add_bodies {call : ClassCall} {a a' : Assembler} (ha : a.pool.Sound)
    (h : call.add a = .ok () a') :
    a'.pool.Sound ∧ a.Grows a' ∧ ∃ codes, a'.bodies.toList = a.bodies.toList ++ codes ∧
      List.Forall₂ (fun m code => m.HasCode a code) call.method?.toList codes := by
  cases call with
  | method m =>
    obtain ⟨hsound, hgrows, code, hbodies, hcode⟩ := MethodCall.add_body ha h
    refine ⟨hsound, hgrows, [code], ?_, .cons hcode .nil⟩
    rw [hbodies, Array.toList_push]
  | _ =>
    obtain ⟨-, rfl⟩ := pure_eq_ok.mp h
    exact ⟨ha, .refl _ _, [], (List.append_nil _).symm, .nil⟩

/-- The call for a method whose body runs to its end and leaves code succeeds. -/
theorem performAll_method {m : MethodCall} {ts : List Attempt} {slots : Nat} {s : Encoder}
    (hbody : m.body = some ts) (hslots : MethodType.argumentSlots m.descriptor = .ok slots)
    (hrun : Attempt.runAll ts (b.state.encoder m.spec slots) = .ok () s)
    (hfull : s.code.isEmpty = false) :
    performAll [.method m] b = .ok ⟨(ClassCall.method m).declare b.spec,
      ⟨s.pool, s.bootstraps, s.marks,
        b.state.bodies.push (some ⟨s.maxStack, s.maxLocals, s.code.toList, #[]⟩)⟩⟩ := by
  refine performAll_cons_eq_ok.mpr ⟨⟨_, _⟩, perform_eq_ok.mpr ⟨?_, rfl⟩, rfl⟩
  exact (MethodCall.add_eq_ok hbody).mpr ⟨slots, s, hslots, hrun, hfull, rfl⟩

/-- Calls add a body for each method, which can be written if there is one. -/
theorem performAll_bodies (hb : b.state.pool.Sound) (h : performAll calls b = .ok b') :
    b'.state.pool.Sound ∧ b.state.Grows b'.state ∧ ∃ codes,
      b'.state.bodies.toList = b.state.bodies.toList ++ codes ∧
      codes.length = (calls.filterMap ClassCall.method?).length ∧
      ∀ code, some code ∈ codes → code.Complete := by
  -- the induction is on the calls; each adds at most one body behind those before it
  induction calls generalizing b with
  | nil =>
    cases h
    exact ⟨hb, .refl _ _, [], (List.append_nil _).symm, rfl, by simp⟩
  | cons call calls ih =>
    obtain ⟨between, hcall, hrest⟩ := performAll_cons_eq_ok.mp h
    obtain ⟨hsound, hgrows, codes, hbodies, hcodes⟩ := add_bodies hb (perform_eq_ok.mp hcall).1
    obtain ⟨hsound', hgrows', more, hbodies', hlength, hmore⟩ := ih hsound hrest
    refine ⟨hsound', hgrows.trans hgrows', codes ++ more, ?_, ?_, ?_⟩
    · rw [hbodies', hbodies, List.append_assoc]
    · rw [List.length_append, hlength, ← hcodes.length_eq]
      -- only the call of a method adds a body
      cases hmethod : call.method? with
      | none => rw [List.filterMap_cons_none hmethod]; simp
      | some m => rw [List.filterMap_cons_some hmethod]; simp [Nat.add_comm]
    · intro code hcode
      rcases List.mem_append.mp hcode with hfirst | hlater
      · obtain ⟨m, -, hm⟩ := exists_of_mem_forall₂ hcodes hfirst
        exact hm.complete
      · exact hmore code hlater

/-- A method that was declared has been added to what the calls before it had
left, and is still there in the end: among the bodies it stands where it was
declared. -/
theorem exists_add {before after : List ClassCall} {m : MethodCall}
    (h : performAll (before ++ .method m :: after) (.new name) = .ok b) :
    ∃ b₀ a, performAll before (.new name) = .ok b₀ ∧ b₀.state.pool.Sound ∧
      m.add b₀.state = .ok () a ∧ a.Grows b.state ∧
      ∀ code, a.bodies = b₀.state.bodies.push code →
        b.state.bodies.toList[(before.filterMap ClassCall.method?).length]? = some code := by
  rw [performAll_append] at h
  obtain ⟨b₀, hbefore, h⟩ := except_bind_eq_ok.mp h
  obtain ⟨b₁, hcall, hafter⟩ := performAll_cons_eq_ok.mp h
  obtain ⟨hsound, -, codes, hcodes, hlength, -⟩ := performAll_bodies PoolBuilder.sound_empty hbefore
  have hadd := (perform_eq_ok.mp hcall).1
  obtain ⟨hsound', -, -⟩ := MethodCall.add_body hsound hadd
  obtain ⟨-, hgrows, more, hmore, -⟩ := performAll_bodies hsound' hafter
  refine ⟨b₀, b₁.state, hbefore, hsound, hadd, hgrows, fun code hcode => ?_⟩
  -- the bodies of the calls before it, its own body, and those of the calls behind it
  rw [hmore, hcode, Array.toList_push, hcodes, ← hlength]
  simp [new, empty]

-- ---------------------------------------------------------------------------
-- Reading back
-- ---------------------------------------------------------------------------

/-- The class file that a builder writes: it is read from all that was written,
wherever that stands. -/
theorem reads_classFile {bytes : Bytes} (hcalls : performAll calls (.new name) = .ok b)
    (hbytes : b.finish = .ok bytes) :
    ∃ l pool, Reader.Reads ClassFile.read bytes (b.spec.classFile pool l b.state.bootstraps) ∧
      (∃ ks, pool.Filled ks) ∧ b.state.pool.pool.Within pool ∧
      Linked pool b.spec b.state.bodies (!b.state.bootstraps.isEmpty) l := by
  obtain ⟨l, pool, hlinks, hencode⟩ := ClassSpec.finish_eq_ok.mp hbytes
  obtain ⟨hsound, -, codes, hcodes, -, hwritten⟩ :=
    performAll_bodies PoolBuilder.sound_empty hcalls
  obtain ⟨hsound', hwithin, hlinked⟩ := (interns_links _ _ _).of_ok hsound hlinks
  obtain rfl : b.state.bodies.toList = codes := by simpa [new, empty] using hcodes
  have hcomplete := ClassSpec.complete_classFile hsound'.filled hlinked hwritten
  exact ⟨l, pool.pool, hcomplete.reads hencode, hsound'.filled, hwithin, hlinked⟩

/-- The class file that is read from what a builder writes. -/
theorem exists_classFile {bytes : Bytes} (hcalls : performAll calls (.new name) = .ok b)
    (hbytes : b.finish = .ok bytes) :
    ∃ l pool, ClassFile.ofBytes bytes = .ok (b.spec.classFile pool l b.state.bootstraps) ∧
      (∃ ks, pool.Filled ks) ∧ b.state.pool.pool.Within pool ∧
      Linked pool b.spec b.state.bodies (!b.state.bootstraps.isEmpty) l := by
  obtain ⟨l, pool, hreads, hfilled, hwithin, hlinked⟩ := reads_classFile hcalls hbytes
  exact ⟨l, pool, hreads.last.run, hfilled, hwithin, hlinked⟩

/-- The superclass of a class file is the one that its index was interned for. -/
theorem superName_of_names {c : ClassFile} {choice : Option String} {ks : List Constant}
    (hfilled : c.pool.Filled ks) (h : NamesSuper c.pool c.superClass choice) :
    c.superName = .ok choice := by
  unfold ClassFile.superName
  cases choice with
  | none => exact if_pos h
  | some name =>
    -- an index that holds a class is not the one that says there is none
    have hname : c.pool.NamesClass c.superClass name := h
    obtain ⟨j, hholds, -⟩ := hname
    rw [if_neg (hfilled.index_ne_zero hholds), ConstantPool.className_eq_ok.mpr h]
    rfl

/-- A method stands among the methods of a class file where it was declared. -/
theorem exists_method {pool : ConstantPool} {methods : List Method} {codes : List (Option Code)}
    {before after : List ClassCall} {m : MethodCall} {code : Option Code}
    (hmethods : List.Forall₂ (MethodOf pool) ((((before ++ .method m :: after).filterMap
      ClassCall.method?).map MethodCall.spec).zip codes) methods)
    (hcode : codes[(before.filterMap ClassCall.method?).length]? = some code) :
    ∃ method, methods[(before.filterMap ClassCall.method?).length]? = some method ∧
      method.code = code := by
  have hspec : ((((before ++ .method m :: after).filterMap ClassCall.method?).map
      MethodCall.spec).zip codes)[(before.filterMap ClassCall.method?).length]? =
      some (m.spec, code) := by
    refine List.getElem?_zip_eq_some.mpr ⟨?_, hcode⟩
    have hm : ClassCall.method? (.method m) = some m := rfl
    rw [List.filterMap_append, List.filterMap_cons_some hm, List.map_append]
    simp
  obtain ⟨method, hmethod, -, -, -, hsame⟩ := exists_getElem?_of_forall₂ hmethods hspec
  exact ⟨method, hmethod, hsame⟩

/-- A class file is what calls have declared, up to the builder that they
leave: the choices that were made last, the interfaces and the members in
order, the code of each method, and the bootstrap methods of the builder. -/
structure Declares (name : String) (calls : List ClassCall) (b : ClassBuilder) (c : ClassFile) :
    Prop where
  version : (c.major, c.minor) = (calls.filterMap ClassCall.version?).getLastD (52, 0)
  access : c.access = (calls.filterMap ClassCall.access?).getLastD .publicSuper
  named : c.name = .ok name
  superNamed : c.superName =
    .ok ((calls.filterMap ClassCall.superName?).getLastD (some "java/lang/Object"))
  interfaces : List.Forall₂ (fun name i => c.pool.className i = .ok name)
    (calls.filterMap ClassCall.interface?) c.interfaces.toList
  fields : List.Forall₂ (fun (declared : FieldSpec) (f : Field) => f.access = declared.access ∧
    c.pool.utf8 f.name = .ok declared.name ∧ c.pool.utf8 f.descriptor = .ok declared.descriptor)
    (calls.filterMap ClassCall.field?) c.fields.toList
  methods : List.Forall₂ (fun (declared : MethodCall) (m : Method) => m.access = declared.access ∧
    c.pool.utf8 m.name = .ok declared.name ∧ c.pool.utf8 m.descriptor = .ok declared.descriptor)
    (calls.filterMap ClassCall.method?) c.methods.toList
  code : ∀ before m after, calls = before ++ .method m :: after → ∃ b₀ method,
    performAll before (.new name) = .ok b₀ ∧
    c.methods[(before.filterMap ClassCall.method?).length]? = some method ∧
    m.HasCode b₀.state method.code
  bootstrapMethods : c.bootstrapMethods = b.state.bootstraps

/-- The methods of a class file are named as they were declared. -/
theorem forall₂_methods {pool : ConstantPool} {ms : List MethodCall} {codes : List (Option Code)}
    {methods : List Method} (hlength : codes.length = ms.length)
    (h : List.Forall₂ (MethodOf pool) ((ms.map MethodCall.spec).zip codes) methods) :
    List.Forall₂ (fun (declared : MethodCall) (m : Method) => m.access = declared.access ∧
      pool.utf8 m.name = .ok declared.name ∧ pool.utf8 m.descriptor = .ok declared.descriptor)
      ms methods := by
  -- the pairs of a method and its body, with the bodies left out
  have hdeclared : List.Forall₂ (fun (declared : MethodSpec) (m : Method) =>
      m.access = declared.access ∧ pool.utf8 m.name = .ok declared.name ∧
        pool.utf8 m.descriptor = .ok declared.descriptor) (ms.map MethodCall.spec) methods := by
    -- there are as many bodies as methods, so no method is lost next to them
    have hle : (ms.map MethodCall.spec).length ≤ codes.length := by
      rw [List.length_map]
      exact Nat.le_of_eq hlength.symm
    rw [← List.map_fst_zip hle, List.forall₂_map_left_iff]
    exact h.imp fun _ _ ⟨haccess, hname, hdescriptor, _⟩ =>
      ⟨haccess, ConstantPool.utf8_eq_ok.mpr hname, ConstantPool.utf8_eq_ok.mpr hdescriptor⟩
  rwa [List.forall₂_map_left_iff] at hdeclared

/-- What a builder writes is read as a class file that is what the calls have
declared. -/
theorem declared_of_finish {bytes : Bytes} (hcalls : performAll calls (.new name) = .ok b)
    (hbytes : b.finish = .ok bytes) :
    ∃ c, ClassFile.ofBytes bytes = .ok c ∧ Declares name calls b c := by
  obtain ⟨l, pool, hread, ⟨ks, hfilled⟩, -, hlinked⟩ := exists_classFile hcalls hbytes
  obtain ⟨-, -, codes, hcodes, hlength, -⟩ := performAll_bodies PoolBuilder.sound_empty hcalls
  obtain rfl : b.state.bodies.toList = codes := by simpa [new, empty] using hcodes
  have hspec : b.spec = calls.foldl ClassCall.declare { name } := spec_of_performAll hcalls
  have hmethods := hlinked.methods
  rw [methods_of_performAll hcalls] at hmethods
  refine ⟨_, hread, ?_, ?_, ?_, ?_, ?_, ?_, ?_, ?_, rfl⟩
  · show (b.spec.major, b.spec.minor) = _
    rw [hspec, version_foldl]
  · show b.spec.access = _
    rw [hspec, access_foldl]
  · have hthis := hlinked.thisClass
    rw [hspec, name_foldl] at hthis
    exact ConstantPool.className_eq_ok.mpr hthis
  · rw [superName_of_names hfilled hlinked.superClass, hspec, superName_foldl]
  · have hinterfaces := hlinked.interfaces
    rw [hspec, interfaces_foldl, List.nil_append] at hinterfaces
    exact hinterfaces.imp fun _ _ h => ConstantPool.className_eq_ok.mpr h
  · have hfields := hlinked.fields
    rw [hspec, fields_foldl, List.nil_append] at hfields
    refine hfields.imp ?_
    rintro _ _ ⟨haccess, hname, hdescriptor⟩
    exact ⟨haccess, ConstantPool.utf8_eq_ok.mpr hname, ConstantPool.utf8_eq_ok.mpr hdescriptor⟩
  · exact forall₂_methods hlength hmethods
  · rintro before m after rfl
    obtain ⟨b₀, a, hbefore, hsound, hadd, -, hplace⟩ := exists_add hcalls
    obtain ⟨-, -, code, hbody, hcode⟩ := MethodCall.add_body hsound hadd
    obtain ⟨method, hmethod, hsame⟩ := exists_method hmethods (hplace code hbody)
    refine ⟨b₀, method, hbefore, ?_, ?_⟩
    · rw [← Array.getElem?_toList]
      exact hmethod
    · rw [hsame]
      exact hcode

/-- The calls that declare the small class, and what they have written. -/
theorem declared_loadingClass :
    ∃ b c, performAll ClassSpec.loadingClass.calls (.new "C") = .ok b ∧
      b.finish = .ok ClassSpec.loadingBytes ∧
      ClassFile.ofBytes ClassSpec.loadingBytes = .ok c ∧
      Declares "C" ClassSpec.loadingClass.calls b c := by
  have hassembled := ClassSpec.assemble_loadingClass
  rw [ClassSpec.assemble_eq_performAll] at hassembled
  obtain ⟨b, hcalls, hbytes⟩ := except_bind_eq_ok.mp hassembled
  obtain ⟨c, hread, hdeclares⟩ := declared_of_finish hcalls hbytes
  exact ⟨b, c, hcalls, hbytes, hread, hdeclares⟩

end ClassBuilder

end Backref
