import Backref.Discovery
import Backref.Proofs.Bytecode.Tiling
import Backref.Proofs.Constant.Links
import Backref.Proofs.Descriptor.Grammar
import Backref.Proofs.InOrder

/-!
# What a search finds

A search only ever adds to what has been found, and what it adds does not
depend on what is there already. So a search that succeeds is described by the
lists of references that it may add (`Discovery.Finds`), and a search that is
put together from others adds their lists one after the other.

Main results:

* `Discovery.Finds.bind`, `Discovery.Finds.ofExcept`, `Discovery.Finds.visitAll` —
  what the parts of a search find, the whole finds in order;
* `Discovery.finds_instruction`, `Discovery.finds_class` — what an instruction
  and a class refer to, in the order in which it is found.
-/

namespace Backref

namespace Discovery

/-- A search succeeds by adding one of the lists that a predicate describes, and in no other way. -/
def Finds (x : Discovery Unit) (P : List Reference → Prop) : Prop :=
  ∀ found found', x found = .ok () found' ↔ ∃ rs, P rs ∧ found'.toList = found.toList ++ rs

/-- The references of a user to several symbols. -/
def noted (user : Symbol) (ts : List Symbol) : List Reference := ts.map fun t => ⟨t, user⟩

/-- Lists of references of one user, to symbols that a predicate describes. -/
def Noted (user : Symbol) (Q : List Symbol → Prop) (rs : List Reference) : Prop :=
  ∃ ts, Q ts ∧ rs = noted user ts

/-- Lists of noted references are lists of symbols, noted. -/
theorem inOrder_noted {α : Type} {as : List α} {user : Symbol} {Q : α → List Symbol → Prop}
    {rs : List Reference} :
    InOrder (fun a => Noted user (Q a)) as rs ↔ Noted user (InOrder Q as) rs := by
  -- one user notes them all, so the entries can be put together before or after
  constructor
  · intro h
    induction h with
    | nil => exact ⟨[], .nil, rfl⟩
    | cons first others ih =>
      obtain ⟨ts, hts, rfl⟩ := first
      obtain ⟨us, hus, rfl⟩ := ih
      exact ⟨ts ++ us, .cons hts hus, by simp [noted]⟩
  · rintro ⟨ts, h, rfl⟩
    induction h with
    | nil => exact .nil
    | cons first others ih =>
      rw [noted, List.map_append]
      exact .cons ⟨_, first, rfl⟩ ih

-- ---------------------------------------------------------------------------
-- Putting searches together
-- ---------------------------------------------------------------------------

namespace Finds

variable {α : Type} {x y : Discovery Unit} {P Q : List Reference → Prop}

/-- What a search finds may be described in another way. -/
theorem congr (hx : Finds x P) (h : ∀ rs, P rs ↔ Q rs) : Finds x Q := by
  intro found found'
  rw [hx]
  exact exists_congr fun rs => and_congr_left' (h rs)

theorem pure : Finds (pure ()) (· = []) := by
  intro found found'
  rw [pure_eq_ok]
  constructor
  · rintro ⟨-, rfl⟩
    exact ⟨[], rfl, by simp⟩
  · rintro ⟨_, rfl, h⟩
    exact ⟨rfl, Array.ext' (by simpa using h.symm)⟩

/-- A note adds the one reference that it is for. -/
theorem note (user target : Symbol) : Finds (note user target) (· = [⟨target, user⟩]) := by
  intro found found'
  show EStateM.Result.ok () (found.push ⟨target, user⟩) = _ ↔ _
  rw [EStateM.Result.ok.injEq]
  constructor
  · rintro ⟨-, rfl⟩
    exact ⟨_, rfl, by simp⟩
  · rintro ⟨_, rfl, h⟩
    exact ⟨rfl, Array.ext' (by simpa using h.symm)⟩

/-- One search after another adds both lists, in this order. -/
theorem bind (hx : Finds x P) (hy : Finds y Q) :
    Finds (do x; y) fun rs => ∃ as bs, P as ∧ Q bs ∧ rs = as ++ bs := by
  intro found found'
  show (x >>= fun _ => y) found = _ ↔ _
  rw [bind_eq_ok]
  constructor
  · rintro ⟨_, between, hfirst, hsecond⟩
    obtain ⟨as, has, hbetween⟩ := (hx found between).mp hfirst
    obtain ⟨bs, hbs, hfound'⟩ := (hy between found').mp hsecond
    exact ⟨as ++ bs, ⟨as, bs, has, hbs, rfl⟩, by rw [hfound', hbetween, List.append_assoc]⟩
  · rintro ⟨_, ⟨as, bs, has, hbs, rfl⟩, hfound'⟩
    have hfirst : x found = .ok () (found.toList ++ as).toArray := (hx _ _).mpr ⟨as, has, rfl⟩
    have hsecond : y (found.toList ++ as).toArray = .ok () found' :=
      (hy _ _).mpr ⟨bs, hbs, by rw [hfound', List.append_assoc]⟩
    exact ⟨(), _, hfirst, hsecond⟩

/-- A search that starts from a value finds what it finds for the value that there is. -/
theorem ofExcept {f : α → Discovery Unit} {P : α → List Reference → Prop} (v : Except Fault α)
    (hf : ∀ a, Finds (f a) (P a)) :
    Finds (do f (← MonadExcept.ofExcept v)) fun rs => ∃ a, v = .ok a ∧ P a rs := by
  intro found found'
  show (MonadExcept.ofExcept v >>= f) found = _ ↔ _
  rw [bind_eq_ok]
  -- a result that is missing finds nothing
  cases v with
  | error fault =>
    constructor
    · rintro ⟨_, _, h, -⟩
      cases h
    · rintro ⟨_, ⟨_, h, -⟩, -⟩
      cases h
  | ok a =>
    constructor
    · rintro ⟨a', between, h, hrest⟩
      cases h
      obtain ⟨rs, hrs, hfound'⟩ := (hf a _ _).mp hrest
      exact ⟨rs, ⟨a, rfl, hrs⟩, hfound'⟩
    · rintro ⟨rs, ⟨a', h, hrs⟩, hfound'⟩
      cases h
      exact ⟨a, found, rfl, (hf a _ _).mpr ⟨rs, hrs, hfound'⟩⟩

/-- Visiting several things finds what each of them has, in order. -/
theorem visitAll {visit : α → Discovery Unit} {P : α → List Reference → Prop}
    (hvisit : ∀ a, Finds (visit a) (P a)) (as : List α) :
    Finds (visitAll visit as) (InOrder P as) := by
  induction as with
  | nil => exact pure.congr fun rs => inOrder_nil.symm
  | cons a as ih => exact ((hvisit a).bind ih).congr fun rs => inOrder_cons.symm

/-! ### References of one user -/

variable {user : Symbol} {S T : List Symbol → Prop}

/-- A search that does nothing finds no symbols for any user. -/
theorem nothing : Finds (Pure.pure ()) (Noted user (· = [])) :=
  pure.congr fun rs => by simp [Noted, noted]

/-- A note finds its target, for its user. -/
theorem noteOne (target : Symbol) :
    Finds (Discovery.note user target) (Noted user (· = [target])) :=
  (note user target).congr fun rs => by simp [Noted, noted]

/-- Two searches for one user find their symbols one after the other. -/
theorem andThen (hx : Finds x (Noted user S)) (hy : Finds y (Noted user T)) :
    Finds (do x; y) (Noted user fun ts => ∃ us vs, S us ∧ T vs ∧ ts = us ++ vs) := by
  refine (hx.bind hy).congr fun rs => ?_
  constructor
  · rintro ⟨_, _, ⟨us, hus, rfl⟩, ⟨vs, hvs, rfl⟩, rfl⟩
    exact ⟨us ++ vs, ⟨us, vs, hus, hvs, rfl⟩, by simp [noted]⟩
  · rintro ⟨_, ⟨us, vs, hus, hvs, rfl⟩, rfl⟩
    exact ⟨_, _, ⟨us, hus, rfl⟩, ⟨vs, hvs, rfl⟩, by simp [noted]⟩

/-- A search that starts with a look-up goes on with what the look-up yields. -/
theorem lookup {v : Except Fault α} {R : α → Prop} (hv : ∀ a, v = .ok a ↔ R a)
    {f : α → Discovery Unit} {U : α → List Symbol → Prop}
    (hf : ∀ a, Finds (f a) (Noted user (U a))) :
    Finds (do f (← MonadExcept.ofExcept v)) (Noted user fun ts => ∃ a, R a ∧ U a ts) := by
  refine (ofExcept v hf).congr fun rs => ?_
  simp only [hv]
  constructor
  · rintro ⟨a, ha, ts, hts, rfl⟩
    exact ⟨ts, ⟨a, ha, hts⟩, rfl⟩
  · rintro ⟨ts, ⟨a, ha, hts⟩, rfl⟩
    exact ⟨a, ha, ts, hts, rfl⟩

/-- What a search finds for a user may be described in another way. -/
theorem congr_noted (hx : Finds x (Noted user S)) (h : ∀ ts, S ts ↔ T ts) :
    Finds x (Noted user T) :=
  hx.congr fun _ => exists_congr fun ts => and_congr_left' (h ts)

end Finds

-- ---------------------------------------------------------------------------
-- Descriptors and operands
-- ---------------------------------------------------------------------------

/-- The references to classes. -/
def classes (names : List String) : List Symbol := names.map .ofClass

/-- What the type of a field refers to. -/
def FieldTypeRefers (descriptor : String) (ts : List Symbol) : Prop :=
  ∃ t : FieldType, t.SpelledBy descriptor ∧ ts = classes t.className?.toList

/-- What the types of a method refer to. -/
def MethodTypeRefers (descriptor : String) (ts : List Symbol) : Prop :=
  ∃ m : MethodType, m.SpelledBy descriptor ∧ ts = classes m.classNames

/-- What the operand of a class instruction refers to. -/
def OperandRefers (name : String) (ts : List Symbol) : Prop :=
  ∃ t : FieldType, t.NamedBy name ∧ ts = classes t.className?.toList

/-- Noting classes finds them in order. -/
theorem finds_classes (user : Symbol) (names : List String) :
    Finds (noteClasses user names) (Noted user (· = classes names)) := by
  induction names with
  | nil => exact Finds.nothing
  | cons name names ih =>
    exact ((Finds.noteOne _).andThen ih).congr_noted fun ts => by simp [classes]

/-- The type of a field is searched for the class that it mentions. -/
theorem finds_fieldType (user : Symbol) (descriptor : String) :
    Finds (noteFieldType user descriptor) (Noted user (FieldTypeRefers descriptor)) :=
  Finds.lookup (fun _ => FieldType.parse_eq_ok) fun t => finds_classes user t.className?.toList

/-- The types of a method are searched for the classes that they mention. -/
theorem finds_methodType (user : Symbol) (descriptor : String) :
    Finds (noteMethodType user descriptor) (Noted user (MethodTypeRefers descriptor)) :=
  Finds.lookup (fun _ => MethodType.parse_eq_ok) fun m => finds_classes user m.classNames

/-- The operand of a class instruction is searched for the class that it mentions. -/
theorem finds_operand (user : Symbol) (name : String) :
    Finds (noteOperand user name) (Noted user (OperandRefers name)) :=
  Finds.lookup (fun _ => FieldType.ofOperand_eq_ok) fun t => finds_classes user t.className?.toList

-- ---------------------------------------------------------------------------
-- Members
-- ---------------------------------------------------------------------------

/-- What the invocation of a method refers to: the method, and with a
constructor the class that it constructs. -/
def invoked (m : Member) : List Symbol :=
  .method m :: if m.name = Symbol.constructorName then [.ofClass m.owner] else []

/-- An invocation is searched for its method, and for the class that a
constructor constructs. -/
theorem finds_method (user : Symbol) (m : Member) :
    Finds (noteMethod user m) (Noted user (· = invoked m)) := by
  have hconstructor : (Symbol.method m).isConstructor = decide (m.name = Symbol.constructorName) :=
    rfl
  -- the class is noted for a constructor only
  by_cases hname : m.name = Symbol.constructorName
  · have heq : noteMethod user m = (do note user (.method m); note user (.ofClass m.owner)) := by
      simp [noteMethod, hconstructor, hname]
    rw [heq]
    exact ((Finds.noteOne _).andThen (Finds.noteOne _)).congr_noted (by simp [invoked, hname])
  · have heq : noteMethod user m = (do note user (.method m); pure ()) := by
      simp [noteMethod, hconstructor, hname]
    rw [heq]
    exact ((Finds.noteOne _).andThen Finds.nothing).congr_noted (by simp [invoked, hname])

-- ---------------------------------------------------------------------------
-- Lambda expressions
-- ---------------------------------------------------------------------------

/-- What links a dynamic call site: its bootstrap method, and the member behind
the handle of that. -/
def Linked (c : ClassFile) (index : UInt16) (s : CallSite) (b : BootstrapMethod) (m : Member) :
    Prop :=
  c.pool.NamesCallSite index s ∧ c.bootstrapMethods[s.bootstrap.toNat]? = some b ∧
    ∃ h, c.pool.NamesHandle b.handle h ∧ h.member.toMember = m

/-- A dynamic call site is a lambda expression. -/
def LambdaAt (c : ClassFile) (index : UInt16) (l : LambdaTargets) : Prop :=
  ∃ s b m, Linked c index s b m ∧ Lambda.links m = true ∧
    ∃ sam implementation instantiated more samDescriptor instantiatedDescriptor,
      b.arguments.toList = sam :: implementation :: instantiated :: more ∧
      c.pool.NamesMethodType sam samDescriptor ∧
      c.pool.NamesHandle implementation l.implementation ∧
      c.pool.NamesMethodType instantiated instantiatedDescriptor ∧
      l.descriptors = [s.descriptor, samDescriptor, instantiatedDescriptor]

/-- A dynamic call site is linked by a method that makes no lambda expressions. -/
def OtherSite (c : ClassFile) (index : UInt16) : Prop :=
  ∃ s b m, Linked c index s b m ∧ Lambda.links m = false

theorem bootstrapMethod_eq_ok {c : ClassFile} {index : UInt16} {b : BootstrapMethod} :
    c.bootstrapMethod index = .ok b ↔ c.bootstrapMethods[index.toNat]? = some b := by
  rw [ClassFile.bootstrapMethod]
  cases c.bootstrapMethods[index.toNat]? with
  | none => simp
  | some b' => simp

/-- A look-up that succeeds has come along a linked call site, of a lambda
expression or of another kind. -/
theorem exists_linked_of_lambda? {c : ClassFile} {index : UInt16} {o : Option LambdaTargets}
    (h : lambda? c index = .ok o) :
    (∃ l, o = some l ∧ LambdaAt c index l) ∨ (o = none ∧ OtherSite c index) := by
  unfold lambda? at h
  obtain ⟨s, hs, h⟩ := except_bind_eq_ok.mp h
  obtain ⟨b, hb, h⟩ := except_bind_eq_ok.mp h
  obtain ⟨handle, hhandle, h⟩ := except_bind_eq_ok.mp h
  have hlinked : Linked c index s b handle.member.toMember :=
    ⟨ConstantPool.callSite_eq_ok.mp hs, bootstrapMethod_eq_ok.mp hb, handle,
      ConstantPool.methodHandle_eq_ok.mp hhandle, rfl⟩
  split at h
  · rename_i hlinks
    split at h
    · -- the first three arguments say what the lambda expression is made of
      rename_i sam implementation instantiated more harguments
      obtain ⟨d₁, hsam, h⟩ := except_bind_eq_ok.mp h
      obtain ⟨target, htarget, h⟩ := except_bind_eq_ok.mp h
      obtain ⟨d₂, hinstantiated, h⟩ := except_bind_eq_ok.mp h
      cases except_pure_eq_ok.mp h
      exact .inl ⟨_, rfl, s, b, _, hlinked, hlinks, sam, implementation, instantiated, more,
        d₁, d₂, harguments, ConstantPool.methodType_eq_ok.mp hsam,
        ConstantPool.methodHandle_eq_ok.mp htarget,
        ConstantPool.methodType_eq_ok.mp hinstantiated, rfl⟩
    · cases h
  · rename_i hlinks
    cases except_pure_eq_ok.mp h
    exact .inr ⟨rfl, s, b, _, hlinked, by simpa using hlinks⟩

/-- A lambda expression is recognised as what it is made of. -/
theorem LambdaAt.lambda? {c : ClassFile} {index : UInt16} {l : LambdaTargets}
    (h : LambdaAt c index l) : lambda? c index = .ok (some l) := by
  obtain ⟨target, ds⟩ := l
  obtain ⟨s, b, m, ⟨hs, hb, handle, hhandle, rfl⟩, hlinks, sam, implementation, instantiated, more,
    d₁, d₂, harguments, hsam, htarget, hinstantiated, hds⟩ := h
  refine except_bind_eq_ok.mpr ⟨s, ConstantPool.callSite_eq_ok.mpr hs, ?_⟩
  refine except_bind_eq_ok.mpr ⟨b, bootstrapMethod_eq_ok.mpr hb, ?_⟩
  refine except_bind_eq_ok.mpr ⟨handle, ConstantPool.methodHandle_eq_ok.mpr hhandle, ?_⟩
  -- the call site is followed to its bootstrap method, and the arguments from there
  rw [if_pos hlinks]
  simp only at htarget hds
  subst hds
  simp only [harguments, ConstantPool.methodType_eq_ok.mpr hsam,
    ConstantPool.methodHandle_eq_ok.mpr htarget,
    ConstantPool.methodType_eq_ok.mpr hinstantiated]
  rfl

/-- Another dynamic call site is recognised as no lambda expression. -/
theorem OtherSite.lambda? {c : ClassFile} {index : UInt16} (h : OtherSite c index) :
    lambda? c index = .ok none := by
  obtain ⟨s, b, m, ⟨hs, hb, handle, hhandle, rfl⟩, hlinks⟩ := h
  refine except_bind_eq_ok.mpr ⟨s, ConstantPool.callSite_eq_ok.mpr hs, ?_⟩
  refine except_bind_eq_ok.mpr ⟨b, bootstrapMethod_eq_ok.mpr hb, ?_⟩
  refine except_bind_eq_ok.mpr ⟨handle, ConstantPool.methodHandle_eq_ok.mpr hhandle, ?_⟩
  rw [if_neg (by simp [hlinks])]
  rfl

/-- The look-up for a lambda expression succeeds exactly at linked call sites,
and tells them apart. -/
theorem lambda?_eq_ok {c : ClassFile} {index : UInt16} {o : Option LambdaTargets} :
    lambda? c index = .ok o ↔
      (∃ l, o = some l ∧ LambdaAt c index l) ∨ (o = none ∧ OtherSite c index) := by
  constructor
  · exact exists_linked_of_lambda?
  · rintro (⟨l, rfl, hl⟩ | ⟨rfl, hother⟩)
    · exact hl.lambda?
    · exact hother.lambda?

/-- What a method handle refers to. -/
def handled (kind : HandleKind) (m : Member) : List Symbol :=
  if kind.isField then [.field m] else invoked m

/-- What a lambda expression refers to: its implementation, then the classes in its descriptors. -/
def LambdaRefers (l : LambdaTargets) (ts : List Symbol) : Prop :=
  ∃ kind ds, HandleKind.ofTag l.implementation.kind = .ok kind ∧
    InOrder MethodTypeRefers l.descriptors ds ∧
    ts = handled kind l.implementation.member.toMember ++ ds

/-- The descriptors of a lambda expression are visited one after the other. -/
theorem noteMethodTypes_eq_visitAll (user : Symbol) (descriptors : List String) :
    noteMethodTypes user descriptors = visitAll (noteMethodType user) descriptors := by
  induction descriptors with
  | nil => rfl
  | cons d ds ih => rw [noteMethodTypes, ih, visitAll]

/-- Several descriptors are searched for the classes that they mention, in order. -/
theorem finds_methodTypes (user : Symbol) (descriptors : List String) :
    Finds (noteMethodTypes user descriptors)
      (Noted user (InOrder MethodTypeRefers descriptors)) := by
  rw [noteMethodTypes_eq_visitAll]
  exact (Finds.visitAll (finds_methodType user) descriptors).congr fun rs => inOrder_noted

/-- The implementation of a lambda expression is searched as a field or as an invocation. -/
theorem finds_handled (user : Symbol) (kind : HandleKind) (m : Member) :
    Finds (if kind.isField then noteField user m else noteMethod user m)
      (Noted user (· = handled kind m)) := by
  unfold handled
  split
  · exact Finds.noteOne _
  · exact finds_method user m

/-- The choice of the implementation, brought together before what follows it. -/
theorem noteLambda_eq_bind (user : Symbol) (l : LambdaTargets) :
    noteLambda user l = (MonadExcept.ofExcept (HandleKind.ofTag l.implementation.kind) >>=
      fun kind => (if kind.isField then noteField user l.implementation.member.toMember
        else noteMethod user l.implementation.member.toMember) >>= fun _ =>
        noteMethodTypes user l.descriptors) := by
  unfold noteLambda
  congr 1
  funext kind
  split <;> rfl

/-- A lambda expression is searched for its implementation and for the classes
in its descriptors. -/
theorem finds_lambda (user : Symbol) (l : LambdaTargets) :
    Finds (noteLambda user l) (Noted user (LambdaRefers l)) := by
  rw [noteLambda_eq_bind]
  refine (Finds.lookup (fun _ => Iff.rfl) fun kind => (finds_handled user kind _).andThen
    (finds_methodTypes user l.descriptors)).congr_noted fun ts => ?_
  constructor
  · rintro ⟨kind, hkind, _, ds, rfl, hds, rfl⟩
    exact ⟨kind, ds, hkind, hds, rfl⟩
  · rintro ⟨kind, ds, hkind, hds, rfl⟩
    exact ⟨kind, hkind, _, ds, rfl, hds, rfl⟩

/-- What a dynamic call site refers to: nothing unless it is a lambda expression. -/
def CallSiteRefers (c : ClassFile) (index : UInt16) (ts : List Symbol) : Prop :=
  (∃ l, LambdaAt c index l ∧ LambdaRefers l ts) ∨ (OtherSite c index ∧ ts = [])

/-- A dynamic call site is searched only if it is a lambda expression. -/
theorem finds_callSite (c : ClassFile) (user : Symbol) (index : UInt16) :
    Finds (noteCallSite c user index) (Noted user (CallSiteRefers c index)) := by
  refine (Finds.lookup (fun _ => lambda?_eq_ok)
    (U := fun o ts => o.elim (ts = []) fun l => LambdaRefers l ts) ?_).congr_noted fun ts => ?_
  -- what is found depends on whether there is a lambda expression at the index
  · rintro (_ | l)
    · exact Finds.nothing
    · exact finds_lambda user l
  · constructor
    · rintro ⟨_, ⟨l, rfl, hl⟩ | ⟨rfl, hother⟩, hts⟩
      · exact .inl ⟨l, hl, hts⟩
      · exact .inr ⟨hother, hts⟩
    · rintro (⟨l, hl, hts⟩ | ⟨hother, hts⟩)
      · exact ⟨some l, .inl ⟨l, rfl, hl⟩, hts⟩
      · exact ⟨none, .inr ⟨rfl, hother⟩, hts⟩

-- ---------------------------------------------------------------------------
-- Instructions
-- ---------------------------------------------------------------------------

/-- What a constant refers to when it is loaded: a class refers to itself, any
other constant to nothing. -/
def ConstantRefers (c : ClassFile) (ts : List Symbol) : Constant → Prop
  | .classInfo j => ∃ name, c.pool.NamesText j name ∧ OperandRefers name ts
  | _ => ts = []

/-- A constant that is loaded is searched for the class that it is. -/
theorem finds_constant (c : ClassFile) (user : Symbol) (index : UInt16) :
    Finds (noteConstant c user index)
      (Noted user fun ts => ∃ k, c.pool.Holds index k ∧ ConstantRefers c ts k) := by
  refine Finds.lookup (fun _ => ConstantPool.get_eq_ok) fun k => ?_
  cases k with
  | classInfo j => exact Finds.lookup (fun _ => ConstantPool.utf8_eq_ok) fun name =>
      finds_operand user name
  | _ => exact Finds.nothing

end Discovery

/-! ### The parts that opcodes play -/

/-- What an opcode does with the symbol that its operand names, as far as this
makes a reference. -/
inductive Opcode.Role
  | access | invocation | load | test | dynamic | other
  deriving DecidableEq

namespace Opcode

/-- The opcodes of a role. Of the role without references, none are listed. -/
def Role.opcodes : Role → List UInt8
  | access => [getStatic, putStatic, getField, putField]
  | invocation => [invokeVirtual, invokeSpecial, invokeStatic, invokeInterface]
  | load => [ldc, ldcWide]
  | test => [checkCast, instanceOf]
  | dynamic => [invokeDynamic]
  | other => []

/-- The role of an opcode. -/
def role (opcode : UInt8) : Role :=
  if accessesField opcode then .access
  else if invokesMethod opcode then .invocation
  else if loadsConstant opcode then .load
  else if testsClass opcode then .test
  else if opcode == invokeDynamic then .dynamic
  else .other

/-- The opcodes of a role are the ones that are listed for it. -/
theorem role_eq_iff {opcode : UInt8} {r : Role} (hr : r ≠ .other) :
    role opcode = r ↔ opcode ∈ r.opcodes := by
  -- there are only so many bytes
  have hall : ∀ n < 256, role (UInt8.ofNat n) = r ↔ UInt8.ofNat n ∈ r.opcodes := by
    cases r with
    | other => exact absurd rfl hr
    | _ => decide +kernel
  have hbyte := hall opcode.toNat opcode.toNat_lt
  rwa [UInt8.ofNat_toNat] at hbyte

end Opcode

namespace Discovery

/-- What an instruction with a pool index refers to, by the role of its opcode. -/
def IndexRefers (lambdas : Bool) (c : ClassFile) (index : UInt16) (ts : List Symbol) :
    Opcode.Role → Prop
  | .access => ∃ m, c.pool.NamesMember index m ∧ ts = [.field m.toMember]
  | .invocation => ∃ m, c.pool.NamesMember index m ∧ ts = invoked m.toMember
  | .load => ∃ k, c.pool.Holds index k ∧ ConstantRefers c ts k
  | .test => ∃ name, c.pool.NamesClass index name ∧ OperandRefers name ts
  | .dynamic => if lambdas then CallSiteRefers c index ts else ts = []
  | .other => ts = []

/-- What an instruction refers to. -/
def InstructionRefers (lambdas : Bool) (c : ClassFile) (i : Instruction) (ts : List Symbol) :
    Prop :=
  match i.constantIndex? with
  | none => ts = []
  | some index => IndexRefers lambdas c index ts (Opcode.role i.opcode)

/-- An instruction is searched for what its opcode does with its index. -/
theorem finds_instruction (lambdas : Bool) (c : ClassFile) (user : Symbol) (i : Instruction) :
    Finds (noteInstruction lambdas c user i) (Noted user (InstructionRefers lambdas c i)) := by
  unfold noteInstruction InstructionRefers
  cases i.constantIndex? with
  | none => exact Finds.nothing
  | some index =>
    unfold Opcode.role
    simp only
    -- the roles are asked for in the order in which the search asks
    split
    · exact Finds.lookup (fun _ => ConstantPool.memberRef_eq_ok) fun m => Finds.noteOne _
    split
    · exact Finds.lookup (fun _ => ConstantPool.memberRef_eq_ok) fun m => finds_method user _
    split
    · exact finds_constant c user index
    split
    · exact Finds.lookup (fun _ => ConstantPool.className_eq_ok) fun name => finds_operand user name
    by_cases hdynamic : (i.opcode == Opcode.invokeDynamic) = true
    · rw [if_pos hdynamic, hdynamic]
      cases lambdas with
      | true => exact finds_callSite c user index
      | false => exact Finds.nothing
    · rw [if_neg hdynamic]
      simp only [Bool.not_eq_true] at hdynamic
      rw [hdynamic]
      exact Finds.nothing

/-- What a code array refers to: it is tiled by instructions, and each of them
refers to what it refers to. -/
def CodeRefers (lambdas : Bool) (c : ClassFile) (code : Bytes) (ts : List Symbol) : Prop :=
  ∃ is, Instruction.Tiled 0 code is ∧ InOrder (InstructionRefers lambdas c) is ts

/-- The items of a walk are visited one after the other; an item that is a fault
stops the search. -/
theorem noteItems_eq (lambdas : Bool) (c : ClassFile) (user : Symbol)
    (items : List (Except Fault Instruction)) :
    noteItems lambdas c user items = visitAll
      (fun item => do noteInstruction lambdas c user (← MonadExcept.ofExcept item)) items := by
  induction items with
  | nil => rfl
  | cons item items ih =>
    rw [noteItems, ih, visitAll, bind_assoc]

/-- What items yield in order is what instructions yield, where every item is one. -/
theorem inOrder_items {lambdas : Bool} {c : ClassFile} {items : List (Except Fault Instruction)}
    {ts : List Symbol} :
    InOrder (fun item ts => ∃ i, item = .ok i ∧ InstructionRefers lambdas c i ts) items ts ↔
      ∃ is, items = is.map .ok ∧ InOrder (InstructionRefers lambdas c) is ts := by
  constructor
  · intro h
    induction h with
    | nil => exact ⟨[], rfl, .nil⟩
    | cons first others ih =>
      obtain ⟨i, rfl, hi⟩ := first
      obtain ⟨is, rfl, his⟩ := ih
      exact ⟨i :: is, rfl, .cons hi his⟩
  · rintro ⟨is, rfl, h⟩
    induction h with
    | nil => exact .nil
    | cons first others ih => exact .cons ⟨_, rfl, first⟩ ih

/-- An item of a walk is searched if it is an instruction. -/
theorem finds_item (lambdas : Bool) (c : ClassFile) (user : Symbol)
    (item : Except Fault Instruction) :
    Finds (do noteInstruction lambdas c user (← MonadExcept.ofExcept item))
      (Noted user fun ts => ∃ i, item = .ok i ∧ InstructionRefers lambdas c i ts) :=
  Finds.lookup (fun _ => Iff.rfl) (finds_instruction lambdas c user)

/-- A code array is searched to its end if instructions tile it. -/
theorem finds_code (lambdas : Bool) (c : ClassFile) (user : Symbol) (code : Bytes) :
    Finds (noteItems lambdas c user (Walk.items code).toList)
      (Noted user (CodeRefers lambdas c code)) := by
  rw [noteItems_eq]
  have hall := (Finds.visitAll (finds_item lambdas c user) (Walk.items code).toList).congr
    fun _ => inOrder_noted
  refine hall.congr_noted fun ts => ?_
  simp only [inOrder_items, Walk.items_eq_iff, CodeRefers]

-- ---------------------------------------------------------------------------
-- Classes
-- ---------------------------------------------------------------------------

/-- The member of a class that two indices name. -/
def Declares (c : ClassFile) (owner : String) (name descriptor : UInt16) (m : Member) : Prop :=
  m.owner = owner ∧ c.pool.NamesText name m.name ∧ c.pool.NamesText descriptor m.descriptor

/-- A member is known by its class and by the two texts that its indices hold. -/
theorem member_eq_ok {c : ClassFile} {owner : String} {name descriptor : UInt16} {m : Member} :
    member c owner name descriptor = .ok m ↔ Declares c owner name descriptor m := by
  rw [member, except_bind_eq_ok]
  constructor
  · rintro ⟨n, hn, h⟩
    obtain ⟨d, hd, h⟩ := except_bind_eq_ok.mp h
    cases except_pure_eq_ok.mp h
    exact ⟨rfl, ConstantPool.utf8_eq_ok.mp hn, ConstantPool.utf8_eq_ok.mp hd⟩
  · rintro ⟨rfl, hn, hd⟩
    exact ⟨m.name, ConstantPool.utf8_eq_ok.mpr hn,
      except_bind_eq_ok.mpr ⟨m.descriptor, ConstantPool.utf8_eq_ok.mpr hd, rfl⟩⟩

/-- The references that a field makes. -/
def FieldFinds (c : ClassFile) (owner : String) (f : Field) (rs : List Reference) : Prop :=
  ∃ m, Declares c owner f.name f.descriptor m ∧
    Noted (.field m) (FieldTypeRefers m.descriptor) rs

/-- What the body of a method refers to. -/
def BodyRefers (lambdas : Bool) (c : ClassFile) (ts : List Symbol) : Option Code → Prop
  | none => ts = []
  | some code => CodeRefers lambdas c code.bytes ts

/-- What a method refers to: the classes in its descriptor, then what its body refers to. -/
def MethodRefers (lambdas : Bool) (c : ClassFile) (descriptor : String) (body : Option Code)
    (ts : List Symbol) : Prop :=
  ∃ us vs, MethodTypeRefers descriptor us ∧ BodyRefers lambdas c vs body ∧ ts = us ++ vs

/-- The references that a method makes. -/
def MethodFinds (lambdas : Bool) (c : ClassFile) (owner : String) (m : Method)
    (rs : List Reference) : Prop :=
  ∃ declared, Declares c owner m.name m.descriptor declared ∧
    Noted (.method declared) (MethodRefers lambdas c declared.descriptor m.code) rs

/-- The references that the members of a class make: those of the fields, then
those of the methods. -/
def ClassFinds (lambdas : Bool) (c : ClassFile) (rs : List Reference) : Prop :=
  ∃ owner fs ms, c.pool.NamesClass c.thisClass owner ∧
    InOrder (FieldFinds c owner) c.fields.toList fs ∧
    InOrder (MethodFinds lambdas c owner) c.methods.toList ms ∧ rs = fs ++ ms

/-- A field is searched for the class in its descriptor. -/
theorem finds_visitField (c : ClassFile) (owner : String) (f : Field) :
    Finds (visitField c owner f) (FieldFinds c owner f) := by
  refine (Finds.ofExcept _ fun m => finds_fieldType (.field m) m.descriptor).congr fun rs => ?_
  simp only [member_eq_ok, FieldFinds]

/-- A method is searched for the classes in its descriptor, and then through its body. -/
theorem finds_visitMethod (lambdas : Bool) (c : ClassFile) (owner : String) (m : Method) :
    Finds (visitMethod lambdas c owner m) (MethodFinds lambdas c owner m) := by
  have hbody : ∀ user : Symbol, Finds (match m.code with
      | none => pure ()
      | some code => noteItems lambdas c user (Walk.items code.bytes).toList)
      (Noted user fun ts => BodyRefers lambdas c ts m.code) := by
    intro user
    cases m.code with
    | none => exact Finds.nothing
    | some code => exact finds_code lambdas c user code.bytes
  -- the user is the member that is declared, so it has to be known first
  refine (Finds.ofExcept _ fun declared =>
    (finds_methodType (.method declared) declared.descriptor).andThen
      (hbody (.method declared))).congr fun rs => ?_
  simp only [member_eq_ok]
  exact Iff.rfl

/-- A class has the references of its members, in the order of the file. -/
theorem finds_class (lambdas : Bool) (c : ClassFile) :
    Finds (visitClass lambdas c) (ClassFinds lambdas c) := by
  refine (Finds.ofExcept c.name fun owner => (Finds.visitAll (finds_visitField c owner) _).bind
    (Finds.visitAll (finds_visitMethod lambdas c owner) _)).congr fun rs => ?_
  constructor
  · rintro ⟨owner, howner, fs, ms, hfs, hms, rfl⟩
    exact ⟨owner, fs, ms, ConstantPool.className_eq_ok.mp howner, hfs, hms, rfl⟩
  · rintro ⟨owner, fs, ms, howner, hfs, hms, rfl⟩
    exact ⟨owner, ConstantPool.className_eq_ok.mpr howner, fs, ms, hfs, hms, rfl⟩

end Discovery

-- ---------------------------------------------------------------------------
-- Findings
-- ---------------------------------------------------------------------------

/-- A key with a user, as they are reported to an index. -/
abbrev Report := String × String

/-- What a search reports, in order. -/
def Findings.reports (f : Findings) : List Report :=
  f.references.toList.map fun r => (r.target.usage, r.user.usage)

/-- A search of a class ends without a fault exactly with the references that its members make. -/
theorem Findings.ofClass_eq_iff {lambdas : Bool} {c : ClassFile} {found : Array Reference} :
    ofClass lambdas c = ⟨found, none⟩ ↔ Discovery.ClassFinds lambdas c found.toList := by
  have hfinds := Discovery.finds_class lambdas c #[] found
  rw [ofClass]
  constructor
  · intro h
    -- a visit that has not failed has the references of the members
    cases hvisit : Discovery.visitClass lambdas c #[] with
    | error fault found' =>
      rw [hvisit] at h
      cases h
    | ok u found' =>
      rw [hvisit] at h
      cases h
      obtain ⟨rs, hrs, heq⟩ := hfinds.mp hvisit
      rw [heq]
      simpa using hrs
  · intro h
    rw [hfinds.mpr ⟨found.toList, h, by simp⟩]
    rfl

end Backref
