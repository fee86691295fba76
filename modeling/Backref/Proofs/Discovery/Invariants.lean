import Backref.Proofs.Discovery.Search

/-!
# Invariants of a search

A property of what has been found holds wherever a search ends, at the end of
the class or at a fault, if every note keeps it. A method and the class that it
constructs are noted together, with no fault between them; so what is kept here
may speak of both. Any other class is noted for a type that a member spells, so
its notes need to keep the property for such classes only.

Main results:

* `Discovery.LastingIn.visitClass` — a search of a class keeps what the notes
  keep that it can make;
* `Findings.of_lastingIn`, `Findings.of_lasting` — and so does what a byte
  string reports.
-/

namespace Backref

open Discovery

-- ---------------------------------------------------------------------------
-- Types that members spell
-- ---------------------------------------------------------------------------

namespace ClassFile

/-- An instruction stands in the code of a declared method, with no fault before it. -/
def Runs (c : ClassFile) (m : Member) (i : Instruction) : Prop :=
  ∃ owner f code, c.pool.NamesClass c.thisClass owner ∧ f ∈ c.methods ∧
    Declares c owner f.name f.descriptor m ∧ f.code = some code ∧
    .ok i ∈ (Walk.items code.bytes).toList

/-- A declared member spells a type in a text: in its own descriptor, in the
operand of an instruction that loads a class or tests for one, or in a
descriptor of a lambda expression, if these are followed. -/
inductive Spells (lambdas : Bool) (c : ClassFile) : Symbol → String → FieldType → Prop
  | field {owner : String} {f : Field} {m : Member} {t : FieldType}
      (howner : c.pool.NamesClass c.thisClass owner) (hf : f ∈ c.fields)
      (hm : Declares c owner f.name f.descriptor m) (ht : t.SpelledBy m.descriptor) :
      Spells lambdas c (.field m) m.descriptor t
  | method {owner : String} {f : Method} {m : Member} {types : MethodType} {t : FieldType}
      (howner : c.pool.NamesClass c.thisClass owner) (hf : f ∈ c.methods)
      (hm : Declares c owner f.name f.descriptor m) (htypes : types.SpelledBy m.descriptor)
      (ht : t ∈ types.types) : Spells lambdas c (.method m) m.descriptor t
  | operand {m : Member} {i : Instruction} {index : UInt16} {name : String} {t : FieldType}
      (hi : c.Runs m i)
      (hop : i.opcode ∈ [Opcode.ldc, Opcode.ldcWide, Opcode.checkCast, Opcode.instanceOf])
      (hindex : i.constantIndex? = some index) (hname : c.pool.NamesClass index name)
      (ht : t.NamedBy name) : Spells lambdas c (.method m) name t
  | lambda {m : Member} {i : Instruction} {index : UInt16} {l : LambdaTargets} {d : String}
      {types : MethodType} {t : FieldType} (hlambdas : lambdas = true) (hi : c.Runs m i)
      (hop : i.opcode = Opcode.invokeDynamic) (hindex : i.constantIndex? = some index)
      (hl : LambdaAt c index l) (hd : d ∈ l.descriptors) (htypes : types.SpelledBy d)
      (ht : t ∈ types.types) : Spells lambdas c (.method m) d t

end ClassFile

namespace Discovery

variable {α β : Type} {I : Array Reference → Prop}

/-- What a computation has found, whatever its outcome. -/
def foundBy : EStateM.Result Fault (Array Reference) α → Array Reference
  | .ok _ found | .error _ found => found

/-- A computation keeps a property of what has been found, whatever its outcome. -/
def Keeps (I : Array Reference → Prop) (x : Discovery α) : Prop :=
  ∀ found, I found → I (foundBy (x found))

-- ---------------------------------------------------------------------------
-- Putting searches together
-- ---------------------------------------------------------------------------

namespace Keeps

theorem pure (a : α) : Keeps I (Pure.pure a : Discovery α) := fun _ h => h

theorem bind {x : Discovery α} {f : α → Discovery β} (hx : Keeps I x)
    (hf : ∀ a, Keeps I (f a)) : Keeps I (x >>= f) := by
  intro found h
  have hfirst := hx found h
  cases hresult : x found with
  | ok a between =>
    rw [bind_of_ok f hresult]
    rw [hresult] at hfirst
    exact hf a between hfirst
  | error fault between =>
    rw [bind_of_error f hresult]
    rw [hresult] at hfirst
    exact hfirst

/-- A search that goes on with what a look-up has found. -/
theorem lookup {v : Except Fault α} {f : α → Discovery β} (hf : ∀ a, v = .ok a → Keeps I (f a)) :
    Keeps I (MonadExcept.ofExcept v >>= f) := by
  cases v with
  | ok a => exact hf a rfl
  | error fault => exact fun found h => h

theorem visitAll {visit : α → Discovery Unit} {as : List α} (h : ∀ a ∈ as, Keeps I (visit a)) :
    Keeps I (visitAll visit as) := by
  induction as with
  | nil => exact pure ()
  | cons a as ih =>
    exact (h a List.mem_cons_self).bind fun _ => ih fun b hb => h b (List.mem_cons_of_mem a hb)

end Keeps

-- ---------------------------------------------------------------------------
-- Searches
-- ---------------------------------------------------------------------------

/-- A property of what has been found that every note keeps which a search of a
class makes. A class is noted by itself only for a type that a member spells. -/
structure LastingIn (lambdas : Bool) (c : ClassFile) (I : Array Reference → Prop) : Prop where
  ofClass : ∀ user text t name, c.Spells lambdas user text t → t.className? = some name →
    Keeps I (note user (.ofClass name))
  field : ∀ user m, Keeps I (noteField user m)
  method : ∀ user m, Keeps I (noteMethod user m)

/-- A property of what has been found that every note keeps. -/
structure Lasting (I : Array Reference → Prop) : Prop where
  ofClass : ∀ user name, Keeps I (note user (.ofClass name))
  field : ∀ user m, Keeps I (noteField user m)
  method : ∀ user m, Keeps I (noteMethod user m)

/-- What every reference keeps, those of any one class keep. -/
theorem Lasting.lastingIn (h : Lasting I) (lambdas : Bool) (c : ClassFile) :
    LastingIn lambdas c I where
  ofClass user _ _ name _ _ := h.ofClass user name
  field := h.field
  method := h.method

namespace LastingIn

variable {lambdas : Bool} {c : ClassFile} (h : LastingIn lambdas c I)
include h

/-- Noting classes that are spelled keeps what lasts. -/
theorem classes {user : Symbol} {names : List String} (hnames : ∀ name ∈ names, ∃ text t,
      c.Spells lambdas user text t ∧ t.className? = some name) :
    Keeps I (noteClasses user names) := by
  induction names with
  | nil => exact .pure ()
  | cons name names ih =>
    obtain ⟨text, t, hspells, hname⟩ := hnames name List.mem_cons_self
    exact (h.ofClass user text t name hspells hname).bind fun _ =>
      ih fun n hn => hnames n (List.mem_cons_of_mem name hn)

theorem methodType {user : Symbol} {d : String} (hd : ∀ types : MethodType, types.SpelledBy d →
      ∀ t ∈ types.types, c.Spells lambdas user d t) : Keeps I (noteMethodType user d) := by
  refine .lookup fun types htypes => h.classes fun name hname => ?_
  obtain ⟨t, ht, hname⟩ := List.mem_filterMap.mp hname
  exact ⟨d, t, hd types (MethodType.parse_eq_ok.mp htypes) t ht, hname⟩

theorem fieldType {user : Symbol} {d : String}
    (hd : ∀ t : FieldType, t.SpelledBy d → c.Spells lambdas user d t) :
    Keeps I (noteFieldType user d) := by
  refine .lookup fun t ht => h.classes fun name hname => ?_
  exact ⟨d, t, hd t (FieldType.parse_eq_ok.mp ht), Option.mem_toList.mp hname⟩

theorem operand {user : Symbol} {name : String}
    (hname : ∀ t : FieldType, t.NamedBy name → c.Spells lambdas user name t) :
    Keeps I (noteOperand user name) := by
  refine .lookup fun t ht => h.classes fun element helement => ?_
  exact ⟨name, t, hname t (FieldType.ofOperand_eq_ok.mp ht), Option.mem_toList.mp helement⟩

theorem lambda {user : Symbol} {l : LambdaTargets} (hl : ∀ d ∈ l.descriptors,
      ∀ types : MethodType, types.SpelledBy d → ∀ t ∈ types.types, c.Spells lambdas user d t) :
    Keeps I (noteLambda user l) := by
  have hdescriptors : Keeps I (noteMethodTypes user l.descriptors) := by
    rw [noteMethodTypes_eq_visitAll]
    exact .visitAll fun d hd => h.methodType (hl d hd)
  refine .lookup fun kind _ => ?_
  split
  · exact (h.field user _).bind fun _ => hdescriptors
  · exact (h.method user _).bind fun _ => hdescriptors

section Instruction

variable {m : Member} {i : Instruction} {index : UInt16}

theorem callSite (hi : c.Runs m i) (hop : i.opcode = Opcode.invokeDynamic)
    (hindex : i.constantIndex? = some index) (hlambdas : lambdas = true) :
    Keeps I (noteCallSite c (.method m) index) := by
  refine .lookup fun site hsite => ?_
  rcases lambda?_eq_ok.mp hsite with ⟨l, rfl, hl⟩ | ⟨rfl, -⟩
  · exact h.lambda fun d hd types htypes t ht => .lambda hlambdas hi hop hindex hl hd htypes ht
  · exact .pure ()

theorem constant (hi : c.Runs m i) (hop : i.opcode ∈ [Opcode.ldc, Opcode.ldcWide])
    (hindex : i.constantIndex? = some index) : Keeps I (noteConstant c (.method m) index) := by
  refine .lookup fun k hk => ?_
  cases k with
  | classInfo j =>
    refine .lookup fun name hname => h.operand fun t ht => .operand hi ?_ hindex ?_ ht
    · exact List.mem_append_left [Opcode.checkCast, Opcode.instanceOf] hop
    · exact ⟨j, ConstantPool.get_eq_ok.mp hk, ConstantPool.utf8_eq_ok.mp hname⟩
  | _ => exact .pure ()

/-- An instruction keeps what lasts, whatever its opcode is. -/
theorem instruction (hi : c.Runs m i) : Keeps I (noteInstruction lambdas c (.method m) i) := by
  unfold noteInstruction
  -- the opcode decides what the index means
  split
  · exact .pure ()
  rename_i index hindex
  split
  · exact .lookup fun _ _ => h.field _ _
  split
  · exact .lookup fun _ _ => h.method _ _
  split
  · rename_i hloads
    simp only [Opcode.loadsConstant, Bool.or_eq_true, beq_iff_eq] at hloads
    exact h.constant hi (by simpa using hloads) hindex
  split
  · rename_i htests
    simp only [Opcode.testsClass, Bool.or_eq_true, beq_iff_eq] at htests
    refine .lookup fun name hname => h.operand fun t ht => .operand hi ?_ hindex ?_ ht
    · exact List.mem_append_right [Opcode.ldc, Opcode.ldcWide] (by simpa using htests)
    · exact ConstantPool.className_eq_ok.mp hname
  split
  · rename_i hdynamic
    simp only [Bool.and_eq_true, beq_iff_eq] at hdynamic
    exact h.callSite hi hdynamic.1 hindex hdynamic.2
  · exact .pure ()

end Instruction

theorem visitField {owner : String} (howner : c.pool.NamesClass c.thisClass owner) {f : Field}
    (hf : f ∈ c.fields) : Keeps I (visitField c owner f) := by
  refine .lookup fun m hm => h.fieldType fun t ht => ?_
  exact .field howner hf (member_eq_ok.mp hm) ht

theorem visitMethod {owner : String} (howner : c.pool.NamesClass c.thisClass owner) {f : Method}
    (hf : f ∈ c.methods) : Keeps I (visitMethod lambdas c owner f) := by
  refine .lookup fun m hm => ?_
  have hm := member_eq_ok.mp hm
  have hdescriptor : Keeps I (noteMethodType (.method m) m.descriptor) :=
    h.methodType fun types htypes t ht => .method howner hf hm htypes ht
  refine hdescriptor.bind fun _ => ?_
  split
  · exact .pure ()
  · rename_i code hcode
    rw [noteItems_eq]
    refine .visitAll fun item hitem => .lookup fun i hi => ?_
    subst hi
    exact h.instruction ⟨owner, f, code, howner, hf, hm, hcode, hitem⟩

/-- A search of a class keeps what the notes keep that it can make. -/
theorem visitClass : Keeps I (visitClass lambdas c) := by
  refine .lookup fun owner howner => ?_
  have howner := ConstantPool.className_eq_ok.mp howner
  have hfields : Keeps I (visitAll (Discovery.visitField c owner) c.fields.toList) :=
    .visitAll fun f hf => h.visitField howner (Array.mem_toList_iff.mp hf)
  exact hfields.bind fun _ =>
    .visitAll fun f hf => h.visitMethod howner (Array.mem_toList_iff.mp hf)

end LastingIn

end Discovery

namespace Findings

/-- What a byte string reports, up to its end or a fault, has every property that the
notes keep which a search of its class can make. -/
theorem of_lastingIn {I : Array Reference → Prop} {lambdas : Bool} {bytes : Bytes} (hnone : I #[])
    (h : ∀ c, ClassFile.ofBytes bytes = .ok c → LastingIn lambdas c I) :
    I (ofBytes lambdas bytes).references := by
  unfold ofBytes
  split
  · rename_i c hc
    have hkept := (h c hc).visitClass #[] hnone
    unfold ofClass
    -- what has been found before a fault is kept, too
    cases hvisit : visitClass lambdas c #[] with
    | ok u found =>
      rw [hvisit] at hkept
      exact hkept
    | error fault found =>
      rw [hvisit] at hkept
      exact hkept
  · exact hnone

/-- What a byte string reports, up to its end or a fault, has every property that
notes keep and that nothing has found out yet does not break. -/
theorem of_lasting {I : Array Reference → Prop} (h : Lasting I) (hnone : I #[])
    (lambdas : Bool) (bytes : Bytes) : I (ofBytes lambdas bytes).references :=
  of_lastingIn hnone fun c _ => h.lastingIn lambdas c

end Findings

end Backref
