import Backref.Assembly.Class
import Backref.Proofs.Faults

/-!
# How assembling fails

A pool builder turns a request down for want of room, or because a text is too
long, and for no other reason. So what is put together from requests fails
with one of these faults, and what assembling does beside asking for constants
adds faults of its own, each at one place.

Main results:

* `Assembler.failsWith_links` — interning the names of a class;
* `Assembler.finish_fault` — writing a class fails for its bootstrap methods
  only if there are too many of them.
-/

namespace Backref

-- ---------------------------------------------------------------------------
-- Requests
-- ---------------------------------------------------------------------------

/-- What a pool builder turns a request down for. -/
def PoolFault (fault : Fault) : Prop :=
  fault = .malformed .poolFull ∨ ∃ length, fault = .malformed (.textTooLong length)

namespace PoolBuilder

/-- A constant is refused only when the pool is full. -/
theorem failsWith_intern (k : Constant) : FailsWith PoolFault (intern k) := by
  rintro ⟨pool, indices⟩ s' fault h
  unfold intern at h
  simp only at h
  -- a constant that is there already is found, however full the pool is
  cases hfound : indices[k]? with
  | some i =>
    rw [hfound] at h
    cases h
  | none =>
    rw [hfound] at h
    simp only at h
    split at h
    · cases h
    · cases h
      exact .inl rfl

/-- A text is refused when it is too long, too. -/
theorem failsWith_utf8 (text : String) : FailsWith PoolFault (utf8 text) := by
  unfold utf8
  simp only
  split
  · exact failsWith_intern _
  · exact .throw (.inr ⟨_, rfl⟩)

theorem failsWith_classInfo (name : String) : FailsWith PoolFault (classInfo name) :=
  (failsWith_utf8 name).bind fun _ => failsWith_intern _

theorem failsWith_string (text : String) : FailsWith PoolFault (string text) :=
  (failsWith_utf8 text).bind fun _ => failsWith_intern _

theorem failsWith_nameAndType (name descriptor : String) :
    FailsWith PoolFault (nameAndType name descriptor) :=
  (failsWith_utf8 name).bind fun _ => (failsWith_utf8 descriptor).bind fun _ => failsWith_intern _

theorem failsWith_memberRef (kind : MemberKind) (m : Member) :
    FailsWith PoolFault (memberRef kind m) :=
  (failsWith_classInfo m.owner).bind fun _ =>
    (failsWith_nameAndType m.name m.descriptor).bind fun _ => failsWith_intern _

theorem failsWith_methodType (descriptor : String) : FailsWith PoolFault (methodType descriptor) :=
  (failsWith_utf8 descriptor).bind fun _ => failsWith_intern _

/-- A call site is refused with its signature. -/
theorem failsWith_invokeDynamic (bootstrap : UInt16) (name descriptor : String) :
    FailsWith PoolFault (invokeDynamic bootstrap name descriptor) :=
  (failsWith_nameAndType name descriptor).bind fun _ => failsWith_intern _

end PoolBuilder

namespace Assembler

open PoolBuilder

/-- A list is refused with one of its entries. -/
theorem failsWith_internAllOnto {α β : Type} {intern : α → Interning β}
    (h : ∀ a, FailsWith PoolFault (intern a)) (as : List α) (seen : Array β) :
    FailsWith PoolFault (internAllOnto intern as seen) := by
  induction as generalizing seen with
  | nil => exact .pure seen
  | cons a as ih => exact (h a).bind fun b => ih (seen.push b)

theorem failsWith_field (f : FieldSpec) : FailsWith PoolFault (internField f) :=
  (failsWith_utf8 f.name).bind fun _ => (failsWith_utf8 f.descriptor).bind fun _ => .pure _

theorem failsWith_method (m : MethodSpec × Option Code) : FailsWith PoolFault (internMethod m) :=
  (failsWith_utf8 m.1.name).bind fun _ => (failsWith_utf8 m.1.descriptor).bind fun _ => .pure _

theorem failsWith_super (name : Option String) : FailsWith PoolFault (internSuper name) := by
  cases name with
  | none => exact .pure 0
  | some name => exact failsWith_classInfo name

theorem failsWith_attribute (needed : Bool) (name : String) :
    FailsWith PoolFault (internAttribute needed name) := by
  cases needed with
  | false => exact .pure 0
  | true => exact failsWith_utf8 name

/-- Interning the names of a class fails as requests do. -/
theorem failsWith_links (spec : ClassSpec) (bodies : Array (Option Code)) (hasBootstraps : Bool) :
    FailsWith PoolFault (internLinks spec bodies hasBootstraps) :=
  (failsWith_classInfo spec.name).bind fun _ => (failsWith_super spec.superName).bind fun _ =>
    (failsWith_internAllOnto failsWith_classInfo _ _).bind fun _ =>
      (failsWith_internAllOnto failsWith_field _ _).bind fun _ =>
        (failsWith_internAllOnto failsWith_method _ _).bind fun _ =>
          (failsWith_attribute _ _).bind fun _ => (failsWith_attribute _ _).bind fun _ => .pure _

end Assembler

theorem HandleSpec.failsWith_intern (h : HandleSpec) : FailsWith PoolFault h.intern :=
  (PoolBuilder.failsWith_memberRef h.memberKind h.member).bind fun _ =>
    PoolBuilder.failsWith_intern _

namespace StaticArgument

theorem failsWith_intern (a : StaticArgument) : FailsWith PoolFault a.intern := by
  cases a with
  | methodType descriptor => exact PoolBuilder.failsWith_methodType descriptor
  | handle h => exact h.failsWith_intern
  | ofClass name => exact PoolBuilder.failsWith_classInfo name
  | string text => exact PoolBuilder.failsWith_string text
  | int value => exact PoolBuilder.failsWith_intern _

theorem failsWith_internAll (as : List StaticArgument) (seen : Array UInt16) :
    FailsWith PoolFault (internAll as seen) := by
  induction as generalizing seen with
  | nil => exact .pure seen
  | cons a as ih => exact a.failsWith_intern.bind fun i => ih (seen.push i)

end StaticArgument

-- ---------------------------------------------------------------------------
-- Dynamic calls
-- ---------------------------------------------------------------------------

namespace Encoder

/-- A request from inside a body fails as it does on the pool alone. -/
theorem failsWith_onPool {α : Type} {P : Fault → Prop} {x : Interning α} (h : FailsWith P x) :
    FailsWith P (onPool x) := by
  rintro ⟨pool, rows, marks, code, maxStack, maxLocals⟩ s' fault herror
  unfold onPool at herror
  simp only at herror
  cases hresult : x pool with
  | ok a pool' =>
    rw [hresult] at herror
    cases herror
  | error fault' pool' =>
    rw [hresult] at herror
    cases herror
    exact h pool pool' fault hresult

/-- An instruction is refused only when the code gets too long. -/
theorem failsWith_append (opcode : UInt8) (operands : Bytes) :
    FailsWith (· = .malformed .codeTooLong) (append opcode operands) := by
  rintro ⟨pool, rows, marks, code, maxStack, maxLocals⟩ s' fault h
  unfold append at h
  simp only at h
  split at h
  · cases h
  · cases h
    rfl

end Encoder

-- ---------------------------------------------------------------------------
-- Writing
-- ---------------------------------------------------------------------------

namespace ClassFile

variable {P : Fault → Prop}

/-- A count is refused only when it does not fit two bytes. -/
theorem refusesWith_count {count : Nat} {cause : Malformation}
    (h : countLimit < count → P (.malformed cause)) : RefusesWith P (encodeCount count cause) := by
  unfold encodeCount
  split
  · exact .pure _
  · rename_i hmany
    exact .error (h (Nat.lt_of_not_le hmany))

/-- An attribute is refused only when its body is too long. -/
theorem refusesWith_attribute (name : UInt16) {body : Bytes}
    (h : ∀ length, P (.malformed (.attributeTooLong length))) :
    RefusesWith P (encodeAttribute name body) := by
  unfold encodeAttribute
  split
  · exact .pure _
  · exact .error (h _)

/-- A list is refused with one of its entries. -/
theorem refusesWith_all {α : Type} {encode : α → Except Fault Bytes}
    (h : ∀ a, RefusesWith P (encode a)) (as : List α) : RefusesWith P (encodeAll encode as) := by
  have honto : ∀ seen, RefusesWith P (encodeAllOnto encode seen as) := by
    induction as with
    | nil => exact fun seen => .pure seen
    | cons a as ih =>
      intro seen
      unfold encodeAllOnto
      cases hfirst : encode a with
      | ok bytes => exact ih _
      | error fault => exact .error (h a fault hfirst)
  exact (honto #[]).map

theorem refusesWith_method (codeName : UInt16) (m : Method)
    (h : ∀ length, P (.malformed (.attributeTooLong length))) :
    RefusesWith P (encodeMethod codeName m) := by
  unfold encodeMethod
  cases m.code with
  | none => exact .pure _
  | some code => exact (refusesWith_attribute codeName h).bind fun _ => .pure _

/-- A class is turned down for its bootstrap methods only if there are too many of them. -/
theorem refusesWith_encode (codeName bootstrapName : UInt16) (c : ClassFile) :
    RefusesWith (fun fault => fault = .malformed .tooManyBootstrapMethods →
      countLimit < c.bootstrapMethods.size) (encode codeName bootstrapName c) := by
  -- no attribute is refused with this fault
  have hattribute : ∀ length, Fault.malformed (.attributeTooLong length) =
      .malformed .tooManyBootstrapMethods → countLimit < c.bootstrapMethods.size :=
    fun _ h => nomatch h
  -- neither is one of the other tables
  have htable : ∀ table count, RefusesWith (fun fault =>
      fault = .malformed .tooManyBootstrapMethods → countLimit < c.bootstrapMethods.size)
      (encodeCount count (.tooManyEntries table count)) :=
    fun _ _ => refusesWith_count fun _ h => nomatch h
  have hrow : ∀ row, RefusesWith (fun fault =>
      fault = .malformed .tooManyBootstrapMethods → countLimit < c.bootstrapMethods.size)
      (encodeBootstrapMethod row) :=
    fun _ => (refusesWith_count fun _ h => nomatch h).bind fun _ => .pure _
  refine (htable _ _).bind fun _ => (htable _ _).bind fun _ => (htable _ _).bind fun _ =>
    (refusesWith_all (fun m => refusesWith_method codeName m hattribute) _).bind fun _ =>
      RefusesWith.bind ?_ fun _ => .pure _
  unfold encodeAttributes
  -- without bootstrap methods there is no such table to refuse
  split
  · exact .pure _
  · exact (refusesWith_count fun hmany _ => hmany).bind fun _ =>
      (refusesWith_all hrow _).bind fun _ =>
        (refusesWith_attribute bootstrapName hattribute).bind fun _ => .pure _

end ClassFile

/-- A class under construction is turned down for its bootstrap methods only
if there are too many of them. -/
theorem Assembler.finish_fault {spec : ClassSpec} {a : Assembler}
    (h : a.finish spec = .error (.malformed .tooManyBootstrapMethods)) :
    countLimit < a.bootstraps.size := by
  unfold finish at h
  -- linking fails with a fault of the pool, which is another one
  cases hlinks : internLinks spec a.bodies (!a.bootstraps.isEmpty) a.pool with
  | error fault pool =>
    rw [hlinks] at h
    cases h
    rcases failsWith_links _ _ _ _ _ _ hlinks with hfull | ⟨length, hlong⟩
    · cases hfull
    · cases hlong
  | ok l pool =>
    rw [hlinks] at h
    exact ClassFile.refusesWith_encode _ _ _ _ h rfl

end Backref
