import Backref.Proofs.ClassFile.Faults
import Backref.Proofs.Discovery.Kinds

/-!
# Kinds of fault

A search that fails has met something malformed, with one exception: the
handle of a lambda expression's implementation may be of a kind that is not
known. This fault comes last of all that can be wrong with the lambda
expression but its descriptors, and nothing of the lambda expression is
reported before it.

Main results:

* `Findings.malformed_or_reaches` — the fault of a search, and the instruction
  that the search has come to if nothing is malformed;
* `Findings.faults_by_kind` — which faults reading and searching have, and when.
-/

namespace Backref

open Discovery

-- ---------------------------------------------------------------------------
-- Malformed input
-- ---------------------------------------------------------------------------

/-- The fault lies in the form of the input. -/
def InForm (fault : Fault) : Prop := fault.isMalformedInput = true

/-- What reading can fail with is about the form of the input. -/
theorem ReadFault.inForm {fault : Fault} (h : ReadFault fault) : InForm fault := by
  rcases h with rfl | ⟨cause, rfl⟩
  · rfl
  · rfl

theorem OnlyMalformed.inForm {α : Type} {v : Except Fault α} (h : OnlyMalformed v) :
    RefusesWith InForm v := by
  intro fault hfault
  obtain ⟨cause, rfl⟩ := h fault hfault
  rfl

/-- A text that is refused is a malformed descriptor. -/
theorem Descriptor.refusesWith_whole {α : Type} (text : String)
    (outcome : Except Stop (Step α)) : RefusesWith InForm (whole text outcome) := by
  rcases outcome with ⟨reason, pos⟩ | ⟨value, pos, rest⟩
  · exact .error rfl
  · show RefusesWith InForm
      (if rest.isEmpty then .ok value else .error (.descriptor .trailingText pos text))
    split
    · exact .pure value
    · exact .error rfl

theorem FieldType.refusesWith_parse (text : String) : RefusesWith InForm (parse text) :=
  Descriptor.refusesWith_whole _ _

theorem MethodType.refusesWith_parse (text : String) : RefusesWith InForm (parse text) :=
  Descriptor.refusesWith_whole _ _

theorem FieldType.refusesWith_ofOperand (name : String) : RefusesWith InForm (ofOperand name) := by
  unfold ofOperand
  split
  · exact .error rfl
  · split
    · exact refusesWith_parse name
    · exact .pure _

-- ---------------------------------------------------------------------------
-- Kinds of handle
-- ---------------------------------------------------------------------------

/-- The kinds of handle have the numbers from 1 to 9. -/
theorem HandleKind.exists_tag_iff {tag : UInt8} :
    (∃ kind : HandleKind, tag = kind.tag) ↔ 1 ≤ tag ∧ tag ≤ 9 := by
  constructor
  · rintro ⟨kind, rfl⟩
    cases kind <;> decide
  · rintro ⟨hlow, hhigh⟩
    have hlow' := UInt8.le_iff_toNat_le.mp hlow
    have hhigh' := UInt8.le_iff_toNat_le.mp hhigh
    have hall : ∀ n < 10, 1 ≤ n → ∃ kind ∈ all, n = kind.tag.toNat := by decide
    obtain ⟨kind, -, hkind⟩ := hall tag.toNat (Nat.lt_succ_of_le hhigh') hlow'
    exact ⟨kind, UInt8.toNat_inj.mp hkind⟩

/-- A tag is refused when it is none of the nine, and the fault carries the tag. -/
theorem HandleKind.ofTag_eq_error {tag : UInt8} {fault : Fault} :
    ofTag tag = .error fault ↔ ¬ (1 ≤ tag ∧ tag ≤ 9) ∧ fault = .handleKind tag := by
  rw [← exists_tag_iff]
  cases hkind : ofTag tag with
  | ok kind =>
    refine iff_of_false nofun fun h => ?_
    exact h.1 ⟨kind, ofTag_eq_ok.mp hkind⟩
  | error fault' =>
    -- the tag of a kind would have been accepted
    have hnone : ¬ ∃ kind : HandleKind, tag = kind.tag := by
      rintro ⟨kind, htag⟩
      rw [ofTag_eq_ok.mpr htag] at hkind
      cases hkind
    have hfault : fault' = .handleKind tag := by
      unfold ofTag at hkind
      split at hkind
      · cases hkind
      · exact (Except.error.inj hkind).symm
    rw [hfault, Except.error.injEq, and_iff_right hnone, eq_comm]

namespace Discovery

/-- An instruction calls a lambda expression whose implementation has a handle
of some number. -/
def CallsLambda (c : ClassFile) (i : Instruction) (tag : UInt8) : Prop :=
  i.opcode = Opcode.invokeDynamic ∧ ∃ index l, i.constantIndex? = some index ∧
    LambdaAt c index l ∧ l.implementation.kind = tag

/-- A followed lambda expression with a handle of no known kind. -/
def UnknownHandle (lambdas : Bool) (c : ClassFile) (i : Instruction) (fault : Fault) : Prop :=
  lambdas = true ∧ ∃ tag, CallsLambda c i tag ∧ ¬ (1 ≤ tag ∧ tag ≤ 9) ∧ fault = .handleKind tag

variable {lambdas : Bool} {c : ClassFile} {i : Instruction} {fault : Fault}

/-- An operand goes wrong for its form. -/
theorem OperandFaults.inForm {v : Except Fault String} (hv : OnlyMalformed v)
    (h : OperandFaults v fault) : InForm fault := by
  rcases h with hlookup | ⟨name, -, hname⟩
  · exact hv.inForm fault hlookup
  · exact FieldType.refusesWith_ofOperand name fault hname

/-- A constant that is loaded goes wrong for its form. -/
theorem ConstantFaults.inForm {k : Constant} (h : ConstantFaults c fault k) : InForm fault := by
  cases k with
  | classInfo j => exact OperandFaults.inForm (OnlyMalformed.utf8 c.pool j) h
  | _ => exact h.elim

/-- An instruction has a fault because something is malformed, or because of a
handle of no known kind. -/
theorem inForm_or_unknownHandle (h : InstructionFaults lambdas c i fault) :
    InForm fault ∨ UnknownHandle lambdas c i fault := by
  obtain ⟨index, hindex, hfault⟩ := h
  -- only a dynamic call looks at the kind of a handle
  cases hrole : Opcode.role i.opcode with
  | access =>
    rw [hrole] at hfault
    exact .inl ((OnlyMalformed.memberRef c.pool index).inForm fault hfault)
  | invocation =>
    rw [hrole] at hfault
    exact .inl ((OnlyMalformed.memberRef c.pool index).inForm fault hfault)
  | load =>
    rw [hrole] at hfault
    rcases hfault with hget | ⟨k, -, hconstant⟩
    · exact .inl ((OnlyMalformed.get c.pool index).inForm fault hget)
    · exact .inl hconstant.inForm
  | test =>
    rw [hrole] at hfault
    exact .inl (OperandFaults.inForm (OnlyMalformed.className c.pool index) hfault)
  | dynamic =>
    have hop := List.mem_singleton.mp ((Opcode.role_eq_iff (by decide)).mp hrole)
    rw [hrole] at hfault
    obtain ⟨hlambdas, hsite | ⟨l, hl, hkind⟩⟩ := hfault
    · exact .inl ((OnlyMalformed.lambda? index c).inForm fault hsite)
    · obtain ⟨hunknown, rfl⟩ := HandleKind.ofTag_eq_error.mp hkind
      exact .inr ⟨hlambdas, _, ⟨hop, index, l, hindex, hl, rfl⟩, hunknown, rfl⟩
  | other =>
    rw [hrole] at hfault
    exact hfault.elim

/-- A handle of no known kind is a fault of its instruction. -/
theorem UnknownHandle.faults (h : UnknownHandle lambdas c i fault) :
    InstructionFaults lambdas c i fault := by
  obtain ⟨hlambdas, tag, ⟨hop, index, l, hindex, hl, rfl⟩, hunknown, rfl⟩ := h
  have hrole : Opcode.role i.opcode = .dynamic :=
    (Opcode.role_eq_iff (by decide)).mpr (List.mem_singleton.mpr hop)
  refine ⟨index, hindex, ?_⟩
  rw [hrole]
  exact ⟨hlambdas, .inr ⟨l, hl, HandleKind.ofTag_eq_error.mpr ⟨hunknown, rfl⟩⟩⟩

/-- An instruction goes wrong for its form, or links a lambda expression of an unknown kind. -/
theorem InstructionStops.inForm_or_unknownHandle {ts : List Symbol}
    (h : InstructionStops lambdas c i fault ts) :
    InForm fault ∨ UnknownHandle lambdas c i fault := by
  rcases h with ⟨hfaults, -⟩ | ⟨-, -, -, -, -, -, -, -, -, ⟨-, d, -, -, -, hparse⟩, -⟩
  · exact Discovery.inForm_or_unknownHandle hfaults
  · exact .inl (MethodType.refusesWith_parse d fault hparse)

theorem refusesWith_member (owner : String) (name descriptor : UInt16) :
    RefusesWith InForm (member c owner name descriptor) :=
  (OnlyMalformed.utf8 c.pool name).inForm.bind fun _ =>
    (OnlyMalformed.utf8 c.pool descriptor).inForm.bind fun _ => .pure _

/-- A field goes wrong for its form. -/
theorem FieldStops.inForm {owner : String} {x : Field} {rs : List Reference}
    (h : FieldStops c owner x fault rs) : InForm fault := by
  obtain ⟨-, hmember | ⟨m, -, hparse⟩⟩ := h
  · exact refusesWith_member owner _ _ fault hmember
  · exact FieldType.refusesWith_parse _ fault hparse

end Discovery

-- ---------------------------------------------------------------------------
-- Where a search fails
-- ---------------------------------------------------------------------------

namespace Findings

variable {lambdas : Bool} {c : ClassFile} {owner : String} {fault : Fault}

/-- A search that fails does so at a member, after a search without a fault of
the members before it. -/
theorem exists_first_fault (howner : c.name = .ok owner) {n : Nat} (hn : n ≤ c.memberCount)
    (h : (ofFirst lambdas c n).fault = some fault) :
    ∃ k < n, (ofFirst lambdas c k).fault = none ∧
      (ofFirst lambdas c (k + 1)).fault = some fault := by
  -- the first fault is among the members before this one, or it is this one's
  induction n with
  | zero =>
    have hnothing : visitClass lambdas (c.declaring 0) = pure () := by
      rw [visitClass_declaring howner, Nat.zero_sub, List.take_zero, List.take_zero]
      rfl
    rw [ofFirst, ofClass, hnothing] at h
    cases h
  | succ n ih =>
    by_cases hbefore : (ofFirst lambdas c n).fault = none
    · exact ⟨n, Nat.lt_succ_self n, hbefore, h⟩
    · rw [(ofFirst_succ howner hn).2 hbefore] at h
      obtain ⟨k, hk, hfound⟩ := ih (Nat.le_of_succ_le hn) h
      exact ⟨k, Nat.lt_succ_of_lt hk, hfound⟩

/-- The part of a search that comes after a part without a fault. -/
theorem exists_error_of_bind {x y : Discovery Unit}
    (hx : (ofResult (x #[])).fault = none) (h : (ofResult ((do x; y) #[])).fault = some fault) :
    ∃ found found', x #[] = .ok () found ∧ y found = .error fault found' := by
  obtain ⟨found, hok⟩ := exists_ok_of_fault_eq_none hx
  obtain ⟨found', herror⟩ := exists_error_of_fault_eq_some h
  rcases bind_eq_error.mp herror with hfirst | ⟨_, between, hfirst, hrest⟩
  · rw [hok] at hfirst
    cases hfirst
  · rw [hok] at hfirst
    cases hfirst
    exact ⟨found, found', hok, hrest⟩

/-- A method that is searched up to an instruction is searched without a fault
where its code is cut off there. -/
theorem upTo_of_codeRefers (howner : c.name = .ok owner) {j n : Nat} {x : Method} {code : Code}
    {declared : Member} {found : Array Reference} {us ws : List Symbol}
    (hbefore : visitClass lambdas (c.declaring (c.fields.size + j)) #[] = .ok () found)
    (hx : c.methods[j]? = some x) (hcode : x.code = some code)
    (hdeclared : Declares c owner x.name x.descriptor declared)
    (hus : MethodTypeRefers declared.descriptor us)
    (hws : CodeRefers lambdas c (code.bytes.take n) ws) :
    (upTo lambdas c j n).fault = none := by
  -- the method with the rest of its code cut off goes wrong nowhere
  have hfinds : MethodFinds lambdas c owner (x.cut n) (noted (.method declared) (us ++ ws)) := by
    refine ⟨declared, hdeclared, _, ⟨us, ws, hus, ?_, rfl⟩, rfl⟩
    rw [Method.cut, hcode]
    exact hws
  have hok := (finds_visitMethod lambdas c owner (x.cut n) found
    (found.toList ++ noted (.method declared) (us ++ ws)).toArray).mpr ⟨_, hfinds, rfl⟩
  unfold upTo ofFirst ofClass
  rw [visitClass_declaring_cut howner hx, bind_of_ok _ hbefore, hok]
  rfl

/-- A search fails on something malformed, or on a handle of no known kind that
it has come to. -/
theorem malformed_or_reaches (howner : c.name = .ok owner)
    (h : (ofClass lambdas c).fault = some fault) :
    InForm fault ∨ ∃ j d i, Reaches lambdas c j d i ∧ UnknownHandle lambdas c i fault := by
  rw [← c.declaring_memberCount] at h
  obtain ⟨k, hk, hbefore, hfault⟩ := exists_first_fault howner (Nat.le_refl _) h
  unfold ofFirst ofClass at hbefore hfault
  by_cases hfield : k < c.fields.size
  · have hx : c.fields[k]? = some c.fields[k] := Array.getElem?_eq_getElem hfield
    rw [visitClass_declaring_field howner hx] at hfault
    obtain ⟨found, found', -, herror⟩ := exists_error_of_bind hbefore hfault
    obtain ⟨rs, hstops, -⟩ := (stops_visitField c owner _ found found' fault).mp herror
    exact .inl hstops.inForm
  · obtain ⟨j, rfl⟩ := Nat.exists_eq_add_of_le (Nat.le_of_not_lt hfield)
    have hj : j < c.methods.size := by
      unfold ClassFile.memberCount at hk
      omega
    have hx : c.methods[j]? = some c.methods[j] := Array.getElem?_eq_getElem hj
    rw [visitClass_declaring_method howner hx] at hfault
    obtain ⟨found, found', hok, herror⟩ := exists_error_of_bind hbefore hfault
    obtain ⟨rs, hstops, -⟩ := (stops_visitMethod lambdas c owner _ found found' fault).mp herror
    rcases hstops with ⟨hmember, -⟩ | ⟨declared, hdeclared, _, hstops, -⟩
    · exact .inl (refusesWith_member owner _ _ fault hmember)
    rcases hstops with ⟨hparse, -⟩ | ⟨code, us, _, hcode, hus, ⟨d, ws, ts, hdata, hws, hts, -⟩, -⟩
    · exact .inl (MethodType.refusesWith_parse _ fault hparse)
    -- the search has come to the place in the code where it stops
    cases hts with
    | unreadable hread hmore => exact .inl (Instruction.failsWith_read _ _ _ hread).inForm
    | instruction hread hstops =>
      refine hstops.inForm_or_unknownHandle.imp_right fun hunknown => ?_
      exact ⟨j, d, _, ⟨⟨_, code, hx, hcode, hdata⟩,
        upTo_of_codeRefers howner hok hx hcode hdeclared hus hws, ⟨_, hread⟩⟩, hunknown⟩

/-- A search that comes to an instruction has found the name of the class. -/
theorem exists_name_of_reaches {j : Nat} {d : Cursor} {i : Instruction}
    (h : Reaches lambdas c j d i) : ∃ owner, c.name = .ok owner := by
  cases hname : c.name with
  | ok owner => exact ⟨owner, rfl⟩
  | error fault =>
    have hcut : ((c.cut j d.pos).declaring (c.fields.size + j + 1)).name = .error fault := hname
    have hfaultless := h.faultless
    rw [upTo, ofFirst, ofClass, visitClass, hcut] at hfaultless
    cases hfaultless

/-- The faults of reading and searching a byte string. Reading fails at the
number that a class file starts with, for want of data, or on something
malformed. Searching fails in the form of the input or on a handle of no known
kind: then lambda expressions are followed, and the search has come to one with
such a handle. Whenever it comes to one, it ends there with this fault, and of
the lambda expression it reports nothing. -/
theorem faults_by_kind (lambdas : Bool) (bytes : Bytes) :
    (∀ fault, ClassFile.ofBytes bytes = .error fault →
      (∃ found, fault = .magic found) ∨ fault = .outOfBounds ∨
        ∃ cause, fault = .malformed cause) ∧
    (∀ tag, (ofBytes lambdas bytes).fault = some (.handleKind tag) →
      lambdas = true ∧ ¬ (1 ≤ tag ∧ tag ≤ 9) ∧ ∃ c j d i,
        ClassFile.ofBytes bytes = .ok c ∧ Reaches lambdas c j d i ∧ CallsLambda c i tag) ∧
    (∀ fault, (ofBytes lambdas bytes).fault = some fault →
      (∀ tag, fault ≠ .handleKind tag) → fault.isMalformedInput = true) ∧
    ∀ c j d i tag, ClassFile.ofBytes bytes = .ok c → lambdas = true →
      Reaches lambdas c j d i → CallsLambda c i tag → ¬ (1 ≤ tag ∧ tag ≤ 9) →
      ofBytes lambdas bytes =
        ⟨(upTo lambdas c j d.pos).references, some (.handleKind tag)⟩ := by
  refine ⟨fun fault => ClassFile.fault_ofBytes, ?_, ?_, ?_⟩
  · intro tag hfault
    -- a fault of form is never about the kind of a handle
    have hmalformed : ¬ InForm (.handleKind tag) := nofun
    cases hc : ClassFile.ofBytes bytes with
    | error fault =>
      rw [ofBytes, hc] at hfault
      cases hfault
      rcases ClassFile.fault_ofBytes hc with ⟨found, h⟩ | hread
      · cases h
      · exact absurd hread.inForm hmalformed
    | ok c =>
      have hbytes : ofBytes lambdas bytes = ofClass lambdas c := by rw [ofBytes, hc]
      rw [hbytes] at hfault
      cases howner : c.name with
      | error fault =>
        rw [ofClass, visitClass, howner] at hfault
        cases hfault
        exact absurd ((OnlyMalformed.className c.pool _).inForm _ howner) hmalformed
      | ok owner =>
        rcases malformed_or_reaches howner hfault with hform | ⟨j, d, i, hreaches, hunknown⟩
        · exact absurd hform hmalformed
        · obtain ⟨hlambdas, tag', hcalls, htag, hsame⟩ := hunknown
          cases hsame
          exact ⟨hlambdas, htag, c, j, d, i, rfl, hreaches, hcalls⟩
  · intro fault hfault hother
    cases fault with
    | handleKind tag => exact absurd rfl (hother tag)
    | _ => rfl
  · intro c j d i tag hc hlambdas hreaches hcalls htag
    obtain ⟨owner, howner⟩ := exists_name_of_reaches hreaches
    have hunknown : UnknownHandle lambdas c i (.handleKind tag) :=
      ⟨hlambdas, tag, hcalls, htag, rfl⟩
    obtain ⟨user, -, -, hends⟩ := added_of_reaches howner hreaches
    rw [ofBytes, hc]
    exact hends _ hunknown.faults

/-- A class file: that of `brokenLambdaBytes`, but for the handle of the
implementation, which is of kind 42. -/
def unknownHandleBytes : Bytes := brokenLambdaBytes.set 118 42

/-- In the sample, the search comes to the lambda expression and ends there. It
has reported the field that is read before. The descriptor of the interface
method is malformed, but the kind of the handle is looked at first. -/
theorem faults_by_kind_unknownHandleBytes :
    (∃ c j d i, ClassFile.ofBytes unknownHandleBytes = .ok c ∧ Reaches true c j d i ∧
      CallsLambda c i 42 ∧ ofBytes true unknownHandleBytes =
        ⟨(upTo true c j d.pos).references, some (.handleKind 42)⟩) ∧
      (ofBytes true unknownHandleBytes).reports = [("f:B:f:I", "m:C:m:()V")] := by
  have hfault : (ofBytes true unknownHandleBytes).fault = some (.handleKind 42) := by
    decide +kernel
  obtain ⟨-, hknown, -, hends⟩ := faults_by_kind true unknownHandleBytes
  obtain ⟨-, htag, c, j, d, i, hc, hreaches, hcalls⟩ := hknown 42 hfault
  exact ⟨⟨c, j, d, i, hc, hreaches, hcalls, hends c j d i 42 hc rfl hreaches hcalls htag⟩,
    by decide +kernel⟩

end Findings

end Backref
