import Backref.Proofs.Assembly.Emission
import Backref.Proofs.Discovery.Search

/-!
# What emitted code refers to

An emission that keeps to the rules of the instruction set writes one
instruction, which refers to what the emission was asked for. A body of such
emissions tiles its code array, and its instructions refer to the symbols of
its emissions in order.

Main results:

* `Emission.Writes.instruction` — one emission;
* `Emission.runAll_refers` — a body.
-/

namespace Backref

open Discovery FixedWidth

-- ---------------------------------------------------------------------------
-- What text refers to
-- ---------------------------------------------------------------------------

/-- The references of the type of a field, if the descriptor has one. -/
def fieldTypeTargets (descriptor : String) : List Symbol :=
  match FieldType.parse descriptor with
  | .ok t => classes t.className?.toList
  | .error _ => []

/-- The references of the types of a method, if the descriptor has them. -/
def methodTypeTargets (descriptor : String) : List Symbol :=
  match MethodType.parse descriptor with
  | .ok m => classes m.classNames
  | .error _ => []

/-- The references of the operand of a class instruction, if it names a type. -/
def operandTargets (name : String) : List Symbol :=
  match FieldType.ofOperand name with
  | .ok t => classes t.className?.toList
  | .error _ => []

/-- A field descriptor refers to the classes that its targets are. -/
theorem fieldTypeRefers_targets {descriptor : String}
    (h : ∃ t : FieldType, t.SpelledBy descriptor) :
    FieldTypeRefers descriptor (fieldTypeTargets descriptor) := by
  obtain ⟨t, ht⟩ := h
  exact ⟨t, ht, by rw [fieldTypeTargets, FieldType.parse_eq_ok.mpr ht]⟩

theorem methodTypeRefers_targets {descriptor : String}
    (h : ∃ m : MethodType, m.SpelledBy descriptor) :
    MethodTypeRefers descriptor (methodTypeTargets descriptor) := by
  obtain ⟨m, hm⟩ := h
  exact ⟨m, hm, by rw [methodTypeTargets, MethodType.parse_eq_ok.mpr hm]⟩

theorem operandRefers_targets {name : String} (h : ∃ t : FieldType, t.NamedBy name) :
    OperandRefers name (operandTargets name) := by
  obtain ⟨t, ht⟩ := h
  exact ⟨t, ht, by rw [operandTargets, FieldType.ofOperand_eq_ok.mpr ht]⟩

-- ---------------------------------------------------------------------------
-- What emissions refer to
-- ---------------------------------------------------------------------------

namespace LambdaSpec

/-- The descriptors of a lambda expression: of the call site, of the interface
method, and of the interface method with its type arguments. -/
def descriptors (l : LambdaSpec) : List String := [l.descriptor, l.sam, l.instantiated]

/-- The references of a lambda expression: its implementation, then the classes
in its descriptors. -/
def targets (l : LambdaSpec) : List Symbol :=
  (match HandleKind.ofTag l.implementation.kind with
    | .ok kind => handled kind l.implementation.member
    | .error _ => []) ++
  l.descriptors.flatMap methodTypeTargets

/-- A lambda expression that the machine could link: its handle has a kind
that is known, and its descriptors are descriptors. -/
structure Regular (l : LambdaSpec) : Prop where
  kind : ∃ kind, HandleKind.ofTag l.implementation.kind = .ok kind
  descriptors : ∀ d ∈ l.descriptors, ∃ m : MethodType, m.SpelledBy d

end LambdaSpec

namespace Emission

/-- The references of an emission, in the order in which they are found. -/
def targets : Emission → List Symbol
  | field _ m => [.field m]
  | method _ m => invoked m
  | ofClass opcode name =>
    if opcode = Opcode.checkCast ∨ opcode = Opcode.instanceOf then operandTargets name else []
  | loadClass name => operandTargets name
  | lambda l | flaggedLambda l _ => l.targets
  | raw .. | loadString _ | loadInt _ | callSite .. | maxStack _ | maxLocals _ | mark => []

/-- The opcode that makes an object, and the one that makes an array of objects. -/
def makers : List UInt8 := [0xBB, 0xBD]

/-- What keeps to the rules of the instruction set at an offset of the code:
bytes that are written as they are make up one instruction without a pool
index there, opcodes are of the kind that the call is for, operands that are
read name types, and a call site that is no lambda expression does not claim
to be one. -/
def Regular (offset : Nat) : Emission → Prop
  | raw opcode operands =>
    ∃ i, Instruction.Laid offset (opcode :: operands) i ∧ i.constantIndex? = none
  | field opcode _ =>
    opcode ∈ [Opcode.getStatic, Opcode.putStatic, Opcode.getField, Opcode.putField]
  | method opcode _ => opcode ∈ [Opcode.invokeVirtual, Opcode.invokeSpecial, Opcode.invokeStatic,
      Opcode.invokeInterface]
  | ofClass opcode name => opcode ∈ makers ∨
      (opcode = Opcode.checkCast ∨ opcode = Opcode.instanceOf) ∧ ∃ t : FieldType, t.NamedBy name
  | loadClass name => ∃ t : FieldType, t.NamedBy name
  | callSite _ _ bootstrap _ => Lambda.links bootstrap.member = false
  | lambda l | flaggedLambda l _ => l.Regular
  | loadString _ | loadInt _ | maxStack _ | maxLocals _ | mark => True

-- ---------------------------------------------------------------------------
-- One instruction
-- ---------------------------------------------------------------------------

section Layout

variable {offset : Nat} {opcode : UInt8} {index : UInt16}

/-- An instruction with nothing but a pool index. -/
theorem laid_constant (hform : (Opcode.info? opcode).map OpcodeInfo.form = some .constant) :
    Instruction.Laid offset (opcode :: encode index)
      ⟨offset, (encode index).length + 1, opcode, false, .constant index⟩ := by
  obtain ⟨info, hinfo, hinfoForm⟩ := Option.map_eq_some_iff.mp hform
  refine .plain hinfo ?_ ?_
  · rw [hinfoForm]
    decide
  · rw [hinfoForm]
    exact ⟨index, rfl, rfl⟩

/-- An instruction without an operand. -/
theorem exists_laid_alone
    (hform : (Opcode.info? opcode).map OpcodeInfo.form = some .none) :
    ∃ i, Instruction.Laid offset [opcode] i ∧ i.constantIndex? = none := by
  obtain ⟨info, hinfo, hinfoForm⟩ := Option.map_eq_some_iff.mp hform
  refine ⟨⟨offset, _, opcode, false, .none⟩, .plain hinfo ?_ ?_, rfl⟩
  · rw [hinfoForm]
    decide
  · rw [hinfoForm]
    exact ⟨rfl, rfl⟩

/-- The opcode that loads a constant, the short one where the index allows it. -/
def loadOpcode (index : UInt16) : UInt8 := if index ≤ 255 then Opcode.ldc else Opcode.ldcWide

/-- A load is one of the two that carry an index. -/
theorem loadOpcode_mem (index : UInt16) : loadOpcode index ∈ [Opcode.ldc, Opcode.ldcWide] := by
  unfold loadOpcode
  split
  · exact List.mem_cons_self
  · exact List.mem_cons_of_mem _ List.mem_cons_self

/-- A load of a constant, in either form. -/
theorem laid_load :
    Instruction.Laid offset (loadBytes index)
      ⟨offset, (loadBytes index).length, loadOpcode index, false, .constant index⟩ := by
  unfold loadBytes loadOpcode
  -- a small index is written in one byte and read back as it was
  by_cases hsmall : index ≤ 255
  · rw [if_pos hsmall, if_pos hsmall]
    have hindex : index.toUInt8.toUInt16 = index := by
      rw [UInt16.le_iff_toNat_le] at hsmall
      rw [← UInt16.toNat_inj, UInt8.toNat_toUInt16, UInt16.toNat_toUInt8]
      exact Nat.mod_eq_of_lt (Nat.lt_succ_of_le hsmall)
    have hencode : encode index.toUInt8 = [index.toUInt8] := encode_byte _
    have hform : (Opcode.info? Opcode.ldc).map OpcodeInfo.form = some .narrowConstant := by
      decide +kernel
    obtain ⟨info, hinfo, hinfoForm⟩ := Option.map_eq_some_iff.mp hform
    refine .plain hinfo ?_ ?_
    · rw [hinfoForm]
      decide
    · rw [hinfoForm]
      exact ⟨index.toUInt8, hencode.symm, by rw [hindex]⟩
  · rw [if_neg hsmall, if_neg hsmall]
    exact laid_constant (by decide +kernel)

end Layout

/-- The call of an interface method. -/
theorem laid_interface {offset : Nat} {index : UInt16} {count unused : UInt8} :
    Instruction.Laid offset (Opcode.invokeInterface :: (encode index ++ [count, unused]))
      ⟨offset, (encode index ++ [count, unused]).length + 1, Opcode.invokeInterface, false,
        .invokeInterface index count⟩ := by
  -- the form is the one that the table has for the opcode
  have hform : (Opcode.info? Opcode.invokeInterface).map OpcodeInfo.form =
      some .invokeInterface := by
    decide +kernel
  obtain ⟨info, hinfo, hinfoForm⟩ := Option.map_eq_some_iff.mp hform
  have hencode : (encode count : Bytes) = [count] := encode_byte _
  refine .plain hinfo ?_ ?_
  · rw [hinfoForm]
    decide
  · rw [hinfoForm]
    exact ⟨index, count, unused, by rw [hencode]; rfl, rfl⟩

/-- A dynamic call. -/
theorem laid_dynamic {offset : Nat} {index : UInt16} {unused unused' : UInt8} :
    Instruction.Laid offset (Opcode.invokeDynamic :: (encode index ++ [unused, unused']))
      ⟨offset, (encode index ++ [unused, unused']).length + 1, Opcode.invokeDynamic, false,
        .invokeDynamic index⟩ := by
  have hform : (Opcode.info? Opcode.invokeDynamic).map OpcodeInfo.form = some .invokeDynamic := by
    decide +kernel
  obtain ⟨info, hinfo, hinfoForm⟩ := Option.map_eq_some_iff.mp hform
  refine .plain hinfo ?_ ?_
  · rw [hinfoForm]
    decide
  · rw [hinfoForm]
    exact ⟨index, unused, unused', rfl, rfl⟩

-- ---------------------------------------------------------------------------
-- What one instruction refers to
-- ---------------------------------------------------------------------------

section Refers

variable {c : ClassFile} {i : Instruction} {index : UInt16} {ts : List Symbol}

theorem refers_of_role {r : Opcode.Role} (hindex : i.constantIndex? = some index)
    (hrole : Opcode.role i.opcode = r) (h : IndexRefers true c index ts r) :
    InstructionRefers true c i ts := by
  unfold InstructionRefers
  rw [hindex, hrole]
  exact h

/-- An instruction with nothing but a pool index, by the role of its opcode. -/
theorem exists_refers_constant {offset : Nat} {opcode : UInt8} {r : Opcode.Role}
    (hform : (Opcode.info? opcode).map OpcodeInfo.form = some .constant)
    (hrole : Opcode.role opcode = r) (h : IndexRefers true c index ts r) :
    ∃ i, Instruction.Laid offset (opcode :: encode index) i ∧ InstructionRefers true c i ts := by
  exact ⟨_, laid_constant hform, refers_of_role rfl hrole h⟩

/-- A load of a constant. -/
theorem exists_refers_load {offset : Nat} (h : IndexRefers true c index ts .load) :
    ∃ i, Instruction.Laid offset (loadBytes index) i ∧ InstructionRefers true c i ts := by
  have hrole : Opcode.role (loadOpcode index) = .load :=
    (Opcode.role_eq_iff (by decide)).mpr (loadOpcode_mem index)
  exact ⟨_, laid_load, refers_of_role rfl hrole h⟩

/-- A dynamic call. -/
theorem exists_refers_dynamic {offset : Nat} (h : CallSiteRefers c index ts) :
    ∃ i, Instruction.Laid offset (Opcode.invokeDynamic :: (encode index ++ [0, 0])) i ∧
      InstructionRefers true c i ts := by
  have hrole : Opcode.role Opcode.invokeDynamic = .dynamic := by decide +kernel
  exact ⟨_, laid_dynamic, refers_of_role rfl hrole h⟩

/-- An instruction without an index refers to nothing. -/
theorem refers_nothing (hindex : i.constantIndex? = none) : InstructionRefers true c i [] := by
  unfold InstructionRefers
  rw [hindex]

/-- A dynamic call site refers to what its bootstrap method and the static
arguments of that say. -/
theorem callSiteRefers_lambda {number : UInt16} {row : BootstrapMethod} {l : LambdaSpec}
    {m : Member} {more : List StaticArgument} (hlinks : Lambda.links m = true)
    (hsite : c.pool.NamesCallSite index ⟨number, l.name, l.descriptor⟩)
    (hrow : c.bootstrapMethods[number.toNat]? = some row)
    (hhandle : c.pool.NamesHandle row.handle (LambdaSpec.bootstrap m).target)
    (harguments : List.Forall₂ (fun a i => StaticArgument.NamedAt c.pool i a) (l.arguments ++ more)
      row.arguments.toList) (hl : l.Regular) :
    CallSiteRefers c index l.targets := by
  obtain ⟨kind, hkind⟩ := hl.kind
  -- the first three arguments are those of every lambda expression
  unfold LambdaSpec.arguments at harguments
  generalize hrowArguments : row.arguments.toList = is at harguments
  obtain _ | ⟨hsam, harguments⟩ := harguments
  obtain _ | ⟨himplementation, harguments⟩ := harguments
  obtain _ | ⟨hinstantiated, harguments⟩ := harguments
  refine .inl ⟨⟨l.implementation.target, l.descriptors⟩, ?_, ?_⟩
  · exact ⟨_, row, m, ⟨hsite, hrow, _, hhandle, rfl⟩, hlinks, _, _, _, _, _, _, hrowArguments,
      hsam, himplementation, hinstantiated, rfl⟩
  · refine ⟨kind, l.descriptors.flatMap methodTypeTargets, hkind, ?_, ?_⟩
    · exact inOrder_flatMap fun d hd => methodTypeRefers_targets (hl.descriptors d hd)
    · unfold LambdaSpec.targets
      rw [hkind]
      rfl

/-- A call site that links no lambda expression refers to nothing. -/
theorem callSiteRefers_other {number : UInt16} {row : BootstrapMethod} {name descriptor : String}
    {h : HandleSpec} (hlinks : Lambda.links h.member = false)
    (hsite : c.pool.NamesCallSite index ⟨number, name, descriptor⟩)
    (hrow : c.bootstrapMethods[number.toNat]? = some row)
    (hhandle : c.pool.NamesHandle row.handle h.target) : CallSiteRefers c index [] :=
  .inr ⟨⟨_, row, h.member, ⟨hsite, hrow, _, hhandle, rfl⟩, hlinks⟩, rfl⟩

end Refers

/-- The bytes of an emission are one instruction, or none, that refers to what
the emission refers to. -/
theorem Writes.instruction {c : ClassFile} {e : Emission} {offset : Nat} {bytes : Bytes}
    (hwrites : e.Writes c bytes) (hregular : e.Regular offset) :
    (bytes = [] ∧ e.targets = []) ∨
      ∃ i, Instruction.Laid offset bytes i ∧ InstructionRefers true c i e.targets := by
  cases e with
  | raw opcode operands =>
    obtain rfl : bytes = opcode :: operands := hwrites
    obtain ⟨i, hlaid, hindex⟩ := hregular
    exact .inr ⟨i, hlaid, refers_nothing hindex⟩
  | field opcode m =>
    obtain ⟨index, hm, rfl⟩ := hwrites
    -- the four opcodes have one form and one role
    have hform : ∀ op ∈ Opcode.Role.access.opcodes,
        (Opcode.info? op).map OpcodeInfo.form = some .constant := by decide +kernel
    have hrole : Opcode.role opcode = .access := (Opcode.role_eq_iff (by decide)).mpr hregular
    exact .inr (exists_refers_constant (hform opcode hregular) hrole ⟨_, hm, rfl⟩)
  | method opcode m =>
    have hrole : Opcode.role opcode = .invocation :=
      (Opcode.role_eq_iff (by decide)).mpr hregular
    unfold Writes at hwrites
    by_cases hinterface : opcode = Opcode.invokeInterface
    · simp only [if_pos hinterface] at hwrites
      obtain ⟨slots, -, index, hm, rfl⟩ := hwrites
      rw [hinterface] at hrole ⊢
      exact .inr ⟨_, laid_interface, refers_of_role rfl hrole ⟨_, hm, rfl⟩⟩
    · simp only [if_neg hinterface] at hwrites
      obtain ⟨index, hm, rfl⟩ := hwrites
      -- the other three carry an index and nothing else
      have hform : ∀ op ∈ Opcode.Role.invocation.opcodes, op ≠ Opcode.invokeInterface →
          (Opcode.info? op).map OpcodeInfo.form = some .constant := by decide +kernel
      exact .inr (exists_refers_constant (hform opcode hregular hinterface) hrole ⟨_, hm, rfl⟩)
  | ofClass opcode name =>
    obtain ⟨index, hname, rfl⟩ := hwrites
    rcases hregular with hmaker | ⟨htest, ht⟩
    · -- making an object or an array refers to nothing by itself
      have hform : ∀ op ∈ makers, (Opcode.info? op).map OpcodeInfo.form = some .constant ∧
          Opcode.role op = .other ∧ op ≠ Opcode.checkCast ∧ op ≠ Opcode.instanceOf := by
        decide +kernel
      obtain ⟨hconstant, hrole, hcast, hinstance⟩ := hform opcode hmaker
      have htargets : targets (.ofClass opcode name) = [] := by simp [targets, hcast, hinstance]
      rw [htargets]
      exact .inr (exists_refers_constant hconstant hrole rfl)
    · have hmem : opcode ∈ Opcode.Role.test.opcodes := by simpa [Opcode.Role.opcodes] using htest
      have hform : ∀ op ∈ Opcode.Role.test.opcodes,
          (Opcode.info? op).map OpcodeInfo.form = some .constant := by decide +kernel
      have hrole : Opcode.role opcode = .test := (Opcode.role_eq_iff (by decide)).mpr hmem
      have htargets : targets (.ofClass opcode name) = operandTargets name := by
        simp [targets, htest]
      rw [htargets]
      exact .inr (exists_refers_constant (hform opcode hmem) hrole
        ⟨name, hname, operandRefers_targets ht⟩)
  | loadClass name =>
    obtain ⟨index, ⟨j, hindexed, hj⟩, rfl⟩ := hwrites
    exact .inr (exists_refers_load ⟨_, hindexed, name, hj, operandRefers_targets hregular⟩)
  | loadString text =>
    obtain ⟨index, ⟨j, hindexed, -⟩, rfl⟩ := hwrites
    exact .inr (exists_refers_load ⟨_, hindexed, rfl⟩)
  | loadInt value =>
    obtain ⟨index, hindexed, rfl⟩ := hwrites
    exact .inr (exists_refers_load ⟨_, hindexed, rfl⟩)
  | callSite name descriptor bootstrap arguments =>
    obtain ⟨index, number, row, rfl, hsite, hrow, hhandle, -⟩ := hwrites
    exact .inr (exists_refers_dynamic (callSiteRefers_other hregular hsite hrow hhandle))
  | lambda l =>
    obtain ⟨index, number, row, rfl, hsite, hrow, hhandle, harguments⟩ := hwrites
    rw [← List.append_nil l.arguments] at harguments
    exact .inr (exists_refers_dynamic
      (callSiteRefers_lambda (by decide) hsite hrow hhandle harguments hregular))
  | flaggedLambda l flags =>
    obtain ⟨index, number, row, rfl, hsite, hrow, hhandle, harguments⟩ := hwrites
    exact .inr (exists_refers_dynamic
      (callSiteRefers_lambda (by decide) hsite hrow hhandle harguments hregular))
  | maxStack slots => exact .inl ⟨hwrites, rfl⟩
  | maxLocals slots => exact .inl ⟨hwrites, rfl⟩
  | mark => exact .inl ⟨hwrites, rfl⟩

-- ---------------------------------------------------------------------------
-- Bodies
-- ---------------------------------------------------------------------------

/-- Emissions that all keep to the rules, each where it comes to stand. -/
def AllRegular : List Emission → Encoder → Prop
  | [], _ => True
  | e :: es, s => e.Regular s.offset ∧ ∀ s', e.run s = .ok () s' → AllRegular es s'

/-- A body of such emissions is tiled by instructions that refer to the symbols
of the emissions in order. -/
theorem runAll_refers {es : List Emission} {s s' : Encoder} (hs : s.pool.Sound)
    (hregular : AllRegular es s) (h : runAll es s = .ok () s') :
    s'.pool.Sound ∧ s.Grows s' ∧ ∃ bytes, s'.code.toList = s.code.toList ++ bytes ∧
      ∀ c : ClassFile, c.Covers s'.pool.pool s'.bootstraps → ∃ is,
        Instruction.Tiled s.offset bytes is ∧
        InOrder (InstructionRefers true c) is (es.flatMap targets) := by
  -- the induction is on the calls, from any encoder whose pool is sound
  induction es generalizing s with
  | nil =>
    obtain ⟨-, rfl⟩ := pure_eq_ok.mp h
    exact ⟨hs, .refl _ _, [], by simp, fun _ _ => ⟨[], .nil _, .nil⟩⟩
  | cons e es ih =>
    obtain ⟨hfirst, hothers⟩ := hregular
    obtain ⟨_, between, hrun, hrest⟩ := bind_eq_ok.mp h
    -- the first emission, then the others from the state that it leaves
    obtain ⟨hsound, hgrows, bytes, hcode, hwrites⟩ := (Encoder.emits_run e).of_ok hs hrun
    obtain ⟨hsound', hgrows', more, hcode', hmore⟩ := ih hsound (hothers between hrun) hrest
    have hoffset : between.offset = s.offset + bytes.length := by
      unfold Encoder.offset
      rw [← Array.length_toList, hcode, List.length_append, Array.length_toList]
    refine ⟨hsound', hgrows.trans hgrows', bytes ++ more, ?_, ?_⟩
    · rw [hcode', hcode, List.append_assoc]
    · intro c hc
      obtain ⟨is, htiled, hrefers⟩ := hmore c hc
      rw [hoffset] at htiled
      rw [List.flatMap_cons]
      -- the class covers the last state, so it covers the one after the first emission
      have hfirstWrites := hwrites c (hgrows'.trans hc)
      rcases hfirstWrites.instruction hfirst with ⟨rfl, htargets⟩ | ⟨i, hlaid, hi⟩
      · rw [htargets]
        exact ⟨is, htiled, hrefers⟩
      · exact ⟨i :: is, .cons hlaid htiled, .cons hi hrefers⟩

end Emission

end Backref
