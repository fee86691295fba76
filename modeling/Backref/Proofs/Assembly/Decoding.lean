import Backref.Proofs.Assembly.Builder

/-!
# What encoded code is decoded to

The boundaries of instructions in a code array are nowhere written down: each
follows from the widths of all instructions before it, and the width of a load
from how many constants the class has by then. A body that is made of calls
for one instruction each is decoded to these instructions, one for each call,
and their indices resolve to what the calls were given.

Main results:

* `Emission.Writes.decodedAs` — one call;
* `Emission.decoded_runAll` — a body;
* `ClassBuilder.decoded_of_finish` — a body in a class that has been written
  and read back.
-/

namespace Backref

open FixedWidth

-- ---------------------------------------------------------------------------
-- Widths of operands
-- ---------------------------------------------------------------------------

namespace OperandForm

/-- The number of operand bytes of a form, if it is always the same. -/
def width? : OperandForm → Option Nat
  | none => some 0
  | int8 | uint8 | narrowConstant | slot => some 1
  | int16 | constant | increment | branch16 => some 2
  | multiNewArray => some 3
  | branch32 | invokeInterface | invokeDynamic => some 4
  | tableSwitch | lookupSwitch | wide => Option.none

/-- The number of operand bytes of a form behind a prefix that widens it. -/
def wideWidth? : OperandForm → Option Nat
  | slot => some 2
  | increment => some 4
  | _ => Option.none

end OperandForm

/-- Bytes of the width of a type are the encoding of some value of it. -/
theorem exists_encode {α : Type} [FixedWidth α] {bs : Bytes} (h : bs.length = width α) :
    ∃ a : α, bs = encode a :=
  ⟨decode bs, (encode_decode bs h).symm⟩

/-- Bytes longer than the width of a type begin with the encoding of some value of it. -/
theorem exists_encode_append {α : Type} [FixedWidth α] {bs : Bytes} {n : Nat}
    (h : bs.length = width α + n) : ∃ (a : α) (rest : Bytes), bs = encode a ++ rest ∧
      rest.length = n := by
  have hfirst : (bs.take (width α)).length = width α := by
    rw [List.length_take]
    omega
  obtain ⟨a, ha⟩ := exists_encode hfirst
  refine ⟨a, bs.drop (width α), ?_, ?_⟩
  · rw [← ha, List.take_append_drop]
  · rw [List.length_drop]
    omega

namespace Operand

/-- As many bytes as a form takes are an operand of it, whatever they are. -/
theorem exists_laid {form : OperandForm} {bs : Bytes} (start : Nat)
    (h : form.width? = some bs.length) : ∃ o, Laid start bs o form := by
  -- most forms are one number, and any bytes of its width are such a number
  have one : ∀ {α : Type} [FixedWidth α] {f : α → Operand}, bs.length = width α →
      ∃ o a, bs = encode a ∧ o = f a := by
    intro α _ f hlength
    obtain ⟨a, ha⟩ := exists_encode hlength
    exact ⟨f a, a, ha, rfl⟩
  cases form with
  | none => exact ⟨none, List.length_eq_zero_iff.mp (Option.some.inj h).symm, rfl⟩
  | int8 => exact one (Option.some.inj h).symm
  | int16 => exact one (Option.some.inj h).symm
  | uint8 => exact one (Option.some.inj h).symm
  | narrowConstant => exact one (Option.some.inj h).symm
  | constant => exact one (Option.some.inj h).symm
  | slot => exact one (Option.some.inj h).symm
  | branch16 => exact one (Option.some.inj h).symm
  | branch32 => exact one (Option.some.inj h).symm
  | increment =>
    obtain ⟨i, rest, rfl, hrest⟩ := exists_encode_append (α := UInt8) (n := 1)
      (Option.some.inj h).symm
    obtain ⟨delta, rfl⟩ := exists_encode (α := Int8) hrest
    exact ⟨_, i, delta, rfl, rfl⟩
  | multiNewArray =>
    obtain ⟨i, rest, rfl, hrest⟩ := exists_encode_append (α := UInt16) (n := 1)
      (Option.some.inj h).symm
    obtain ⟨dimensions, rfl⟩ := exists_encode (α := UInt8) hrest
    exact ⟨_, i, dimensions, rfl, rfl⟩
  | invokeInterface =>
    obtain ⟨i, rest, rfl, hrest⟩ := exists_encode_append (α := UInt16) (n := 2)
      (Option.some.inj h).symm
    obtain ⟨count, last, rfl, hlast⟩ := exists_encode_append (α := UInt8) (n := 1) hrest
    obtain ⟨unused, rfl⟩ := List.length_eq_one_iff.mp hlast
    exact ⟨_, i, count, unused, rfl, rfl⟩
  | invokeDynamic =>
    obtain ⟨i, rest, rfl, hrest⟩ := exists_encode_append (α := UInt16) (n := 2)
      (Option.some.inj h).symm
    obtain ⟨unused, unused', rfl⟩ := List.length_eq_two.mp hrest
    exact ⟨_, i, unused, unused', rfl, rfl⟩
  -- neither a switch nor the mark of a wide form has a fixed width
  | tableSwitch => cases h
  | lookupSwitch => cases h
  | wide => cases h

/-- As many bytes as a form takes behind a prefix are an operand of it. -/
theorem exists_wideLaid {form : OperandForm} {bs : Bytes}
    (h : form.wideWidth? = some bs.length) : ∃ o, WideLaid bs o form := by
  cases form with
  | slot =>
    obtain ⟨i, rfl⟩ := exists_encode (α := UInt16) (Option.some.inj h).symm
    exact ⟨_, i, rfl, rfl⟩
  | increment =>
    obtain ⟨i, rest, rfl, hrest⟩ := exists_encode_append (α := UInt16) (n := 2)
      (Option.some.inj h).symm
    obtain ⟨delta, rfl⟩ := exists_encode (α := Int16) hrest
    exact ⟨_, i, delta, rfl, rfl⟩
  | _ => cases h

end Operand

-- ---------------------------------------------------------------------------
-- Counts of argument slots
-- ---------------------------------------------------------------------------

/-- The slots of a method's arguments are those of the types that its descriptor spells, if 16
bits can count them. -/
theorem MethodType.argumentSlots_eq_ok {descriptor : String} {slots : Nat} :
    argumentSlots descriptor = .ok slots ↔
      ∃ m : MethodType, m.SpelledBy descriptor ∧ m.slots = slots ∧ slots ≤ countLimit := by
  simp only [argumentSlots, except_bind_eq_ok, ← parse_eq_ok]
  refine exists_congr fun m => and_congr_right fun _ => ?_
  -- what does not fit 16 bits is refused, whatever it is the number of
  by_cases hfew : m.slots ≤ countLimit
  · rw [if_pos hfew, except_pure_eq_ok]
    exact ⟨fun h => ⟨h, h ▸ hfew⟩, And.left⟩
  · rw [if_neg hfew]
    constructor
    · intro h
      cases h
    · rintro ⟨rfl, h⟩
      exact absurd h hfew

/-- Of the counts in 16 bits that fit a byte, one is wrong: that of the most slots there can be. -/
theorem count_of_fits {slots : Nat} (hslots : slots ≤ countLimit)
    (hfits : UInt16.ofNat slots + 1 ≤ 255) :
    (UInt8.ofNat (slots + 1)).toNat = slots + 1 ∨
      slots = countLimit ∧ UInt8.ofNat (slots + 1) = 0 := by
  have hcount : (UInt16.ofNat slots + 1).toNat = (slots + 1) % 65536 := by
    rw [← UInt16.ofNat_one, ← UInt16.ofNat_add, UInt16.toNat_ofNat']
  have hfits : (slots + 1) % 65536 ≤ 255 := hcount ▸ UInt16.le_iff_toNat_le.mp hfits
  rw [← UInt8.toNat_inj, UInt8.toNat_ofNat', UInt8.toNat_zero]
  unfold countLimit at *
  omega

-- ---------------------------------------------------------------------------
-- Calls for one instruction
-- ---------------------------------------------------------------------------

/-- What the lookups of a pool find at an index is a static argument. -/
def StaticArgument.ResolvesAt (pool : ConstantPool) (i : UInt16) : StaticArgument → Prop
  | methodType descriptor => pool.methodType i = .ok descriptor
  | handle h => pool.methodHandle i = .ok h.target
  | ofClass name => pool.className i = .ok name
  | string text => ∃ j, pool.get i = .ok (.string j) ∧ pool.utf8 j = .ok text
  | int value => pool.get i = .ok (.integer value)

/-- An argument that is named at an index is what the index resolves to. -/
theorem StaticArgument.NamedAt.resolvesAt {pool : ConstantPool} {i : UInt16} {a : StaticArgument}
    (h : a.NamedAt pool i) : a.ResolvesAt pool i := by
  open ConstantPool in
  cases a with
  | methodType descriptor => exact methodType_eq_ok.mpr h
  | handle h' => exact methodHandle_eq_ok.mpr h
  | ofClass name => exact className_eq_ok.mpr h
  | string text =>
    obtain ⟨j, hi, hj⟩ := h
    exact ⟨j, get_eq_ok.mpr hi, utf8_eq_ok.mpr hj⟩
  | int value => exact get_eq_ok.mpr h

namespace Instruction

/-- An instruction loads a constant, in the short form where its index allows it. -/
def Loads (i : Instruction) (P : UInt16 → Prop) : Prop :=
  ∃ index, i.opcode = Emission.loadOpcode index ∧ i.operand = .constant index ∧ P index

/-- An instruction is a dynamic call of a call site, whose bootstrap method has
a handle and static arguments. -/
def CallsSite (c : ClassFile) (i : Instruction) (name descriptor : String)
    (bootstrap : HandleSpec) (arguments : List StaticArgument) : Prop :=
  i.opcode = Opcode.invokeDynamic ∧ ∃ index number row,
    i.operand = .invokeDynamic index ∧
    c.pool.callSite index = .ok ⟨number, name, descriptor⟩ ∧
    c.bootstrapMethod number = .ok row ∧
    c.pool.methodHandle row.handle = .ok bootstrap.target ∧
    List.Forall₂ (fun a j => a.ResolvesAt c.pool j) arguments row.arguments.toList

end Instruction

namespace Emission

/-- An opcode is the prefix that widens another one. -/
abbrev Widens (opcode : UInt8) : Prop :=
  (Opcode.info? opcode).map OpcodeInfo.form = some .wide

/-- A call for one instruction, with an opcode that the call is for. Bytes that
are written as they are make up one if they are as many as the form of the
opcode takes; behind a prefix, the opcode that it widens comes first. -/
def Single : Emission → Prop
  | raw opcode operands =>
    (∃ info, Opcode.info? opcode = some info ∧ info.form.width? = some operands.length) ∨
      Widens opcode ∧ ∃ widened rest info, operands = widened :: rest ∧
        Opcode.info? widened = some info ∧ info.form.wideWidth? = some rest.length
  | field opcode _ =>
    opcode ∈ [Opcode.getStatic, Opcode.putStatic, Opcode.getField, Opcode.putField]
  | method opcode _ => opcode ∈ [Opcode.invokeVirtual, Opcode.invokeSpecial, Opcode.invokeStatic,
      Opcode.invokeInterface]
  | ofClass opcode _ => opcode ∈ makers ++ [Opcode.checkCast, Opcode.instanceOf]
  | loadClass _ | loadString _ | loadInt _ | callSite .. | lambda _ | flaggedLambda .. => True
  | maxStack _ | maxLocals _ | mark => False

/-- An opcode without an operand. -/
theorem single_of_alone {opcode : UInt8}
    (hform : (Opcode.info? opcode).map OpcodeInfo.form = some .none) :
    Single (.raw opcode []) := by
  obtain ⟨info, hinfo, hinfoForm⟩ := Option.map_eq_some_iff.mp hform
  refine .inl ⟨info, hinfo, ?_⟩
  rw [hinfoForm]
  rfl

/-- An instruction of a class is what a call has asked for: it has the opcode
that was given, where a prefix stands for the opcode that it widens, and its
index resolves to what was given. A call of an interface method counts one slot
more than its arguments take, except that it counts none where they take all
the 65535 that there can be. -/
def DecodedAs (c : ClassFile) (i : Instruction) : Emission → Prop
  | raw opcode operands =>
    (¬ Widens opcode ∧ i.wide = false ∧ i.opcode = opcode) ∨
      (Widens opcode ∧ i.wide = true ∧ operands.head? = some i.opcode)
  | field opcode m => i.opcode = opcode ∧ ∃ index, i.operand = .constant index ∧
      c.pool.memberRef index = .ok ⟨m, .field⟩
  | method opcode m => i.opcode = opcode ∧
      if opcode = Opcode.invokeInterface then ∃ index count slots,
        i.operand = .invokeInterface index count ∧
        c.pool.memberRef index = .ok ⟨m, .interfaceMethod⟩ ∧
        MethodType.argumentSlots m.descriptor = .ok slots ∧
        (count.toNat = slots + 1 ∨ slots = countLimit ∧ count = 0)
      else ∃ index, i.operand = .constant index ∧ c.pool.memberRef index = .ok ⟨m, .method⟩
  | ofClass opcode name => i.opcode = opcode ∧ ∃ index, i.operand = .constant index ∧
      c.pool.className index = .ok name
  | loadClass name => i.Loads fun index => c.pool.className index = .ok name
  | loadString text => i.Loads fun index => ∃ j, c.pool.get index = .ok (.string j) ∧
      c.pool.utf8 j = .ok text
  | loadInt value => i.Loads fun index => c.pool.get index = .ok (.integer value)
  | callSite name descriptor bootstrap arguments =>
    i.CallsSite c name descriptor bootstrap arguments
  | lambda l =>
    i.CallsSite c l.name l.descriptor (LambdaSpec.bootstrap Lambda.plain) l.arguments
  | flaggedLambda l flags =>
    i.CallsSite c l.name l.descriptor (LambdaSpec.bootstrap Lambda.flagged)
      (l.arguments ++ [.int flags])
  | maxStack _ | maxLocals _ | mark => False

/-- A call of an interface method that succeeds has a count that fits a byte. -/
theorem slots_of_run_interface {m : Member} {s s' : Encoder}
    (h : run (.method Opcode.invokeInterface m) s = .ok () s') :
    ∃ slots, MethodType.argumentSlots m.descriptor = .ok slots ∧
      UInt16.ofNat slots + 1 ≤ 255 := by
  have happend : Encoder.appendInterfaceCall m s = .ok () s' := h
  obtain ⟨slots, between, hslots, hrest⟩ := bind_eq_ok.mp happend
  refine ⟨slots, (ofExcept_eq_ok.mp hslots).1, ?_⟩
  by_contra hmany
  have hthrow : (if UInt16.ofNat slots + 1 ≤ 255 then _ else throw _ : Encoding Unit) between =
      .ok () s' := hrest
  rw [if_neg hmany] at hthrow
  exact throw_ne_ok hthrow

section Decoded

variable {c : ClassFile} {offset : Nat} {bytes : Bytes} {e : Emission}

theorem decodedAs_constant {opcode : UInt8} {index : UInt16}
    (hform : (Opcode.info? opcode).map OpcodeInfo.form = some .constant)
    (h : ∀ i : Instruction, i.opcode = opcode → i.operand = .constant index → e.DecodedAs c i) :
    ∃ i, Instruction.Laid offset (opcode :: encode index) i ∧ e.DecodedAs c i :=
  ⟨_, laid_constant hform, h _ rfl rfl⟩

/-- A load is decoded as a load of its index, in either of its two forms. -/
theorem decodedAs_load {P : UInt16 → Prop} {index : UInt16} (hindex : P index)
    (h : ∀ i : Instruction, i.Loads P → e.DecodedAs c i) :
    ∃ i, Instruction.Laid offset (loadBytes index) i ∧ e.DecodedAs c i :=
  ⟨_, laid_load, h _ ⟨index, rfl, rfl, hindex⟩⟩

/-- A call site is decoded as a call of that site. -/
theorem decodedAs_callSite {name descriptor : String} {bootstrap : HandleSpec}
    {arguments : List StaticArgument}
    (hwrites : WritesCallSite c bytes name descriptor bootstrap arguments)
    (h : ∀ i : Instruction, i.CallsSite c name descriptor bootstrap arguments → e.DecodedAs c i) :
    ∃ i, Instruction.Laid offset bytes i ∧ e.DecodedAs c i := by
  obtain ⟨index, number, row, rfl, hsite, hrow, hhandle, harguments⟩ := hwrites
  refine ⟨_, laid_dynamic, h _ ⟨rfl, index, number, row, rfl, ?_, ?_, ?_, ?_⟩⟩
  · exact ConstantPool.callSite_eq_ok.mpr hsite
  · exact Discovery.bootstrapMethod_eq_ok.mpr hrow
  · exact ConstantPool.methodHandle_eq_ok.mpr hhandle
  · exact harguments.imp fun _ _ h => h.resolvesAt

/-- Bytes that are written as they are make up one instruction. -/
theorem decodedAs_raw {opcode : UInt8} {operands : Bytes} (h : Single (.raw opcode operands)) :
    ∃ i, Instruction.Laid offset (opcode :: operands) i ∧
      DecodedAs c i (.raw opcode operands) := by
  -- the opcode may itself be the mark of a wide form
  rcases h with ⟨info, hinfo, hwidth⟩ | ⟨hmark, widened, rest, info, rfl, hinfo, hwidth⟩
  · obtain ⟨operand, hlaid⟩ := Operand.exists_laid (offset + 1) hwidth
    have hform : info.form ≠ .wide := by
      intro hwide
      rw [hwide] at hwidth
      cases hwidth
    refine ⟨_, .plain hinfo hform hlaid, .inl ⟨?_, rfl, rfl⟩⟩
    rw [Widens, hinfo]
    exact fun hwide => hform (Option.some.inj hwide)
  · obtain ⟨operand, hlaid⟩ := Operand.exists_wideLaid hwidth
    obtain ⟨markInfo, hmarkInfo, hform⟩ := Option.map_eq_some_iff.mp hmark
    exact ⟨_, .wide hmarkInfo hform hinfo hlaid, .inr ⟨hmark, rfl, rfl⟩⟩

/-- An invocation is one instruction, which has an operand of its own form for
a method of an interface. -/
theorem decodedAs_method {opcode : UInt8} {m : Member} {s s' : Encoder}
    (hwrites : Writes c bytes (.method opcode m)) (hsingle : Single (.method opcode m))
    (hrun : run (.method opcode m) s = .ok () s') :
    ∃ i, Instruction.Laid offset bytes i ∧ DecodedAs c i (.method opcode m) := by
  unfold Writes at hwrites
  by_cases hinterface : opcode = Opcode.invokeInterface
  · simp only [if_pos hinterface] at hwrites
    subst hinterface
    obtain ⟨slots, hslots, index, hm, rfl⟩ := hwrites
    -- the call has not failed, so its count fits the byte that it is written in
    obtain ⟨slots', hslots', hfits⟩ := slots_of_run_interface hrun
    obtain rfl := Except.ok.inj (hslots.symm.trans hslots')
    obtain ⟨-, -, -, hfew⟩ := MethodType.argumentSlots_eq_ok.mp hslots
    refine ⟨_, laid_interface, rfl, ?_⟩
    rw [if_pos rfl]
    exact ⟨index, _, slots, rfl, ConstantPool.memberRef_eq_ok.mpr hm, hslots,
      count_of_fits hfew hfits⟩
  · simp only [if_neg hinterface] at hwrites
    obtain ⟨index, hm, rfl⟩ := hwrites
    have hform : ∀ op ∈ Opcode.Role.invocation.opcodes, op ≠ Opcode.invokeInterface →
        (Opcode.info? op).map OpcodeInfo.form = some .constant := by decide +kernel
    refine decodedAs_constant (hform opcode hsingle hinterface) fun i hop hoperand => ⟨hop, ?_⟩
    rw [if_neg hinterface]
    exact ⟨index, hoperand, ConstantPool.memberRef_eq_ok.mpr hm⟩

/-- The bytes of a call are one instruction, which is what the call has asked for. -/
theorem Writes.decodedAs {s s' : Encoder} (offset : Nat) (hwrites : e.Writes c bytes)
    (hsingle : e.Single) (hrun : e.run s = .ok () s') :
    ∃ i, Instruction.Laid offset bytes i ∧ e.DecodedAs c i := by
  open ConstantPool in
  -- each kind of call has its own form, and its meaning is looked up in the pool
  cases e with
  | raw opcode operands =>
    obtain rfl : bytes = opcode :: operands := hwrites
    exact decodedAs_raw hsingle
  | field opcode m =>
    obtain ⟨index, hm, rfl⟩ := hwrites
    have hform : ∀ op ∈ Opcode.Role.access.opcodes,
        (Opcode.info? op).map OpcodeInfo.form = some .constant := by decide +kernel
    exact decodedAs_constant (hform opcode hsingle) fun i hop hoperand =>
      ⟨hop, index, hoperand, memberRef_eq_ok.mpr hm⟩
  | method opcode m => exact decodedAs_method hwrites hsingle hrun
  | ofClass opcode name =>
    obtain ⟨index, hname, rfl⟩ := hwrites
    have hform : ∀ op ∈ makers ++ [Opcode.checkCast, Opcode.instanceOf],
        (Opcode.info? op).map OpcodeInfo.form = some .constant := by decide +kernel
    exact decodedAs_constant (hform opcode hsingle) fun i hop hoperand =>
      ⟨hop, index, hoperand, className_eq_ok.mpr hname⟩
  | loadClass name =>
    obtain ⟨index, hname, rfl⟩ := hwrites
    exact decodedAs_load (className_eq_ok.mpr hname) fun i h => h
  | loadString text =>
    obtain ⟨index, ⟨j, hindexed, hj⟩, rfl⟩ := hwrites
    exact decodedAs_load (P := fun index => ∃ j, c.pool.get index = .ok (.string j) ∧
      c.pool.utf8 j = .ok text) ⟨j, get_eq_ok.mpr hindexed, utf8_eq_ok.mpr hj⟩ fun i h => h
  | loadInt value =>
    obtain ⟨index, hindexed, rfl⟩ := hwrites
    exact decodedAs_load (P := fun index => c.pool.get index = .ok (.integer value))
      (get_eq_ok.mpr hindexed) fun i h => h
  | callSite name descriptor bootstrap arguments =>
    exact decodedAs_callSite hwrites fun i h => h
  | lambda l => exact decodedAs_callSite hwrites fun i h => h
  | flaggedLambda l flags => exact decodedAs_callSite hwrites fun i h => h
  | maxStack slots => exact hsingle.elim
  | maxLocals slots => exact hsingle.elim
  | mark => exact hsingle.elim

end Decoded

-- ---------------------------------------------------------------------------
-- Bodies
-- ---------------------------------------------------------------------------

/-- Instructions are what calls have asked for, one for each call that is made
from a state on: each stands where the code ended before the call, and ends
where the code ends after it. -/
inductive Decoded (c : ClassFile) : List Emission → Encoder → List Instruction → Prop
  | nil (s : Encoder) : Decoded c [] s []
  | cons {e : Emission} {es : List Emission} {s s' : Encoder} {i : Instruction}
      {is : List Instruction} (run : e.run s = .ok () s') (start : i.offset = s.offset)
      (stop : i.offset + i.size = s'.offset) (first : e.DecodedAs c i)
      (others : Decoded c es s' is) : Decoded c (e :: es) s (i :: is)

/-- A body of calls for one instruction each is tiled by these instructions. -/
theorem decoded_runAll {es : List Emission} {s s' : Encoder} (hs : s.pool.Sound)
    (hsingle : ∀ e ∈ es, e.Single) (h : runAll es s = .ok () s') :
    s'.pool.Sound ∧ s.Grows s' ∧ ∃ bytes, s'.code.toList = s.code.toList ++ bytes ∧
      ∀ c : ClassFile, c.Covers s'.pool.pool s'.bootstraps → ∃ is,
        Instruction.Tiled s.offset bytes is ∧ Decoded c es s is := by
  -- the induction is on the calls; each one writes the next instruction
  induction es generalizing s with
  | nil =>
    obtain ⟨-, rfl⟩ := pure_eq_ok.mp h
    exact ⟨hs, .refl _ _, [], by simp, fun _ _ => ⟨[], .nil _, .nil _⟩⟩
  | cons e es ih =>
    obtain ⟨_, between, hrun, hrest⟩ := bind_eq_ok.mp h
    obtain ⟨hsound, hgrows, bytes, hcode, hwrites⟩ := (Encoder.emits_run e).of_ok hs hrun
    obtain ⟨hsound', hgrows', more, hcode', hmore⟩ :=
      ih hsound (fun e' he' => hsingle e' (List.mem_cons_of_mem e he')) hrest
    have hoffset : between.offset = s.offset + bytes.length := by
      unfold Encoder.offset
      rw [← Array.length_toList, hcode, List.length_append, Array.length_toList]
    refine ⟨hsound', hgrows.trans hgrows', bytes ++ more, ?_, fun c hc => ?_⟩
    · rw [hcode', hcode, List.append_assoc]
    · obtain ⟨is, htiled, hdecoded⟩ := hmore c hc
      rw [hoffset] at htiled
      -- the class covers the last state, so it covers the one after the first call
      obtain ⟨i, hlaid, hi⟩ := (hwrites c (hgrows'.trans hc)).decodedAs s.offset
        (hsingle e List.mem_cons_self) hrun
      refine ⟨i :: is, .cons hlaid htiled, .cons hrun hlaid.offset_eq ?_ hi hdecoded⟩
      rw [hlaid.offset_eq, hlaid.size_eq, hoffset]

end Emission

-- ---------------------------------------------------------------------------
-- Whole classes
-- ---------------------------------------------------------------------------

namespace ClassBuilder

open Assembler

variable {b : ClassBuilder} {name : String}

/-- A method with a body, in a class that a builder has written: the code of the
method that is read back is what the encoder had when the body was done, and
the class has the constants and the bootstrap methods of the encoder. -/
theorem exists_body {name : String} {before after : List ClassCall} {m : MethodCall}
    {ts : List Attempt} {b : ClassBuilder} {bytes : Bytes} (hbody : m.body = some ts)
    (hcalls : performAll (before ++ .method m :: after) (.new name) = .ok b)
    (hbytes : b.finish = .ok bytes) :
    ∃ c b₀ slots s method, ClassFile.ofBytes bytes = .ok c ∧
      performAll before (.new name) = .ok b₀ ∧ b₀.state.pool.Sound ∧
      MethodType.argumentSlots m.descriptor = .ok slots ∧
      Attempt.runAll ts (b₀.state.encoder m.spec slots) = .ok () s ∧
      c.Covers s.pool.pool s.bootstraps ∧
      c.methods[(before.filterMap ClassCall.method?).length]? = some method ∧
      method.code = some ⟨s.maxStack, s.maxLocals, s.code.toList, #[]⟩ := by
  obtain ⟨l, pool, hread, -, hwithin, hlinked⟩ := exists_classFile hcalls hbytes
  obtain ⟨b₀, a, hbefore, hsound, hadd, hgrows, hplace⟩ := exists_add hcalls
  obtain ⟨slots, s, hslots, hrun, -, rfl⟩ := (MethodCall.add_eq_ok hbody).mp hadd
  have hmethods := hlinked.methods
  rw [methods_of_performAll hcalls] at hmethods
  obtain ⟨method, hmethod, hcode⟩ := exists_method hmethods (hplace _ rfl)
  -- the class has what the builder had in the end, and so what the encoder had
  refine ⟨_, b₀, slots, s, method, hread, hbefore, hsound, hslots, hrun,
    ⟨hgrows.pool.trans hwithin, hgrows.rows⟩, ?_, hcode⟩
  rw [← Array.getElem?_toList]
  exact hmethod

/-- A body of calls for one instruction each, in a class that a builder has
written: walking through the code of the method that is read back yields these
instructions, one for each call, and no fault. -/
theorem decoded_of_finish {before after : List ClassCall} {m : MethodCall} {es : List Emission}
    {bytes : Bytes} (hbody : m.body = some (es.map Attempt.ofEmission))
    (hsingle : ∀ e ∈ es, e.Single)
    (hcalls : performAll (before ++ .method m :: after) (.new name) = .ok b)
    (hbytes : b.finish = .ok bytes) :
    ∃ c b₀ slots method code is, ClassFile.ofBytes bytes = .ok c ∧
      performAll before (.new name) = .ok b₀ ∧
      MethodType.argumentSlots m.descriptor = .ok slots ∧
      c.methods[(before.filterMap ClassCall.method?).length]? = some method ∧
      method.code = some code ∧ (Walk.items code.bytes).toList = is.map .ok ∧
      Emission.Decoded c es (b₀.state.encoder m.spec slots) is := by
  obtain ⟨c, b₀, slots, s, method, hread, hbefore, hsound, hslots, hrun, hcovers, hmethod,
    hsame⟩ := exists_body hbody hcalls hbytes
  rw [Attempt.runAll_map_ofEmission] at hrun
  obtain ⟨-, -, code, hcode, hdecoded⟩ :=
    Emission.decoded_runAll (s := b₀.state.encoder m.spec slots) hsound hsingle hrun
  obtain ⟨is, htiled, his⟩ := hdecoded c hcovers
  -- the code of a method starts empty, so all of it comes from the calls
  have hbytes : s.code.toList = code := hcode
  rw [← hbytes] at htiled
  exact ⟨c, b₀, slots, method, _, is, hread, hbefore, hslots, hmethod, hsame,
    Walk.items_eq_iff.mpr htiled, his⟩

/-! ### The small class -/

/-- The calls that declare the small class, before that for its method. -/
def loadingCalls : List ClassCall :=
  [.access .publicSuper, .version 52 0, .superName none, .field ⟨⟨0⟩, "f", "[LB;"⟩]

/-- The method of the small class is decoded to three instructions. -/
theorem decoded_loadingClass :
    ∃ b, performAll (loadingCalls ++ [.method ClassSpec.loadingMethod.call]) (.new "C") = .ok b ∧
      b.finish = .ok ClassSpec.loadingBytes ∧
      ∃ c b₀ slots method code is, ClassFile.ofBytes ClassSpec.loadingBytes = .ok c ∧
        performAll loadingCalls (.new "C") = .ok b₀ ∧
        MethodType.argumentSlots "()V" = .ok slots ∧ c.methods[0]? = some method ∧
        method.code = some code ∧ (Walk.items code.bytes).toList = is.map .ok ∧
        Emission.Decoded c [.loadClass "A", .raw 0x57 [], .raw 0xB1 []]
          (b₀.state.encoder ClassSpec.loadingMethod slots) is := by
  have hassembled := ClassSpec.assemble_loadingClass
  rw [ClassSpec.assemble_eq_performAll] at hassembled
  obtain ⟨b, hcalls, hbytes⟩ := except_bind_eq_ok.mp hassembled
  have hsingle : ∀ e ∈ [Emission.loadClass "A", .raw 0x57 [], .raw 0xB1 []], e.Single := by
    have hpop : (Opcode.info? 0x57).map OpcodeInfo.form = some .none := by decide +kernel
    have hreturn : (Opcode.info? 0xB1).map OpcodeInfo.form = some .none := by decide +kernel
    simp only [List.forall_mem_cons, List.not_mem_nil, false_implies, implies_true, and_true]
    exact ⟨trivial, Emission.single_of_alone hpop, Emission.single_of_alone hreturn⟩
  exact ⟨b, hcalls, hbytes, decoded_of_finish (m := ClassSpec.loadingMethod.call) rfl hsingle
    hcalls hbytes⟩

/-! ### A call that counts no slots -/

section Widest

variable {m : Member}

/-- The bytes of a call that counts no slots. -/
def zeroCall (index : UInt16) : Bytes :=
  Opcode.invokeInterface :: (encode index ++ [0, 0])

/-- A call of an interface method whose arguments take as many slots as 16 bits
count succeeds where there is room for it, and counts none. -/
theorem run_widestCall {s : Encoder}
    (hslots : MethodType.argumentSlots m.descriptor = .ok countLimit)
    (hmember : PoolBuilder.NeedsAtMost (PoolBuilder.memberRef .interfaceMethod m) 6)
    (hpool : s.pool.count + 6 ≤ countLimit) (hcode : s.code = #[]) :
    ∃ index pool, pool.count ≤ s.pool.count + 6 ∧
      (Emission.method Opcode.invokeInterface m).run s =
        .ok () { s with pool, code := (zeroCall index).toArray } := by
  obtain ⟨index, pool, hrun, hcount⟩ := hmember s.pool hpool
  refine ⟨index, pool, hcount, ?_⟩
  refine bind_eq_ok.mpr ⟨countLimit, s, ofExcept_eq_ok.mpr ⟨hslots, rfl⟩, ?_⟩
  -- with the receiver the count is 0 in 16 bits, which fits a byte
  refine bind_eq_ok.mpr ⟨index, _, ClassSpec.onPool_of_ok hrun, ?_⟩
  obtain ⟨pool₀, rows, marks, code, maxStack, maxLocals⟩ := s
  obtain rfl : code = #[] := hcode
  rfl

/-- A method whose body is one call of an interface method. -/
def callerOf (m : Member) : MethodCall :=
  ⟨⟨0⟩, "m", "()V", some ([.method Opcode.invokeInterface m].map Attempt.ofEmission)⟩

/-- The class `C` with this method, once the body has been run. -/
def callerBuilder (m : Member) (pool : PoolBuilder) (code : Bytes) : ClassBuilder :=
  ⟨{ name := "C", methods := [(callerOf m).spec] },
    ⟨pool, #[], #[], #[some ⟨defaultMaxStack, defaultMaxLocals ⟨0⟩ 0, code, #[]⟩]⟩⟩

/-- The body runs, and takes six slots of the pool. -/
theorem performAll_callerOf (hslots : MethodType.argumentSlots m.descriptor = .ok countLimit)
    (hmember : PoolBuilder.NeedsAtMost (PoolBuilder.memberRef .interfaceMethod m) 6) :
    ∃ index pool, pool.count ≤ 7 ∧ performAll [.method (callerOf m)] (.new "C") =
      .ok (callerBuilder m pool (zeroCall index)) := by
  have hnone : MethodType.argumentSlots "()V" = .ok 0 := by decide +kernel
  have hroom : PoolBuilder.empty.count + 6 ≤ countLimit := by decide
  obtain ⟨index, pool, hcount, hrun⟩ :=
    run_widestCall (s := Assembler.empty.encoder (callerOf m).spec 0) hslots hmember hroom rfl
  have hall := Attempt.runAll_one hrun
  exact ⟨index, pool, hcount, performAll_method (b := .new "C") rfl hnone hall rfl⟩

/-- The body of the method, with the limits of a body that sets none. -/
def callerCode (index : UInt16) : Code :=
  ⟨defaultMaxStack, defaultMaxLocals ⟨0⟩ 0, zeroCall index, #[]⟩

/-- The method keeps its body, and needs a slot for its name and one for its descriptor. -/
theorem exists_internMethod_callerOf {pool : PoolBuilder} {i : UInt16}
    (hroom : pool.count + 2 ≤ countLimit) :
    ∃ name descriptor pool', pool'.count ≤ pool.count + 2 ∧
      internMethod ((callerOf m).spec, some (callerCode i)) pool =
        .ok ⟨⟨0⟩, name, descriptor, some (callerCode i)⟩ pool' := by
  have hm : (Modified.encode "m").length ≤ countLimit := by decide +kernel
  have htype : (Modified.encode "()V").length ≤ countLimit := by decide +kernel
  obtain ⟨name, between, hname, hcount⟩ := PoolBuilder.NeedsAtMost.utf8 hm pool (by omega)
  obtain ⟨descriptor, pool', hdescriptor, hcount'⟩ :=
    PoolBuilder.NeedsAtMost.utf8 htype between (by omega)
  exact ⟨name, descriptor, pool', by omega,
    bind_eq_ok.mpr ⟨name, _, hname, bind_eq_ok.mpr ⟨descriptor, _, hdescriptor, rfl⟩⟩⟩

/-- There is room for the names of the class, of its method and of its one attribute. -/
theorem exists_internLinks_callerBuilder {pool : PoolBuilder} {i : UInt16}
    (hcount : pool.count ≤ 7) :
    ∃ this super name descriptor codeName pool',
      internLinks (callerBuilder m pool (zeroCall i)).spec #[some (callerCode i)] false pool =
        .ok ⟨this, super, #[], #[], #[⟨⟨0⟩, name, descriptor, some (callerCode i)⟩], codeName, 0⟩
          pool' := by
  have hlimit : countLimit = 65535 := rfl
  have hC : (Modified.encode "C").length ≤ countLimit := by decide +kernel
  have hobject : (Modified.encode "java/lang/Object").length ≤ countLimit := by decide +kernel
  have hname : (Modified.encode "Code").length ≤ countLimit := by decide +kernel
  obtain ⟨this, pool₁, hthis, hcount₁⟩ := PoolBuilder.NeedsAtMost.classInfo hC pool (by omega)
  obtain ⟨super, pool₂, hsuper, hcount₂⟩ :=
    PoolBuilder.NeedsAtMost.classInfo hobject pool₁ (by omega)
  have hroom : pool₂.count + 2 ≤ countLimit := by omega
  obtain ⟨name, descriptor, pool₃, hcount₃, hmethod⟩ :=
    exists_internMethod_callerOf (m := m) (i := i) hroom
  obtain ⟨codeName, pool₄, hcode, -⟩ := PoolBuilder.NeedsAtMost.utf8 hname pool₃ (by omega)
  refine ⟨this, super, name, descriptor, codeName, pool₄, ?_⟩
  refine bind_eq_ok.mpr ⟨this, _, hthis, bind_eq_ok.mpr ⟨super, _, hsuper, ?_⟩⟩
  refine bind_eq_ok.mpr ⟨#[], _, rfl, bind_eq_ok.mpr ⟨#[], _, rfl, ?_⟩⟩
  refine bind_eq_ok.mpr ⟨#[⟨⟨0⟩, name, descriptor, some (callerCode i)⟩], _,
    bind_eq_ok.mpr ⟨_, _, hmethod, rfl⟩, ?_⟩
  -- the attribute is needed because the one method has a body
  have hattribute : internAttribute (#[some (callerCode i)].any Option.isSome)
      ClassFile.codeAttribute pool₃ = .ok codeName pool₄ := by
    rw [show #[some (callerCode i)].any Option.isSome = true by simp]
    exact hcode
  exact bind_eq_ok.mpr ⟨codeName, _, hattribute, rfl⟩

/-- The class can be written. -/
theorem exists_finish_callerBuilder {pool : PoolBuilder} {i : UInt16} (hcount : pool.count ≤ 7) :
    ∃ bytes, (callerBuilder m pool (zeroCall i)).finish = .ok bytes := by
  obtain ⟨this, super, name, descriptor, codeName, pool', hlinks⟩ :=
    exists_internLinks_callerBuilder (m := m) (i := i) hcount
  exact ⟨_, ClassSpec.finish_eq_ok.mpr ⟨_, _, hlinks, rfl⟩⟩

/-- The class is read back, and the call is decoded to an instruction that counts no slots. -/
theorem exists_zeroCount (hslots : MethodType.argumentSlots m.descriptor = .ok countLimit)
    (hmember : PoolBuilder.NeedsAtMost (PoolBuilder.memberRef .interfaceMethod m) 6) :
    ∃ b bytes c method code i index, performAll [.method (callerOf m)] (.new "C") = .ok b ∧
      b.finish = .ok bytes ∧ ClassFile.ofBytes bytes = .ok c ∧ c.methods[0]? = some method ∧
      method.code = some code ∧ (Walk.items code.bytes).toList = [.ok i] ∧
      i.opcode = Opcode.invokeInterface ∧ i.operand = .invokeInterface index 0 := by
  obtain ⟨index, pool, hcount, hcalls⟩ := performAll_callerOf hslots hmember
  obtain ⟨bytes, hbytes⟩ := exists_finish_callerBuilder (m := m) (i := index) hcount
  obtain ⟨l, p, hread, -, -, hlinked⟩ := exists_classFile hcalls hbytes
  -- the class has one method, whose code is the one body
  have hbody : ((callerBuilder m pool (zeroCall index)).spec.methods.zip
      (callerBuilder m pool (zeroCall index)).state.bodies.toList)[0]? = some _ := rfl
  obtain ⟨method, hmethod, -, -, -, hcode⟩ := exists_getElem?_of_forall₂ hlinked.methods hbody
  rw [Array.getElem?_toList] at hmethod
  have htiled : Instruction.Tiled 0 (zeroCall index) [_] := .cons Emission.laid_interface (.nil _)
  exact ⟨_, bytes, _, method, _, _, index, hcalls, hbytes, hread, hmethod, hcode,
    Walk.items_eq_iff.mpr htiled, rfl, rfl⟩

end Widest

/-- The types of a method with so many parameters of type `long`, and one of type `int`. -/
def longsType (longs : Nat) : MethodType :=
  ⟨List.replicate longs ⟨0, .primitive .long⟩ ++ [⟨0, .primitive .int⟩], .void⟩

/-- The descriptor of such a method. -/
def longsDescriptor (longs : Nat) : String := String.ofList (longsType longs).render

theorem render_longsType (longs : Nat) :
    (longsType longs).render = '(' :: (List.replicate longs 'J' ++ ['I', ')', 'V']) := by
  have hlongs : (List.replicate longs (⟨0, .primitive .long⟩ : FieldType)).flatMap
      FieldType.render = List.replicate longs 'J' := by
    rw [List.flatMap_replicate]
    exact List.flatten_replicate_singleton
  unfold MethodType.render longsType
  rw [List.flatMap_append, hlongs, List.cons_append, List.append_assoc]
  rfl

/-- The descriptor has a byte for each parameter of type `long`, and four more. -/
theorem length_longsDescriptor (longs : Nat) :
    (Modified.encode (longsDescriptor longs)).length = longs + 4 := by
  have hletters : ∀ c ∈ (longsType longs).render, 1 ≤ c.toNat ∧ c.toNat ≤ 0x7F := by
    simp only [render_longsType, List.forall_mem_cons, List.forall_mem_append,
      List.forall_mem_replicate, List.not_mem_nil, false_implies, implies_true, and_true]
    exact ⟨by decide, .inr (by decide), by decide⟩
  rw [longsDescriptor, Modified.length_encode_ascii hletters, render_longsType]
  simp

/-- Every long takes two slots, and the int at the end takes one. -/
theorem argumentSlots_longsDescriptor (longs : Nat) (h : 2 * longs + 1 ≤ countLimit) :
    MethodType.argumentSlots (longsDescriptor longs) = .ok (2 * longs + 1) := by
  have hslots : (longsType longs).slots = 2 * longs + 1 := by
    unfold MethodType.slots longsType
    simp [FieldType.slots, Nat.mul_comm]
  have hlong : (⟨0, .primitive .long⟩ : FieldType).WellFormed :=
    ⟨by decide, by unfold ElementType.WellFormed; decide⟩
  have hint : (⟨0, .primitive .int⟩ : FieldType).WellFormed :=
    ⟨by decide, by unfold ElementType.WellFormed; decide⟩
  -- no part of the descriptor is a name, so it is well formed
  have hwellFormed : (longsType longs).WellFormed :=
    ⟨List.forall_mem_append.mpr ⟨List.forall_mem_replicate.mpr (.inr hlong),
      List.forall_mem_singleton.mpr hint⟩, .inr rfl⟩
  exact MethodType.argumentSlots_eq_ok.mpr
    ⟨longsType longs, ⟨hwellFormed, String.toList_ofList.symm⟩, hslots, h⟩

/-- A call whose arguments take 65535 slots is decoded to an instruction whose
count is 0, where the arguments and the receiver take 65536. -/
theorem zeroCount_widestCall :
    ∃ b bytes c method code i index, MethodType.argumentSlots (longsDescriptor 32767) = .ok 65535 ∧
      performAll [.method (callerOf ⟨"A", "f", longsDescriptor 32767⟩)] (.new "C") = .ok b ∧
      b.finish = .ok bytes ∧ ClassFile.ofBytes bytes = .ok c ∧ c.methods[0]? = some method ∧
      method.code = some code ∧ (Walk.items code.bytes).toList = [.ok i] ∧
      i.opcode = Opcode.invokeInterface ∧ i.operand = .invokeInterface index 0 := by
  have hslots : MethodType.argumentSlots (longsDescriptor 32767) = .ok countLimit :=
    argumentSlots_longsDescriptor 32767 (by decide)
  have hfits : (Modified.encode (longsDescriptor 32767)).length ≤ countLimit := by
    rw [length_longsDescriptor]
    decide
  -- the descriptor has the length of its text, and there is room for the six entries
  have hmember : PoolBuilder.NeedsAtMost
      (PoolBuilder.memberRef .interfaceMethod ⟨"A", "f", longsDescriptor 32767⟩) 6 :=
    .memberRef (by decide +kernel) (by decide +kernel) hfits
  obtain ⟨b, bytes, c, method, code, i, index, hfound⟩ :=
    exists_zeroCount (m := ⟨"A", "f", longsDescriptor 32767⟩) hslots hmember
  exact ⟨b, bytes, c, method, code, i, index, hslots, hfound⟩

end ClassBuilder

end Backref
