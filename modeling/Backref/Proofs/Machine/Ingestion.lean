import Backref.Index.Basic
import Backref.Proofs.Discovery.Mentions
import Backref.Proofs.Machine.Descriptor
import Backref.Proofs.Machine.Instruction

/-!
# Ingestion with partial operations

The whole way of a byte string into an index, with every partial operation on
it: the class file is parsed, its members are visited, descriptors are parsed
where they are met, and the code of a method is decoded instruction by
instruction while references are noted.

Looking up constants, spelling symbols and filing references are total. The
counter of an index is a number here, as it is in an index: how often a word
can be counted up is not looked at.

Main result: `ingest_eq_ok`.
-/

namespace Backref.Machine

-- ---------------------------------------------------------------------------
-- Visits
-- ---------------------------------------------------------------------------

/-- A computation that notes references as it finds them. -/
abbrev Visit := EStateM Halt (Array Reference)

/-- A visit that does nothing partial. -/
def plain {α : Type} (x : Discovery α) : Visit α := fun found =>
  match x found with
  | .ok a found => .ok a found
  | .error fault found => .error (.fault fault) found

/-- Notes the classes in a method's descriptor. -/
def noteMethodType (user : Symbol) (descriptor : String) : Visit Unit := do
  plain (Discovery.noteClasses user (← check (parseMethodDescriptor descriptor)).classNames)

/-- Notes the class that a field's descriptor mentions. -/
def noteFieldType (user : Symbol) (descriptor : String) : Visit Unit := do
  plain (Discovery.noteClasses user (← check (parseFieldDescriptor descriptor)).className?.toList)

/-- Notes the class that the operand of a class instruction mentions. -/
def noteOperand (user : Symbol) (name : String) : Visit Unit := do
  plain (Discovery.noteClasses user (← check (parseClassOperand name)).className?.toList)

/-- Notes the classes in the descriptors of several methods, in order. -/
def noteMethodTypes (user : Symbol) : List String → Visit Unit
  | [] => pure ()
  | d :: ds => do
    noteMethodType user d
    noteMethodTypes user ds

/-- Notes what a lambda expression refers to. -/
def noteLambda (user : Symbol) (l : Discovery.LambdaTargets) : Visit Unit := do
  let kind ← check (total (HandleKind.ofTag l.implementation.kind))
  if kind.isField then
    plain (Discovery.noteField user l.implementation.member.toMember)
  else
    plain (Discovery.noteMethod user l.implementation.member.toMember)
  noteMethodTypes user l.descriptors

/-- Notes what a dynamic call site refers to. -/
def noteCallSite (c : ClassFile) (user : Symbol) (index : UInt16) : Visit Unit := do
  match ← check (total (Discovery.lambda? c index)) with
  | some l => noteLambda user l
  | none => pure ()

/-- Notes what a loaded constant refers to. -/
def noteConstant (c : ClassFile) (user : Symbol) (index : UInt16) : Visit Unit := do
  match ← check (total (c.pool.get index)) with
  | .classInfo name => do noteOperand user (← check (total (c.pool.utf8 name)))
  | _ => pure ()

/-- Notes what an instruction refers to. -/
def noteInstruction (lambdas : Bool) (c : ClassFile) (user : Symbol) (i : Instruction) :
    Visit Unit := do
  match i.constantIndex? with
  | none => pure ()
  | some index =>
    if Opcode.accessesField i.opcode then
      plain (Discovery.noteField user (← check (total (c.pool.memberRef index))).toMember)
    else if Opcode.invokesMethod i.opcode then
      plain (Discovery.noteMethod user (← check (total (c.pool.memberRef index))).toMember)
    else if Opcode.loadsConstant i.opcode then
      noteConstant c user index
    else if Opcode.testsClass i.opcode then
      noteOperand user (← check (total (c.pool.className index)))
    else if i.opcode == Opcode.invokeDynamic && lambdas then
      noteCallSite c user index
    else
      pure ()

/-- One round over a code array: an instruction is decoded, and what it refers
to is noted. -/
def codeRound (lambdas : Bool) (c : ClassFile) (user : Symbol) (p : Parser) :
    Visit (Parser ⊕ Unit) := do
  if p.position < p.data.length then
    let (i, p) ← check (decodeInstruction.step p)
    noteInstruction lambdas c user i
    return .inl p
  else
    return .inr ()

/-- Notes what the instructions of a code array refer to. -/
def noteCode (lambdas : Bool) (c : ClassFile) (user : Symbol) (code : Bytes) : Visit Unit :=
  rounds (fun p _ => p.left) (codeRound lambdas c user) (.new code)

/-- Notes what a field refers to. -/
def visitField (c : ClassFile) (owner : String) (f : Field) : Visit Unit := do
  let m ← check (total (Discovery.member c owner f.name f.descriptor))
  noteFieldType (.field m) m.descriptor

/-- Notes what a method refers to. -/
def visitMethod (lambdas : Bool) (c : ClassFile) (owner : String) (m : Method) : Visit Unit := do
  let declared ← check (total (Discovery.member c owner m.name m.descriptor))
  let user := Symbol.method declared
  noteMethodType user declared.descriptor
  match m.code with
  | none => pure ()
  | some code => noteCode lambdas c user code.bytes

/-- Visits the entries of a table in order. -/
def visitAll {α : Type} (visit : α → Visit Unit) : List α → Visit Unit
  | [] => pure ()
  | a :: as => do
    visit a
    visitAll visit as

/-- Notes what the members of a class refer to. -/
def visitClass (lambdas : Bool) (c : ClassFile) : Visit Unit := do
  let owner ← check (total c.name)
  visitAll (visitField c owner) c.fields.toList
  visitAll (visitMethod lambdas c owner) c.methods.toList

-- ---------------------------------------------------------------------------
-- Ingestion
-- ---------------------------------------------------------------------------

/-- Files what has been found, and counts it for a message. -/
def fileAll (i : Index) (found : Array Reference) : Except Halt Index := do
  let after := found.foldl Index.addReference i
  let _ ← sub after.count i.count
  return after

/-- Files the references in a class file. An outcome comes with the fault that
is returned, if there is one; without an outcome, ingestion has not returned. -/
def ingest (i : Index) (bytes : Bytes) : Except Halt (Index × Option Fault) :=
  match parseClass.run bytes with
  | .error (.fault fault) => do return (← fileAll i #[], some fault)
  | .error halt => .error halt
  | .ok c =>
    match visitClass i.config.lambdas c #[] with
    | .ok () found => do return (← fileAll i found, none)
    | .error (.fault fault) found => do return (← fileAll i found, some fault)
    | .error halt _ => .error halt

-- ---------------------------------------------------------------------------
-- Visits and discoveries
-- ---------------------------------------------------------------------------

section Visits

variable {α β : Type}

theorem plain_of_ok {x : Discovery α} {found more : Array Reference} {a : α}
    (h : x found = .ok a more) : plain x found = .ok a more := by
  rw [plain, h]

theorem plain_of_error {x : Discovery α} {found more : Array Reference} {fault : Fault}
    (h : x found = .error fault more) : plain x found = .error (.fault fault) more := by
  rw [plain, h]

theorem plain_ofExcept (v : Except Fault α) : plain (MonadExcept.ofExcept v) = check (total v) := by
  cases v <;> rfl

theorem plain_bind (x : Discovery α) (f : α → Discovery β) :
    plain (x >>= f) = plain x >>= fun a => plain (f a) := by
  funext found
  cases hx : x found with
  | ok a t =>
    rw [bind_of_ok _ (plain_of_ok hx), plain, bind_of_ok f hx]
    rfl
  | error fault t => rw [bind_of_error _ (plain_of_error hx), plain, bind_of_error f hx]

/-- What goes on from a value has to be the same for the values that there are. -/
theorem check_bind_congr {v : Except Fault α} {f g : α → Visit β}
    (h : ∀ a, v = .ok a → f a = g a) : check (total v) >>= f = check (total v) >>= g := by
  cases v with
  | ok a => exact h a rfl
  | error fault => rfl

/-- A character takes four bytes at most. -/
theorem byteLength_le (cs : List Char) : Descriptor.byteLength cs ≤ 4 * cs.length := by
  induction cs with
  | nil => exact Nat.le_refl _
  | cons c cs ih =>
    have hsize := c.utf8Size_le_four
    rw [Descriptor.byteLength_cons, List.length_cons]
    omega

/-- A word measures the bytes of a short text. -/
theorem length_utf8_lt {text : String} (h : text.toList.length ≤ countLimit) :
    (utf8 text.toList).length < wordLimit := by
  have hbytes := byteLength_le text.toList
  rw [countLimit] at h
  rw [length_utf8, wordLimit, UInt64.size]
  omega

end Visits

section Descriptors

variable {user : Symbol} {text : String} (h : text.toList.length ≤ countLimit)
include h

theorem noteMethodType_eq :
    noteMethodType user text = plain (Discovery.noteMethodType user text) := by
  rw [noteMethodType, Discovery.noteMethodType, plain_bind, plain_ofExcept,
    parseMethodDescriptor_eq (length_utf8_lt h)]

theorem noteFieldType_eq :
    noteFieldType user text = plain (Discovery.noteFieldType user text) := by
  rw [noteFieldType, Discovery.noteFieldType, plain_bind, plain_ofExcept,
    parseFieldDescriptor_eq (length_utf8_lt h)]

theorem noteOperand_eq : noteOperand user text = plain (Discovery.noteOperand user text) := by
  rw [noteOperand, Discovery.noteOperand, plain_bind, plain_ofExcept,
    parseClassOperand_eq (length_utf8_lt h)]

end Descriptors

/-- Method descriptors that are short are noted one after the other. -/
theorem noteMethodTypes_eq {ds : List String} (user : Symbol)
    (h : ∀ d ∈ ds, d.toList.length ≤ countLimit) :
    noteMethodTypes user ds = plain (Discovery.noteMethodTypes user ds) := by
  induction ds with
  | nil => rfl
  | cons d ds ih =>
    rw [noteMethodTypes, Discovery.noteMethodTypes, plain_bind,
      noteMethodType_eq (h d List.mem_cons_self),
      ih fun d' hd' => h d' (List.mem_cons_of_mem d hd')]

theorem noteLambda_eq {l : Discovery.LambdaTargets} (user : Symbol)
    (h : ∀ d ∈ l.descriptors, d.toList.length ≤ countLimit) :
    noteLambda user l = plain (Discovery.noteLambda user l) := by
  rw [noteLambda, Discovery.noteLambda, plain_bind, plain_ofExcept, noteMethodTypes_eq user h]
  congr 1
  funext kind
  split
  · rw [plain_bind]
  · rw [plain_bind]

section Classes

variable {c : ClassFile} (h : c.Measured) (user : Symbol)
include h

/-- A call site is noted as it is defined to be, as the pool has short texts only. -/
theorem noteCallSite_eq (index : UInt16) :
    noteCallSite c user index = plain (Discovery.noteCallSite c user index) := by
  rw [noteCallSite, Discovery.noteCallSite, plain_bind, plain_ofExcept]
  refine check_bind_congr fun o ho => ?_
  rcases Discovery.lambda?_eq_ok.mp ho with ⟨l, rfl, hl⟩ | ⟨rfl, -⟩
  · refine noteLambda_eq user fun d hd => ?_
    -- each of the three descriptors is a text of the pool
    obtain ⟨s, _, _, ⟨⟨_, _, _, _, _, _, hsite⟩, -⟩, -, hl⟩ := hl
    obtain ⟨_, _, _, _, _, _, -, ⟨_, _, hsam⟩, -, ⟨_, _, hinstantiated⟩, hds⟩ := hl
    rw [hds] at hd
    simp only [List.mem_cons, List.not_mem_nil, or_false] at hd
    rcases hd with rfl | rfl | rfl
    · exact h.pool _ _ hsite
    · exact h.pool _ _ hsam
    · exact h.pool _ _ hinstantiated
  · rfl

theorem noteConstant_eq (index : UInt16) :
    noteConstant c user index = plain (Discovery.noteConstant c user index) := by
  rw [noteConstant, Discovery.noteConstant, plain_bind, plain_ofExcept]
  congr 1
  funext constant
  cases constant with
  | classInfo name =>
    simp only
    rw [plain_bind, plain_ofExcept]
    exact check_bind_congr fun text htext =>
      noteOperand_eq (h.pool _ _ (ConstantPool.utf8_eq_ok.mp htext))
  | _ => rfl

theorem noteInstruction_eq (lambdas : Bool) (i : Instruction) :
    noteInstruction lambdas c user i = plain (Discovery.noteInstruction lambdas c user i) := by
  rw [noteInstruction, Discovery.noteInstruction]
  cases i.constantIndex? with
  | none => rfl
  | some index =>
    simp only
    -- the roles are asked for in the same order on both sides
    split
    · rw [plain_bind, plain_ofExcept]
    split
    · rw [plain_bind, plain_ofExcept]
    split
    · exact noteConstant_eq h user index
    split
    · rw [plain_bind, plain_ofExcept]
      refine check_bind_congr fun name hname => noteOperand_eq ?_
      obtain ⟨_, -, htext⟩ := ConstantPool.className_eq_ok.mp hname
      exact h.pool _ _ htext
    split
    · exact noteCallSite_eq h user index
    · rfl

/-- Where an instruction is decoded, a round notes what it refers to. -/
theorem codeRound_of_ok (lambdas : Bool) {p q : Parser} {i : Instruction}
    (hmore : p.position < p.data.length) (hi : decodeInstruction p = .ok i q) :
    codeRound lambdas c user p = plain (do
      Discovery.noteInstruction lambdas c user i
      return .inl q) := by
  have hstep : decodeInstruction.step p = .ok (i, q) := by
    rw [Parsing.step, hi]
  rw [codeRound, if_pos hmore, hstep, plain_bind, ← noteInstruction_eq h user]
  rfl

omit h in
/-- Where nothing lies ahead, nothing is decoded and nothing noted. -/
theorem rounds_code_at_end {lambdas : Bool} {cur : Cursor} (hahead : cur.ahead = []) (fuel : Nat)
    (found : Array Reference) :
    rounds (fun p _ => p.left) (codeRound lambdas c user) (.ofCursor cur) found =
      plain (Discovery.noteItems lambdas c user (Walk.itemsOnto fuel #[] ⟨cur, false⟩).toList)
        found := by
  have hend : ¬ cur.pos < cur.data.length := by
    rw [← cur.size_eq, ← Walk.pos_eq_size_iff.mpr hahead]
    exact Nat.lt_irrefl _
  -- the first round sees the end
  have hround : codeRound lambdas c user (.ofCursor cur) found = .ok (.inr ()) found := by
    rw [codeRound]
    exact congrFun (if_neg hend) found
  have hitems : (Walk.itemsOnto fuel #[] ⟨cur, false⟩).toList = [] := by
    cases fuel with
    | zero => rfl
    | succ fuel => rw [Walk.itemsOnto, Walk.next?_of_end hahead]
  rw [rounds_done hround, hitems]
  rfl

/-- Decoding and noting in turn comes to noting what a walk yields. -/
theorem rounds_code {lambdas : Bool} {fuel : Nat} {cur : Cursor} (hword : cur.size < wordLimit)
    (hfuel : cur.left ≤ fuel) (found : Array Reference) :
    rounds (fun p _ => p.left) (codeRound lambdas c user) (.ofCursor cur) found =
      plain (Discovery.noteItems lambdas c user (Walk.itemsOnto fuel #[] ⟨cur, false⟩).toList)
        found := by
  -- every instruction takes a byte at least, so what lies ahead gets shorter
  induction fuel generalizing cur found with
  | zero =>
    refine rounds_code_at_end user ?_ 0 found
    rw [← List.length_eq_zero_iff, cur.length_ahead]
    omega
  | succ fuel ih =>
    by_cases hahead : cur.ahead = []
    · exact rounds_code_at_end user hahead _ found
    have hmore : (Parser.ofCursor cur).position < (Parser.ofCursor cur).data.length := by
      have hne : cur.pos ≠ cur.size := fun hend => hahead (Walk.pos_eq_size_iff.mp hend)
      have hle := cur.pos_le
      rw [length_data]
      exact Nat.lt_of_le_of_ne hle hne
    have hdecode := implements_decodeInstruction cur
    generalize hparse : decodeInstruction (.ofCursor cur) = x at hdecode
    generalize hread : Instruction.read cur = y at hdecode
    cases hdecode with
    | tooLong long => exact absurd long (Nat.not_le_of_lt hword)
    | @fault f p d =>
      have hround : codeRound lambdas c user (.ofCursor cur) found = .error (.fault f) found := by
        rw [codeRound, if_pos hmore, Parsing.step, hparse]
        rfl
      rw [rounds_halt hround, Walk.items_of_next (Walk.next?_of_fault hread hahead)]
      rfl
    | @value i d data onward holds =>
      rw [Walk.items_of_next (Walk.next?_of_read hread hahead)]
      show _ = plain (Discovery.noteInstruction lambdas c user i >>= fun _ => _) found
      rw [plain_bind]
      have hround := congrFun (codeRound_of_ok h user lambdas hmore hparse) found
      rw [plain_bind] at hround
      obtain ⟨bs, hlaid, hpasses⟩ := Instruction.read_eq_ok.mp hread
      have hpos := hlaid.length_pos
      have hleft := hpasses.left
      cases hnote : Discovery.noteInstruction lambdas c user i found with
      | error f more =>
        rw [bind_of_error _ (plain_of_error hnote)] at hround ⊢
        rw [rounds_halt hround]
      | ok u more =>
        rw [bind_of_ok _ (plain_of_ok hnote)] at hround ⊢
        have hless : (Parser.ofCursor d).left < (Parser.ofCursor cur).left := by
          rw [left_ofCursor, left_ofCursor]
          omega
        rw [rounds_next hround hless]
        exact ih (size_eq_of_data data ▸ hword) (by omega) more

/-- Code that fits a word is walked to its end, and each item is noted. -/
theorem noteCode_eq (lambdas : Bool) {code : Bytes} (hcode : code.length < wordLimit) :
    noteCode lambdas c user code =
      plain (Discovery.noteItems lambdas c user (Walk.items code).toList) := by
  funext found
  have hsize : (Cursor.ofBytes code).size < wordLimit := hcode
  exact rounds_code h user hsize (Nat.le_refl _) found

omit user in
theorem visitField_eq (owner : String) (f : Field) :
    visitField c owner f = plain (Discovery.visitField c owner f) := by
  rw [visitField, Discovery.visitField, plain_bind, plain_ofExcept]
  refine check_bind_congr fun m hm => noteFieldType_eq ?_
  obtain ⟨-, -, htext⟩ := Discovery.member_eq_ok.mp hm
  exact h.pool _ _ htext

omit user in
theorem visitMethod_eq (lambdas : Bool) (owner : String) {m : Method} (hm : m ∈ c.methods) :
    visitMethod lambdas c owner m = plain (Discovery.visitMethod lambdas c owner m) := by
  rw [visitMethod, Discovery.visitMethod, plain_bind, plain_ofExcept]
  refine check_bind_congr fun declared hdeclared => ?_
  obtain ⟨-, -, htext⟩ := Discovery.member_eq_ok.mp hdeclared
  simp only
  rw [plain_bind, noteMethodType_eq (h.pool _ _ htext)]
  congr 1
  funext _
  cases hcode : m.code with
  | none => rfl
  | some code => exact noteCode_eq h _ lambdas (h.code m hm code hcode)

end Classes

theorem visitAll_eq {α : Type} {visit : α → Visit Unit} {discover : α → Discovery Unit}
    {as : List α} (h : ∀ a ∈ as, visit a = plain (discover a)) :
    visitAll visit as = plain (Discovery.visitAll discover as) := by
  induction as with
  | nil => rfl
  | cons a as ih =>
    rw [visitAll, Discovery.visitAll, plain_bind, h a List.mem_cons_self,
      ih fun b hb => h b (List.mem_cons_of_mem a hb)]

/-- A measured class is visited as it is defined to be. -/
theorem visitClass_eq {c : ClassFile} (h : c.Measured) (lambdas : Bool) :
    visitClass lambdas c = plain (Discovery.visitClass lambdas c) := by
  rw [visitClass, Discovery.visitClass, plain_bind, plain_ofExcept]
  congr 1
  funext owner
  rw [plain_bind, visitAll_eq fun f _ => visitField_eq h owner f,
    visitAll_eq fun m hm => visitMethod_eq h lambdas owner (Array.mem_toList_iff.mp hm)]

-- ---------------------------------------------------------------------------
-- Ingestion
-- ---------------------------------------------------------------------------

/-- Adding a reference never counts down. -/
theorem count_le_addReference (i : Index) (r : Reference) :
    i.count ≤ (i.addReference r).count := by
  unfold Index.addReference Index.add
  split
  · exact Nat.le_succ _
  · exact Nat.le_refl _

/-- Filing references does not count down, so that what is filed can be counted. -/
theorem fileAll_eq_ok (i : Index) (found : Array Reference) :
    fileAll i found = .ok (found.foldl Index.addReference i) := by
  have hcount : i.count ≤ (found.foldl Index.addReference i).count := by
    rw [← Array.foldl_toList]
    generalize found.toList = rs
    induction rs generalizing i with
    | nil => exact Nat.le_refl _
    | cons r rs ih => exact Nat.le_trans (count_le_addReference i r) (ih _)
  rw [fileAll, sub_eq_ok hcount]
  rfl

/-- A file that is no class leaves the index as it is. -/
theorem ingest_of_fault (i : Index) {bytes : Bytes} {f : Fault}
    (hparse : parseClass.run bytes = .error (.fault f)) : ingest i bytes = .ok (i, some f) := by
  rw [ingest, hparse]
  simp only
  rw [fileAll_eq_ok]
  rfl

/-- A class adds what is found in it, up to its fault. -/
theorem ingest_of_class (i : Index) {bytes : Bytes} {c : ClassFile} (h : c.Measured)
    (hparse : parseClass.run bytes = .ok c) :
    ingest i bytes =
      .ok (i.addFindings (Findings.ofClass i.config.lambdas c),
        (Findings.ofClass i.config.lambdas c).fault) := by
  rw [ingest, hparse]
  simp only
  rw [visitClass_eq h, Findings.ofClass]
  -- what has been found is filed, with or without a fault
  cases hvisit : Discovery.visitClass i.config.lambdas c #[] with
  | ok _ found =>
    rw [plain_of_ok hvisit]
    simp only
    rw [fileAll_eq_ok]
    rfl
  | error f found =>
    rw [plain_of_error hvisit]
    simp only
    rw [fileAll_eq_ok]
    rfl

/-- Ingestion always returns, whatever the bytes and whatever the index: no
partial operation is applied outside its domain, and no loop gets stuck. What
it returns is what `Index.ingest` says, for all data that a machine can hold. -/
theorem ingest_eq_ok (i : Index) (bytes : Bytes) :
    (∃ outcome, ingest i bytes = .ok outcome) ∧
      (bytes.length < wordLimit → ingest i bytes = .ok (i.ingest bytes)) := by
  have hparse := implements_parseClass (Cursor.ofBytes bytes)
  change Agrees _ _ (parseClass (.new bytes)) _ at hparse
  unfold Index.ingest Findings.ofBytes ClassFile.ofBytes Reader.run
  generalize hm : parseClass (.new bytes) = x at hparse
  generalize ClassFile.read (Cursor.ofBytes bytes) = y at hparse
  -- a class, a fault, or more bytes than a word can count
  cases hparse with
  | value data onward holds =>
    have hingest := ingest_of_class i holds (Parsing.run_of_ok hm)
    exact ⟨⟨_, hingest⟩, fun _ => hingest⟩
  | fault =>
    have hingest := ingest_of_fault i (Parsing.run_of_error hm)
    exact ⟨⟨_, hingest⟩, fun _ => hingest⟩
  | tooLong long =>
    have hingest := ingest_of_fault i (Parsing.run_of_error hm)
    exact ⟨⟨_, hingest⟩, fun hword => absurd long (Nat.not_le_of_lt hword)⟩

/-- The sample is ingested to the end. -/
theorem ingest_sampleBytes :
    Findings.sampleBytes.length < wordLimit ∧
      ∃ i, ingest (.empty ⟨.unfiltered, true⟩) Findings.sampleBytes = .ok (i, none) := by
  have hword : Findings.sampleBytes.length < wordLimit := by decide +kernel
  have hend : ((Index.empty ⟨.unfiltered, true⟩).ingest Findings.sampleBytes).2 = none := by
    decide +kernel
  have hingest := (ingest_eq_ok (.empty ⟨.unfiltered, true⟩) Findings.sampleBytes).2 hword
  generalize (Index.empty ⟨.unfiltered, true⟩).ingest Findings.sampleBytes = outcome at hend hingest
  obtain ⟨i, fault⟩ := outcome
  obtain rfl : fault = none := hend
  exact ⟨hword, i, hingest⟩

end Backref.Machine
