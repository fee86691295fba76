import Backref.Proofs.Assembly.Pool

/-!
# What an emission writes

Running an emission only ever adds to the pool and to the bootstrap methods,
and appends the bytes of one instruction to the code; one that fails appends
nothing. What its operand stands for is said of every class that *covers* the
state it leaves, that is, has its constants and its bootstrap methods: so it
still holds of the class that is written in the end.

Main results:

* `Encoder.Prepares.emits` — an operand is prepared, then an instruction is appended;
* `Encoder.emits_run` — the bytes of an emission, and what they stand for.
-/

namespace Backref

open FixedWidth

/-- What one pool and one table of bootstrap methods hold, others hold in the
same places. -/
structure Extends (pool : ConstantPool) (rows : Array BootstrapMethod) (pool' : ConstantPool)
    (rows' : Array BootstrapMethod) : Prop where
  pool : pool.Within pool'
  rows : rows.toList <+: rows'.toList

namespace Extends

variable {pool pool' pool'' : ConstantPool} {rows rows' rows'' : Array BootstrapMethod}

theorem refl (pool : ConstantPool) (rows : Array BootstrapMethod) : Extends pool rows pool rows :=
  ⟨.refl _, List.prefix_refl _⟩

theorem trans (h : Extends pool rows pool' rows') (h' : Extends pool' rows' pool'' rows'') :
    Extends pool rows pool'' rows'' :=
  ⟨h.pool.trans h'.pool, h.rows.trans h'.rows⟩

/-- What stands at some place of a table stands there in the grown one. -/
theorem row (h : Extends pool rows pool' rows') {row : BootstrapMethod} {number : Nat}
    (hrow : rows[number]? = some row) : rows'[number]? = some row := by
  obtain ⟨more, hmore⟩ := h.rows
  rw [← Array.getElem?_toList] at hrow ⊢
  have hlt : number < rows.toList.length := (List.getElem?_eq_some_iff.mp hrow).1
  rw [← hmore, List.getElem?_append_left hlt]
  exact hrow

end Extends

/-- A class has the constants of a pool under their indices, and the bootstrap
methods of a table under their numbers. -/
abbrev ClassFile.Covers (c : ClassFile) (pool : ConstantPool)
    (rows : Array BootstrapMethod) : Prop :=
  Extends pool rows c.pool c.bootstrapMethods

-- ---------------------------------------------------------------------------
-- Instructions by what they stand for
-- ---------------------------------------------------------------------------

/-- The bytes that load a constant, in the short form where the index allows it. -/
def loadBytes (index : UInt16) : Bytes :=
  if index ≤ 255 then [Opcode.ldc, index.toUInt8] else Opcode.ldcWide :: encode index

/-- The bytes of a dynamic call, whose call site has a bootstrap method with a
handle and static arguments. -/
def WritesCallSite (c : ClassFile) (bytes : Bytes) (name descriptor : String)
    (bootstrap : HandleSpec) (arguments : List StaticArgument) : Prop :=
  ∃ index number row,
    bytes = Opcode.invokeDynamic :: (encode (index : UInt16) ++ [0, 0]) ∧
    c.pool.NamesCallSite index ⟨number, name, descriptor⟩ ∧
    c.bootstrapMethods[number.toNat]? = some row ∧
    c.pool.NamesHandle row.handle bootstrap.target ∧
    List.Forall₂ (fun a i => a.NamedAt c.pool i) arguments row.arguments.toList

namespace Emission

/-- The bytes of an emission in a class, with what their index stands for. -/
def Writes (c : ClassFile) (bytes : Bytes) : Emission → Prop
  | raw opcode operands => bytes = opcode :: operands
  | field opcode m => ∃ index, c.pool.NamesMember index ⟨m, .field⟩ ∧
      bytes = opcode :: encode (index : UInt16)
  | method opcode m =>
    if opcode = Opcode.invokeInterface then
      ∃ slots, MethodType.argumentSlots m.descriptor = .ok slots ∧
        ∃ index, c.pool.NamesMember index ⟨m, .interfaceMethod⟩ ∧
          bytes = opcode :: (encode (index : UInt16) ++ [UInt8.ofNat (slots + 1), 0])
    else ∃ index, c.pool.NamesMember index ⟨m, .method⟩ ∧
      bytes = opcode :: encode (index : UInt16)
  | ofClass opcode name => ∃ index, c.pool.NamesClass index name ∧
      bytes = opcode :: encode (index : UInt16)
  | loadClass name => ∃ index, c.pool.NamesClass index name ∧ bytes = loadBytes index
  | loadString text => ∃ index, (∃ j, c.pool.Holds index (.string j) ∧
      c.pool.NamesText j text) ∧ bytes = loadBytes index
  | loadInt value => ∃ index, c.pool.Holds index (.integer value) ∧ bytes = loadBytes index
  | callSite name descriptor bootstrap arguments =>
    WritesCallSite c bytes name descriptor bootstrap arguments
  | lambda l =>
    WritesCallSite c bytes l.name l.descriptor (LambdaSpec.bootstrap Lambda.plain) l.arguments
  | flaggedLambda l flags =>
    WritesCallSite c bytes l.name l.descriptor (LambdaSpec.bootstrap Lambda.flagged)
      (l.arguments ++ [.int flags])
  | maxStack _ | maxLocals _ | mark => bytes = []

end Emission

namespace Encoder

/-- The constants and the bootstrap methods of a state are still there later. -/
abbrev Grows (s s' : Encoder) : Prop :=
  Extends s.pool.pool s.bootstraps s'.pool.pool s'.bootstraps

/-- Only the pool and the bootstrap methods have grown. -/
structure Prepared (s s' : Encoder) : Prop where
  grows : s.Grows s'
  code : s'.code = s.code
  marks : s'.marks = s.marks
  maxStack : s'.maxStack = s.maxStack
  maxLocals : s'.maxLocals = s.maxLocals

theorem Prepared.refl (s : Encoder) : s.Prepared s := ⟨.refl _ _, rfl, rfl, rfl, rfl⟩

/-- Steps that prepare an operand can be taken one after the other. -/
theorem Prepared.trans {s t u : Encoder} (hst : s.Prepared t) (htu : t.Prepared u) :
    s.Prepared u :=
  ⟨hst.grows.trans htu.grows, htu.code.trans hst.code, htu.marks.trans hst.marks,
    htu.maxStack.trans hst.maxStack, htu.maxLocals.trans hst.maxLocals⟩

-- ---------------------------------------------------------------------------
-- Preparing an operand
-- ---------------------------------------------------------------------------

/-- A computation prepares an answer: it only adds to the pool and to the
bootstrap methods, whether it succeeds or not, and what it answers is as a
predicate says in every class that covers the state it leaves. -/
def Prepares {α : Type} (x : Encoding α) (Q : ClassFile → α → Prop) : Prop :=
  ∀ s : Encoder, s.pool.Sound → match x s with
    | .ok a s' => s'.pool.Sound ∧ s.Prepared s' ∧
        ∀ c : ClassFile, c.Covers s'.pool.pool s'.bootstraps → Q c a
    | .error _ s' => s'.pool.Sound ∧ s.Prepared s'

namespace Prepares

variable {α : Type} {x : Encoding α} {Q : ClassFile → α → Prop}

/-- A request to the pool prepares what it finds, in any class that covers the pool. -/
theorem onPool {P : ConstantPool → α → Prop} {x : Interning α} (hx : PoolBuilder.Interns x P)
    (hmono : ∀ {pool larger a}, P pool a → pool.Within larger → P larger a) :
    Prepares (onPool x) fun c a => P c.pool a := by
  rintro ⟨pool, rows, marks, code, maxStack, maxLocals⟩ hs
  have hx := hx pool hs
  unfold Encoder.onPool
  simp only
  -- a request that fails may have put in some of its parts
  cases hresult : x pool with
  | ok a pool' =>
    rw [hresult] at hx
    exact ⟨hx.1, ⟨⟨hx.2.1, List.prefix_refl _⟩, rfl, rfl, rfl, rfl⟩,
      fun c hc => hmono hx.2.2 hc.pool⟩
  | error fault pool' =>
    rw [hresult] at hx
    exact ⟨hx.1, ⟨hx.2, List.prefix_refl _⟩, rfl, rfl, rfl, rfl⟩

theorem ofExcept (v : Except Fault α) :
    Prepares (MonadExcept.ofExcept v) fun _ a => v = .ok a := by
  intro s hs
  cases v with
  | ok a => exact ⟨hs, .refl s, fun _ _ => rfl⟩
  | error fault => exact ⟨hs, .refl s⟩

end Prepares

/-- A bootstrap method is found where it is, or goes behind the others if it
is new. Giving it a number never fails. -/
theorem exists_bootstrapNumber (row : BootstrapMethod) (s : Encoder) :
    ∃ number t, bootstrapNumber row s = .ok number t ∧
      ((s.bootstraps[number]? = some row ∧ t = s) ∨
        (row ∉ s.bootstraps ∧ number = s.bootstraps.size ∧
          t = { s with bootstraps := s.bootstraps.push row })) := by
  unfold bootstrapNumber
  simp only
  -- the row is there already or becomes the last one
  cases hfound : s.bootstraps.idxOf? row with
  | some number =>
    rw [Array.idxOf?_eq_map_finIdxOf?_val] at hfound
    obtain ⟨place, hplace, rfl⟩ := Option.map_eq_some_iff.mp hfound
    have hrow : s.bootstraps[place] = row := (Array.finIdxOf?_eq_some_iff.mp hplace).1
    refine ⟨_, _, rfl, .inl ⟨?_, rfl⟩⟩
    rw [Array.getElem?_eq_getElem place.isLt]
    exact congrArg some hrow
  | none => exact ⟨_, _, rfl, .inr ⟨Array.idxOf?_eq_none_iff.mp hfound, rfl, rfl⟩⟩

/-- The number that a bootstrap method is given is its place in the table. -/
theorem prepares_bootstrapNumber (row : BootstrapMethod) :
    Prepares (bootstrapNumber row) fun c number => c.bootstrapMethods[number]? = some row := by
  intro s hs
  obtain ⟨number, t, hrun, hrows⟩ := exists_bootstrapNumber row s
  rw [hrun]
  rcases hrows with ⟨hrow, rfl⟩ | ⟨-, rfl, rfl⟩
  · exact ⟨hs, .refl _, fun c hc => hc.row hrow⟩
  · have hrow : (s.bootstraps.push row)[s.bootstraps.size]? = some row := by simp
    have hprefix : s.bootstraps.toList <+: (s.bootstraps.push row).toList := by
      rw [Array.toList_push]
      exact List.prefix_append _ _
    exact ⟨hs, ⟨⟨.refl _, hprefix⟩, rfl, rfl, rfl, rfl⟩, fun c hc => hc.row hrow⟩

-- ---------------------------------------------------------------------------
-- Appending an instruction
-- ---------------------------------------------------------------------------

/-- A computation emits bytes: if it succeeds it appends bytes that are as a
predicate says in every class that covers the state it leaves, and otherwise
it appends nothing. -/
def Emits (x : Encoding Unit) (P : ClassFile → Bytes → Prop) : Prop :=
  ∀ s : Encoder, s.pool.Sound → match x s with
    | .ok _ s' => s'.pool.Sound ∧ s.Grows s' ∧ ∃ bytes : Bytes,
        s'.code.toList = s.code.toList ++ bytes ∧
        ∀ c : ClassFile, c.Covers s'.pool.pool s'.bootstraps → P c bytes
    | .error _ s' => s'.pool.Sound ∧ s.Prepared s'

theorem emits_append (opcode : UInt8) (operands : Bytes) :
    Emits (append opcode operands) fun _ bytes => bytes = opcode :: operands := by
  rintro ⟨pool, rows, marks, code, maxStack, maxLocals⟩ hs
  unfold append
  simp only
  split
  · rename_i hok
    split at hok
    · cases hok
      exact ⟨hs, ⟨.refl _, List.prefix_refl _⟩, opcode :: operands, by simp, fun _ _ => rfl⟩
    · cases hok
  · rename_i herror
    split at herror
    · cases herror
    · cases herror
      exact ⟨hs, .refl _⟩

theorem Emits.imp {x : Encoding Unit} {P Q : ClassFile → Bytes → Prop} (h : Emits x P)
    (himp : ∀ c bytes, P c bytes → Q c bytes) : Emits x Q := by
  intro s hs
  have hx := h s hs
  cases hresult : x s with
  | ok a s' =>
    rw [hresult] at hx
    obtain ⟨hs', hgrows, bytes, hcode, hP⟩ := hx
    exact ⟨hs', hgrows, bytes, hcode, fun c hc => himp c bytes (hP c hc)⟩
  | error fault s' =>
    rw [hresult] at hx
    exact hx

/-- What a successful computation leaves behind. -/
theorem Emits.of_ok {x : Encoding Unit} {P : ClassFile → Bytes → Prop} {s s' : Encoder}
    (h : Emits x P) (hs : s.pool.Sound) (hok : x s = .ok () s') :
    s'.pool.Sound ∧ s.Grows s' ∧ ∃ bytes, s'.code.toList = s.code.toList ++ bytes ∧
      ∀ c : ClassFile, c.Covers s'.pool.pool s'.bootstraps → P c bytes := by
  have hx := h s hs
  rw [hok] at hx
  exact hx

/-- An operand is prepared, then an instruction is appended. -/
theorem Prepares.emits {α : Type} {x : Encoding α} {f : α → Encoding Unit}
    {Q : ClassFile → α → Prop} {P : α → ClassFile → Bytes → Prop} (hx : Prepares x Q)
    (hf : ∀ a, Emits (f a) (P a)) :
    Emits (x >>= f) fun c bytes => ∃ a, Q c a ∧ P a c bytes := by
  intro s hs
  have hx := hx s hs
  show match EStateM.bind x f s with
    | .ok _ _ => _
    | .error _ _ => _
  unfold EStateM.bind
  -- the operand may not be prepared, and the instruction may not fit behind it
  cases hresult : x s with
  | error fault s₁ =>
    rw [hresult] at hx
    exact hx
  | ok a s₁ =>
    rw [hresult] at hx
    obtain ⟨hs₁, hprepared, hQ⟩ := hx
    have hfa := hf a s₁ hs₁
    simp only
    cases hnext : f a s₁ with
    | error fault s₂ =>
      rw [hnext] at hfa
      exact ⟨hfa.1, hprepared.trans hfa.2⟩
    | ok u s₂ =>
      rw [hnext] at hfa
      obtain ⟨hs₂, hgrows, bytes, hcode, hP⟩ := hfa
      refine ⟨hs₂, hprepared.grows.trans hgrows, bytes, ?_, fun c hc => ⟨a, ?_, hP c hc⟩⟩
      · -- preparing the operand left the code alone
        rw [hcode, hprepared.code]
      · exact hQ c (hgrows.trans hc)

theorem Emits.throw {fault : Fault} {P : ClassFile → Bytes → Prop} : Emits (throw fault) P :=
  fun s hs => ⟨hs, .refl s⟩

/-- What changes neither the code nor the constants emits nothing. -/
theorem Emits.modify {f : Encoder → Encoder} (hpool : ∀ s, (f s).pool = s.pool)
    (hrows : ∀ s, (f s).bootstraps = s.bootstraps) (hcode : ∀ s, (f s).code = s.code) :
    Emits (modify f) fun _ bytes => bytes = [] := by
  intro s hs
  have hwithin : s.pool.pool.Within (f s).pool.pool := (hpool s).symm ▸ .refl _
  have hprefix : s.bootstraps.toList <+: (f s).bootstraps.toList :=
    (hrows s).symm ▸ List.prefix_refl _
  refine ⟨?_, ⟨hwithin, hprefix⟩, [], ?_, fun _ _ => rfl⟩
  · rw [hpool]
    exact hs
  · rw [hcode, List.append_nil]

-- ---------------------------------------------------------------------------
-- Emissions
-- ---------------------------------------------------------------------------

/-- Appending a load emits it in the shorter form that holds its index. -/
theorem emits_appendLoad (index : UInt16) :
    Emits (appendLoad index) fun _ bytes => bytes = loadBytes index := by
  unfold appendLoad loadBytes
  split
  · exact emits_append _ _
  · exact emits_append _ _

/-- Counting in 16 bits does not change the lowest byte. -/
theorem toUInt8_count (slots : Nat) :
    (UInt16.ofNat slots + 1).toUInt8 = UInt8.ofNat (slots + 1) := by
  rw [← UInt16.ofNat_one, ← UInt16.ofNat_add, UInt16.toUInt8_ofNat']

/-- An interface call that is emitted carries its member and the count of its slots. -/
theorem emits_appendInterfaceCall (m : Member) :
    Emits (appendInterfaceCall m) fun c bytes => ∃ slots,
      MethodType.argumentSlots m.descriptor = .ok slots ∧
      ∃ index, c.pool.NamesMember index ⟨m, .interfaceMethod⟩ ∧
        bytes = Opcode.invokeInterface ::
          (encode (index : UInt16) ++ [UInt8.ofNat (slots + 1), 0]) := by
  refine (Prepares.ofExcept _).emits fun slots => ?_
  rw [← toUInt8_count]
  -- the slots of the arguments and of the receiver have to fit a byte
  show Emits (if UInt16.ofNat slots + 1 ≤ 255 then _ else _) _
  split
  · exact (Prepares.onPool (PoolBuilder.interns_memberRef .interfaceMethod m)
      ConstantPool.NamesMember.mono).emits fun index => emits_append _ _
  · exact .throw

/-- A call site that is emitted is in the pool, and its row is in the table. -/
theorem emits_appendCallSite (name descriptor : String) (bootstrap : HandleSpec)
    (arguments : List StaticArgument) :
    Emits (appendCallSite name descriptor bootstrap arguments) fun c bytes =>
      WritesCallSite c bytes name descriptor bootstrap arguments := by
  -- once the row is numbered, the site is put in the pool and called
  have hsite : ∀ number : Nat, Emits (if number ≤ countLimit then do
      let index ← onPool (PoolBuilder.invokeDynamic (UInt16.ofNat number) name descriptor)
      append Opcode.invokeDynamic (encode index ++ [0, 0])
    else throw (.malformed .tooManyBootstrapMethods)) fun c bytes => number ≤ countLimit ∧
      ∃ index, c.pool.NamesCallSite index ⟨UInt16.ofNat number, name, descriptor⟩ ∧
        bytes = Opcode.invokeDynamic :: (encode (index : UInt16) ++ [0, 0]) := by
    intro number
    split
    · rename_i hnumber
      exact ((Prepares.onPool (PoolBuilder.interns_invokeDynamic _ name descriptor)
        ConstantPool.NamesCallSite.mono).emits fun index => emits_append _ _).imp
        fun _ _ h => ⟨hnumber, h⟩
    · exact .throw
  have hhandle := Prepares.onPool bootstrap.interns ConstantPool.NamesHandle.mono
  have harguments := Prepares.onPool (StaticArgument.interns_internAll arguments)
    fun his hw => his.imp fun _ _ h => h.mono hw
  refine (hhandle.emits fun handle => harguments.emits fun is =>
    (prepares_bootstrapNumber ⟨handle, is⟩).emits hsite).imp ?_
  rintro c bytes ⟨handle, hhandle, is, his, number, hrow, hnumber, index, hindex, hbytes⟩
  refine ⟨index, UInt16.ofNat number, ⟨handle, is⟩, hbytes, hindex, ?_, hhandle, his⟩
  rw [toNat_ofNat_count hnumber]
  exact hrow

/-- An emission writes the bytes of its instruction. -/
theorem emits_run (e : Emission) : Emits e.run fun c bytes => e.Writes c bytes := by
  cases e with
  | raw opcode operands => exact emits_append opcode operands
  | field opcode m =>
    exact (Prepares.onPool (PoolBuilder.interns_memberRef .field m)
      ConstantPool.NamesMember.mono).emits fun index => emits_append _ _
  | method opcode m =>
    unfold Emission.run Emission.Writes
    -- a call through an interface has an encoding of its own
    by_cases hinterface : opcode = Opcode.invokeInterface
    · simp only [if_pos hinterface]
      rw [hinterface]
      exact emits_appendInterfaceCall m
    · simp only [if_neg hinterface]
      exact (Prepares.onPool (PoolBuilder.interns_memberRef .method m)
        ConstantPool.NamesMember.mono).emits fun index => emits_append _ _
  | ofClass opcode name =>
    exact (Prepares.onPool (PoolBuilder.interns_classInfo name)
      ConstantPool.NamesClass.mono).emits fun index => emits_append _ _
  | loadClass name =>
    exact (Prepares.onPool (PoolBuilder.interns_classInfo name)
      ConstantPool.NamesClass.mono).emits emits_appendLoad
  | loadString text =>
    exact (Prepares.onPool (PoolBuilder.interns_string text)
      fun ⟨j, hi, hj⟩ hw => ⟨j, hw _ _ hi, hj.mono hw⟩).emits emits_appendLoad
  | loadInt value =>
    exact (Prepares.onPool (PoolBuilder.interns_integer value)
      fun hi hw => hw _ _ hi).emits emits_appendLoad
  | callSite name descriptor bootstrap arguments =>
    exact emits_appendCallSite name descriptor bootstrap arguments
  | lambda l => exact emits_appendCallSite _ _ _ _
  | flaggedLambda l flags => exact emits_appendCallSite _ _ _ _
  -- these three touch neither the code nor the pool
  | maxStack slots => exact .modify (fun _ => rfl) (fun _ => rfl) (fun _ => rfl)
  | maxLocals slots => exact .modify (fun _ => rfl) (fun _ => rfl) (fun _ => rfl)
  | mark => exact .modify (fun _ => rfl) (fun _ => rfl) (fun _ => rfl)

end Encoder

end Backref
