import Backref.ClassFile.Read
import Backref.Proofs.Constant.Links
import Backref.Proofs.Machine.Text

/-!
# Class files with partial operations

A class file is parsed like it is read, part by part. The bodies of the two
attributes that are kept are data of their own, and they are short: a 32-bit
count says how long they are.

Main results:

* `implements_readPool` — the loop over a pool gets further with each constant;
* `implements_parseClass` — a class file is parsed as it is read, with texts
  and bodies of methods that a word measures by far (`ClassFile.Measured`).
-/

namespace Backref

-- ---------------------------------------------------------------------------
-- What a word measures
-- ---------------------------------------------------------------------------

/-- The text of a constant is short. -/
def Constant.Short (c : Constant) : Prop :=
  ∀ text, c = .utf8 text → text.toList.length ≤ countLimit

/-- The texts of a pool are short. -/
def ConstantPool.Short (pool : ConstantPool) : Prop :=
  ∀ i text, pool.NamesText i text → text.toList.length ≤ countLimit

/-- The texts and the bodies of methods in a class file can be measured by a word. -/
structure ClassFile.Measured (c : ClassFile) : Prop where
  pool : c.pool.Short
  code : ∀ m ∈ c.methods, ∀ code, m.code = some code → code.bytes.length < Machine.wordLimit

namespace Machine

open Parsing

-- ---------------------------------------------------------------------------
-- The pool
-- ---------------------------------------------------------------------------

/-- Reads the parts of a constant of a given kind. -/
def readParts : Constant.Kind → Parsing Constant
  | .utf8 => do return .utf8 (← readText (← readInt UInt16).toNat)
  | .integer => do return .integer (← readInt Int32)
  | .float => do return .float (← readInt UInt32)
  | .long => do return .long (← readInt Int64)
  | .double => do return .double (← readInt UInt64)
  | .classInfo => do return .classInfo (← readInt UInt16)
  | .string => do return .string (← readInt UInt16)
  | .fieldRef => do return .memberRef .field (← readInt UInt16) (← readInt UInt16)
  | .methodRef => do return .memberRef .method (← readInt UInt16) (← readInt UInt16)
  | .interfaceMethodRef => do
    return .memberRef .interfaceMethod (← readInt UInt16) (← readInt UInt16)
  | .nameAndType => do return .nameAndType (← readInt UInt16) (← readInt UInt16)
  | .methodHandle => do return .methodHandle (← readInt UInt8) (← readInt UInt16)
  | .methodType => do return .methodType (← readInt UInt16)
  | .dynamic => do return .dynamic (← readInt UInt16) (← readInt UInt16)
  | .invokeDynamic => do return .invokeDynamic (← readInt UInt16) (← readInt UInt16)
  | .moduleInfo => do return .moduleInfo (← readInt UInt16)
  | .packageInfo => do return .packageInfo (← readInt UInt16)

/-- Reads the constant that stands at an index of the pool. -/
def readConstant (index : Nat) : Parsing Constant := do
  let tag ← readInt UInt8
  match Constant.Kind.ofTag? tag with
  | none => malformed (.constantTag tag index)
  | some kind => readParts kind

/-- One round of reading a pool of `count` slots: a constant, and the slot
behind a wide one. -/
def poolRound (count : Nat) (slots : Array (Option Constant)) :
    Parsing (Array (Option Constant) ⊕ Array (Option Constant)) := do
  if slots.size < count then
    let constant ← readConstant slots.size
    if constant.kind.isWide then
      if count ≤ slots.size + 1 then malformed (.widePastEnd slots.size)
      else return .inl ((slots.push (some constant)).push none)
    else
      return .inl (slots.push (some constant))
  else
    return .inr slots

/-- Reads slots until there are `count` of them. -/
def readSlots (count : Nat) : Array (Option Constant) → Parsing (Array (Option Constant)) :=
  rounds (fun slots _ => count - slots.size) (poolRound count)

/-- Reads a pool. -/
def readPool : Parsing ConstantPool := do
  let count ← readInt UInt16
  if count = 0 then
    malformed .emptyPool
  else
    return ⟨← readSlots count.toNat #[none]⟩

/-- An integer is turned into something that has a property in any case. -/
theorem implements_one {α β : Type} [FixedWidth α] {f : α → β} {P : β → Prop} (h : ∀ a, P (f a)) :
    Implements (do return f (← readInt α)) (do return f (← Reader.int α)) P :=
  .bind (implements_readInt α) fun a _ => .pure (h a)

theorem implements_two {α β γ : Type} [FixedWidth α] [FixedWidth β] {f : α → β → γ}
    {P : γ → Prop} (h : ∀ a b, P (f a b)) :
    Implements (do return f (← readInt α) (← readInt β))
      (do return f (← Reader.int α) (← Reader.int β)) P :=
  .bind (implements_readInt α) fun a _ => .bind (implements_readInt β) fun b _ => .pure (h a b)

/-- The parts of a constant are read by its kind. -/
theorem implements_readParts (kind : Constant.Kind) :
    Implements (readParts kind) (Constant.readParts kind) Constant.Short := by
  cases kind with
  | utf8 =>
    refine .bind (implements_readInt UInt16) fun n _ => ?_
    have hn := n.toNat_lt
    -- a length of two bytes fits a word
    have hword : n.toNat < wordLimit := by
      rw [wordLimit, UInt64.size]
      omega
    refine .bind (implements_readText hword) fun text htext => .pure ?_
    rintro _ ⟨⟩
    rw [countLimit]
    omega
  -- no other constant has a text that could be too long
  | integer => exact implements_one fun _ _ h => by cases h
  | float => exact implements_one fun _ _ h => by cases h
  | long => exact implements_one fun _ _ h => by cases h
  | double => exact implements_one fun _ _ h => by cases h
  | classInfo => exact implements_one fun _ _ h => by cases h
  | string => exact implements_one fun _ _ h => by cases h
  | fieldRef => exact implements_two fun _ _ _ h => by cases h
  | methodRef => exact implements_two fun _ _ _ h => by cases h
  | interfaceMethodRef => exact implements_two fun _ _ _ h => by cases h
  | nameAndType => exact implements_two fun _ _ _ h => by cases h
  | methodHandle => exact implements_two fun _ _ _ h => by cases h
  | methodType => exact implements_one fun _ _ h => by cases h
  | dynamic => exact implements_two fun _ _ _ h => by cases h
  | invokeDynamic => exact implements_two fun _ _ _ h => by cases h
  | moduleInfo => exact implements_one fun _ _ h => by cases h
  | packageInfo => exact implements_one fun _ _ h => by cases h

theorem implements_readConstant (index : Nat) :
    Implements (readConstant index) (Constant.read index) Constant.Short := by
  refine .bind (implements_readInt UInt8) fun tag _ => ?_
  cases Constant.Kind.ofTag? tag with
  | none => exact .malformed _
  | some kind => exact implements_readParts kind

/-- A round of a pool that is not the last fills a slot at least. -/
theorem poolRound_grows {count : Nat} {slots more : Array (Option Constant)} {p q : Parser}
    (h : poolRound count slots p = .ok (.inl more) q) :
    count - more.size < count - slots.size := by
  unfold poolRound at h
  -- a round that goes on has pushed a constant, and a wide one pushes an empty slot with it
  split at h
  · obtain ⟨constant, _, _, h⟩ := bind_eq_ok.mp h
    split at h
    · split at h
      · exact absurd h throw_ne_ok
      · obtain ⟨hmore, -⟩ := pure_eq_ok.mp h
        cases hmore
        rw [Array.size_push, Array.size_push]
        omega
    · obtain ⟨hmore, -⟩ := pure_eq_ok.mp h
      cases hmore
      rw [Array.size_push]
      omega
  · obtain ⟨hmore, -⟩ := pure_eq_ok.mp h
    cases hmore

/-- The constants in some slots are short. -/
def ShortSlots (slots : Array (Option Constant)) : Prop :=
  ∀ constant : Constant, some constant ∈ slots → constant.Short

/-- Slots stay short when a short one is pushed. -/
theorem ShortSlots.push {slots : Array (Option Constant)} (h : ShortSlots slots)
    {slot : Option Constant} (hslot : ∀ constant, slot = some constant → constant.Short) :
    ShortSlots (slots.push slot) := by
  intro constant hmem
  rcases Array.mem_push.mp hmem with hmem | heq
  · exact h constant hmem
  · exact hslot constant heq.symm

/-- Slots are read until as many are filled as were missing. -/
theorem implements_readSlots {count missing : Nat} {slots : Array (Option Constant)}
    (hsize : slots.size + missing = count) (hshort : ShortSlots slots) :
    Implements (readSlots count slots) (ConstantPool.readSlots missing slots) ShortSlots := by
  -- a wide constant uses up two slots, so the induction is on the number that is missing
  induction missing using Nat.strongRecOn generalizing slots with
  | _ missing ih =>
    rw [readSlots, rounds_eq_bind poolRound_grows]
    change Implements (poolRound count slots >>= Sum.elim (readSlots count) pure) _ _
    unfold poolRound
    cases missing with
    | zero =>
      rw [if_neg (by omega)]
      exact .pure hshort
    | succ missing =>
      rw [if_pos (by omega), bind_assoc, ConstantPool.readSlots]
      refine .bind (implements_readConstant _) fun constant hconstant => ?_
      have hpushed : ShortSlots (slots.push (some constant)) :=
        hshort.push fun _ h => Option.some.inj h ▸ hconstant
      by_cases hwide : constant.kind.isWide = true
      · simp only [if_pos hwide]
        cases missing with
        | zero =>
          rw [if_pos (by omega)]
          exact .malformed _
        | succ missing =>
          rw [if_neg (by omega)]
          exact ih missing (by omega) (by rw [Array.size_push, Array.size_push]; omega)
            (hpushed.push fun _ h => nomatch h)
      · simp only [if_neg hwide]
        exact ih missing (by omega) (by rw [Array.size_push]; omega) hpushed

/-- A pool is read, and its texts are short. -/
theorem implements_readPool :
    Implements readPool ConstantPool.read ConstantPool.Short := by
  refine .bind (implements_readInt UInt16) fun count _ => .ite (fun _ => .malformed _) fun hne => ?_
  have hpos : count.toNat ≠ 0 := fun h => hne (UInt16.toNat_inj.mp h)
  have hnone : ShortSlots #[none] := fun _ h => by simp at h
  refine .bind (implements_readSlots (by simp; omega) hnone) fun slots hshort => .pure ?_
  intro i text htext
  exact hshort _ (Array.mem_of_getElem? htext) text rfl

-- ---------------------------------------------------------------------------
-- Attributes
-- ---------------------------------------------------------------------------

/-- Passes over an attribute. -/
def skipAttribute : Parsing Unit := do
  advanceBy 2
  advanceBy (← readInt UInt32).toNat

/-- Runs a parsing `n` times for its effect alone. -/
def repeatParse (m : Parsing Unit) : Nat → Parsing Unit
  | 0 => pure ()
  | n + 1 => do m; repeatParse m n

/-- Passes over a list of attributes. -/
def skipAttributes : Parsing Unit := do
  repeatParse skipAttribute (← readInt UInt16).toNat

/-- Reads an attribute: its name and its body. -/
def readAttribute (pool : ConstantPool) : Parsing (String × Bytes) := do
  let nameIndex ← readInt UInt16
  let body ← readBytes (← readInt UInt32).toNat
  let name ← check (total (pool.utf8 nameIndex))
  return (name, body)

/-- Reads an entry of the exception table. -/
def readHandler : Parsing ExceptionHandler := do
  return ⟨← readInt UInt16, ← readInt UInt16, ← readInt UInt16, ← readInt UInt16⟩

/-- Reads the body of a code attribute. -/
def parseCode : Parsing Code := do
  let maxStack ← readInt UInt16
  let maxLocals ← readInt UInt16
  let length ← readInt UInt32
  if length = 0 then
    malformed .emptyCode
  else
    let bytes ← readBytes length.toNat
    let handlers ← table readHandler
    skipAttributes
    if ← hasMoreData then malformed .codeLength else return ⟨maxStack, maxLocals, bytes, handlers⟩

/-- Reads a bootstrap method. -/
def readBootstrapMethod : Parsing BootstrapMethod := do
  return ⟨← readInt UInt16, ← table (readInt UInt16)⟩

/-- Reads the body of a table of bootstrap methods. -/
def parseBootstrapMethods : Parsing (Array BootstrapMethod) := do
  let methods ← table readBootstrapMethod
  if ← hasMoreData then malformed .bootstrapLength else return methods

theorem implements_skipAttributes :
    Implements skipAttributes Code.skipAttributes fun _ => True := by
  refine .bind (implements_readInt UInt16) fun n _ => ?_
  induction n.toNat with
  | zero => exact .pure trivial
  | succ n ih =>
    have hskip : Implements skipAttribute Code.skipAttribute fun _ => True :=
      .bind (implements_advanceBy 2) fun _ _ => .bind (implements_readInt UInt32) fun _ _ =>
        implements_advanceBy _
    exact .bind hskip fun _ _ => ih

/-- An attribute is read, and its body has a length that fits a word. -/
theorem implements_readAttribute (pool : ConstantPool) :
    Implements (readAttribute pool) (ClassFile.readAttribute pool)
      fun entry => entry.2.length < wordLimit := by
  refine .bind (implements_readInt UInt16) fun nameIndex _ => ?_
  refine .bind (implements_readInt UInt32) fun length _ => ?_
  refine .bind (implements_readBytes _) fun body hbody => ?_
  have hlength := length.toNat_lt
  cases pool.utf8 nameIndex with
  | error f => exact .throw f
  | ok name =>
    refine .pure ?_
    rw [hbody, wordLimit, UInt64.size]
    omega

/-- A body is data of its own. -/
theorem Implements.readBody {α : Type} {m : Parsing α} {r : Reader α} {P : α → Prop}
    (h : Implements m r P) {body : Bytes} (hbody : body.length < wordLimit) :
    Implements (check (m.run body)) (ClassFile.readBody r body) P := by
  obtain ⟨hrun, hvalue⟩ := h.run hbody
  rw [hrun, ClassFile.readBody]
  cases hread : r.run body with
  | ok a => exact .pure (hvalue a hread)
  | error f => exact .throw f

theorem implements_readHandler : Implements readHandler Code.readHandler fun _ => True :=
  .bind (implements_readInt UInt16) fun _ _ => .bind (implements_readInt UInt16) fun _ _ =>
    implements_two fun _ _ => trivial

/-- The bytes of a method are as many as a 32-bit count says. -/
theorem implements_parseCode :
    Implements parseCode Code.read fun code => code.bytes.length < wordLimit := by
  refine .bind (implements_readInt UInt16) fun maxStack _ => ?_
  refine .bind (implements_readInt UInt16) fun maxLocals _ => ?_
  refine .bind (implements_readInt UInt32) fun length _ => .ite (fun _ => .malformed _) fun _ => ?_
  refine .bind (implements_readBytes _) fun bytes hbytes => ?_
  refine .bind implements_readHandler.table fun handlers _ => ?_
  refine .bind implements_skipAttributes fun _ _ => ?_
  refine .bind implements_hasMoreData fun more _ => .ite (fun _ => .malformed _) fun _ => .pure ?_
  have hlength := length.toNat_lt
  rw [hbytes, wordLimit, UInt64.size]
  omega

theorem implements_parseBootstrapMethods :
    Implements parseBootstrapMethods ClassFile.readBootstrapMethods fun _ => True := by
  have hone : Implements readBootstrapMethod ClassFile.readBootstrapMethod fun _ => True :=
    .bind (implements_readInt UInt16) fun _ _ =>
      .bind (implements_readInt UInt16).table fun _ _ => .pure trivial
  refine .bind hone.table fun methods _ => ?_
  refine .bind implements_hasMoreData fun more _ => .ite (fun _ => .malformed _) fun _ => ?_
  exact .pure trivial

-- ---------------------------------------------------------------------------
-- The class
-- ---------------------------------------------------------------------------

/-- Reads access flags. -/
def readAccess : Parsing AccessFlags := do
  return ⟨← readInt UInt16⟩

/-- Reads a field. -/
def readField : Parsing Field := do
  let access ← readAccess
  let name ← readInt UInt16
  let descriptor ← readInt UInt16
  skipAttributes
  return ⟨access, name, descriptor⟩

/-- Reads `n` attributes of a method and keeps the code. -/
def readMethodAttributes (pool : ConstantPool) : (n : Nat) → (code : Option Code) →
    Parsing (Option Code)
  | 0, code => pure code
  | n + 1, code => do
    let (name, body) ← readAttribute pool
    if name = ClassFile.codeAttribute then
      if code.isSome then
        malformed .repeatedCode
      else
        let code ← check (parseCode.run body)
        readMethodAttributes pool n (some code)
    else
      readMethodAttributes pool n code

/-- Reads a method. -/
def readMethod (pool : ConstantPool) : Parsing Method := do
  let access ← readAccess
  let name ← readInt UInt16
  let descriptor ← readInt UInt16
  let code ← readMethodAttributes pool (← readInt UInt16).toNat none
  return ⟨access, name, descriptor, code⟩

/-- Reads `n` attributes of a class and keeps the bootstrap methods. -/
def readClassAttributes (pool : ConstantPool) : (n : Nat) →
    (methods : Array BootstrapMethod) → Parsing (Array BootstrapMethod)
  | 0, methods => pure methods
  | n + 1, methods => do
    let (name, body) ← readAttribute pool
    if name = ClassFile.bootstrapAttribute then
      readClassAttributes pool n (← check (parseBootstrapMethods.run body))
    else
      readClassAttributes pool n methods

/-- Counts what is left of the data, for a message. -/
def countTrailing : Parsing Unit := do
  if ← hasMoreData then
    let _ ← check (sub (← data).length (← position))

/-- Reads a class file. -/
def parseClass : Parsing ClassFile := do
  let found ← readInt UInt32
  if found ≠ ClassFile.magic then
    throw (.fault (.magic found))
  else
    let minor ← readInt UInt16
    let major ← readInt UInt16
    let pool ← readPool
    let access ← readAccess
    let thisClass ← readInt UInt16
    let superClass ← readInt UInt16
    let interfaces ← table (readInt UInt16)
    let fields ← table readField
    let methods ← table (readMethod pool)
    let bootstrapMethods ← readClassAttributes pool (← readInt UInt16).toNat #[]
    countTrailing
    return { minor, major, pool, access, thisClass, superClass, interfaces, fields, methods,
             bootstrapMethods }

theorem implements_readAccess : Implements readAccess ClassFile.readAccess fun _ => True :=
  implements_one fun _ => trivial

theorem implements_readField : Implements readField ClassFile.readField fun _ => True := by
  refine .bind implements_readAccess fun access _ => ?_
  refine .bind (implements_readInt UInt16) fun name _ => ?_
  refine .bind (implements_readInt UInt16) fun descriptor _ => ?_
  exact .bind implements_skipAttributes fun _ _ => .pure trivial

/-- Where there is code, a word measures it. -/
def MeasuredCode (code : Option Code) : Prop :=
  ∀ body, code = some body → body.bytes.length < wordLimit

/-- The attributes of a method are read, and its code is measured. -/
theorem implements_readMethodAttributes (pool : ConstantPool) (n : Nat) {code : Option Code}
    (hcode : MeasuredCode code) :
    Implements (readMethodAttributes pool n code) (ClassFile.readMethodAttributes pool n code)
      MeasuredCode := by
  induction n generalizing code with
  | zero => exact .pure hcode
  | succ n ih =>
    refine .bind (implements_readAttribute pool) fun entry hbody => ?_
    refine .ite (fun _ => .ite (fun _ => .malformed _) fun _ => ?_) fun _ => ih hcode
    refine .bind (implements_parseCode.readBody hbody) fun body hmeasured => ih ?_
    rintro _ ⟨⟩
    exact hmeasured

theorem implements_readMethod (pool : ConstantPool) :
    Implements (readMethod pool) (ClassFile.readMethod pool) fun m => MeasuredCode m.code := by
  refine .bind implements_readAccess fun access _ => ?_
  refine .bind (implements_readInt UInt16) fun name _ => ?_
  refine .bind (implements_readInt UInt16) fun descriptor _ => ?_
  refine .bind (implements_readInt UInt16) fun n _ => ?_
  refine .bind (implements_readMethodAttributes pool _ fun _ h => nomatch h) fun code hcode => ?_
  exact .pure hcode

theorem implements_readClassAttributes (pool : ConstantPool) (n : Nat)
    (methods : Array BootstrapMethod) :
    Implements (readClassAttributes pool n methods) (ClassFile.readClassAttributes pool n methods)
      fun _ => True := by
  induction n generalizing methods with
  | zero => exact .pure trivial
  | succ n ih =>
    refine .bind (implements_readAttribute pool) fun entry hbody => .ite (fun _ => ?_) fun _ => ih _
    exact .bind (implements_parseBootstrapMethods.readBody hbody) fun _ _ => ih _

/-- What is left over can be counted, and counting it changes nothing. -/
theorem implements_countTrailing : Implements countTrailing (pure ()) fun _ => True := by
  intro c
  have hle : c.pos ≤ c.data.length := c.size_eq ▸ c.pos_le
  have hmore : hasMoreData (.ofCursor c) =
      .ok (decide (c.pos < c.data.length)) (.ofCursor c) := rfl
  have hcount : countTrailing (.ofCursor c) = .ok () (.ofCursor c) := by
    rw [countTrailing, bind_of_ok _ hmore]
    by_cases h : c.pos < c.data.length
    · rw [if_pos (decide_eq_true h)]
      show (check (sub c.data.length c.pos) >>= _ : Parsing Unit) _ = _
      rw [sub_eq_ok hle]
      rfl
    · rw [if_neg (by simpa using h)]
      rfl
  rw [hcount]
  exact .value rfl (Nat.le_refl _) trivial

/-- A class file is parsed as it is read. -/
theorem implements_parseClass : Implements parseClass ClassFile.read ClassFile.Measured := by
  refine .bind (implements_readInt UInt32) fun found _ => .ite (fun _ => .throw _) fun _ => ?_
  refine .bind (implements_readInt UInt16) fun minor _ => ?_
  refine .bind (implements_readInt UInt16) fun major _ => ?_
  refine .bind implements_readPool fun pool hpool => ?_
  refine .bind implements_readAccess fun access _ => ?_
  refine .bind (implements_readInt UInt16) fun thisClass _ => ?_
  refine .bind (implements_readInt UInt16) fun superClass _ => ?_
  refine .bind (implements_readInt UInt16).table fun interfaces _ => ?_
  refine .bind implements_readField.table fun fields _ => ?_
  refine .bind (implements_readMethod pool).table fun methods hmethods => ?_
  refine .bind (implements_readInt UInt16) fun n _ => ?_
  refine .bind (implements_readClassAttributes pool _ _) fun bootstrapMethods _ => ?_
  -- reading ends here, and parsing counts what is left
  refine .bind implements_countTrailing fun _ _ => .pure ?_
  exact ⟨hpool, fun m hm code hcode => hmethods m hm code hcode⟩

end Machine

end Backref
