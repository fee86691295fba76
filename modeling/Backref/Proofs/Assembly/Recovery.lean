import Backref.Proofs.Assembly.Decoding
import Backref.Proofs.Assembly.Requests

/-!
# Bodies that go on where a call fails

A call of an encoder interns constants and adds a bootstrap method before it
appends, and each of these steps may fail. Whatever state it is called in, and
wherever it fails, what it leaves has the constants and the bootstrap methods
from before in their places, and nothing else is different from before. So a
body may pass over the failure: its code is made of what the calls that succeed
append, and all of that still resolves in the class that is written.

Main results:

* `Emission.spares_run` — what a call that fails leaves alone, in any state;
* `Attempt.exists_recovery` — what has become of a body that passes over failures;
* `ClassBuilder.unharmed_by_failures` — the two together, for a class that is read back.
-/

namespace Backref

-- ---------------------------------------------------------------------------
-- Requests that only add
-- ---------------------------------------------------------------------------

namespace PoolBuilder

/-- A builder has come from another one by adding constants: those that were
there stand where they stood, and the others stand behind them. -/
structure Grown (b b' : PoolBuilder) : Prop where
  slots : b.pool.slots.toList <+: b'.pool.slots.toList
  indices : ∀ (k : Constant) (i : UInt16), b.indices[k]? = some i → b'.indices[k]? = some i

namespace Grown

variable {b b' b'' : PoolBuilder}

theorem refl (b : PoolBuilder) : b.Grown b := ⟨List.prefix_refl _, fun _ _ h => h⟩

theorem trans (h : b.Grown b') (h' : b'.Grown b'') : b.Grown b'' :=
  ⟨h.slots.trans h'.slots, fun k i hk => h'.indices k i (h.indices k i hk)⟩

/-- A pool that has grown still holds every constant it held. -/
theorem within (h : b.Grown b') : b.pool.Within b'.pool := by
  intro i k hk
  obtain ⟨more, hmore⟩ := h.slots
  rw [ConstantPool.Holds, ← Array.getElem?_toList] at hk ⊢
  rw [← hmore, List.getElem?_append_left (List.getElem?_eq_some_iff.mp hk).1]
  exact hk

end Grown

/-- A request only adds constants, whether it succeeds or not. -/
def OnlyAdds {α : Type} (x : Interning α) : Prop :=
  ∀ b : PoolBuilder, match x b with
    | .ok _ b' => b.Grown b'
    | .error _ b' => b.Grown b'

namespace OnlyAdds

variable {α β : Type} {x : Interning α}

theorem pure (a : α) : OnlyAdds (pure a) := fun b => .refl b

theorem throw {fault : Fault} : OnlyAdds (throw fault : Interning α) := fun b => .refl b

/-- Two steps that only add do so together, whether or not they succeed. -/
theorem bind {f : α → Interning β} (hx : OnlyAdds x) (hf : ∀ a, OnlyAdds (f a)) :
    OnlyAdds (x >>= f) := by
  intro b
  have hx := hx b
  cases hresult : x b with
  | error fault between =>
    rw [hresult] at hx
    rw [bind_of_error _ hresult]
    exact hx
  | ok a between =>
    rw [hresult] at hx
    rw [bind_of_ok _ hresult]
    have hfa := hf a between
    cases hnext : f a between with
    | error fault b' =>
      rw [hnext] at hfa
      exact hx.trans hfa
    | ok a' b' =>
      rw [hnext] at hfa
      exact hx.trans hfa

/-- A new constant goes behind the others, whatever the table of indices says. -/
theorem intern (k : Constant) : OnlyAdds (intern k) := by
  rintro ⟨pool, indices⟩
  unfold PoolBuilder.intern
  simp only
  cases hfound : indices[k]? with
  | some i => exact .refl _
  | none =>
    -- a pool without room refuses the constant and stays as it is
    by_cases hroom : pool.size + k.slots ≤ countLimit
    · simp only [if_pos hroom]
      refine ⟨?_, fun k' i hk' => ?_⟩
      · show pool.slots.toList <+: (pool.push k).slots.toList
        unfold ConstantPool.push
        split
        · simp
        · simp
      · show (indices.insert k _)[k']? = some i
        rw [Std.HashMap.getElem?_insert]
        by_cases hk : k = k'
        · subst hk
          rw [hfound] at hk'
          cases hk'
        · rw [if_neg (by simpa using hk)]
          exact hk'
    · simp only [if_neg hroom]
      exact .refl _

/-- A text only adds to the pool, also when it is refused. -/
theorem utf8 (text : String) : OnlyAdds (utf8 text) := by
  unfold PoolBuilder.utf8
  simp only
  split
  · exact intern _
  · exact .throw

/-- A class only adds to the pool: its name may be in by the time it is refused. -/
theorem classInfo (name : String) : OnlyAdds (classInfo name) :=
  (utf8 name).bind fun _ => intern _

theorem string (text : String) : OnlyAdds (string text) :=
  (utf8 text).bind fun _ => intern _

theorem nameAndType (name descriptor : String) : OnlyAdds (nameAndType name descriptor) :=
  (utf8 name).bind fun _ => (utf8 descriptor).bind fun _ => intern _

/-- A member only adds to the pool: its parts may be in by the time it is refused. -/
theorem memberRef (kind : MemberKind) (m : Member) : OnlyAdds (memberRef kind m) :=
  (classInfo m.owner).bind fun _ => (nameAndType m.name m.descriptor).bind fun _ => intern _

theorem invokeDynamic (bootstrap : UInt16) (name descriptor : String) :
    OnlyAdds (invokeDynamic bootstrap name descriptor) :=
  (nameAndType name descriptor).bind fun _ => intern _

theorem handle (h : HandleSpec) : OnlyAdds h.intern :=
  (memberRef h.memberKind h.member).bind fun _ => intern _

theorem argument (a : StaticArgument) : OnlyAdds a.intern := by
  cases a with
  | methodType descriptor => exact (utf8 descriptor).bind fun _ => intern _
  | handle h => exact handle h
  | ofClass name => exact classInfo name
  | string text => exact string text
  | int value => exact intern _

/-- Static arguments only add to the pool, as far as they get. -/
theorem arguments (as : List StaticArgument) (seen : Array UInt16) :
    OnlyAdds (StaticArgument.internAll as seen) := by
  induction as generalizing seen with
  | nil => exact .pure seen
  | cons a as ih => exact (argument a).bind fun i => ih _

end OnlyAdds

end PoolBuilder

-- ---------------------------------------------------------------------------
-- Calls that fail
-- ---------------------------------------------------------------------------

namespace Encoder

/-- Nothing has happened to a body but that its class may have more constants
and more bootstrap methods. -/
structure Unharmed (s s' : Encoder) : Prop where
  code : s'.code = s.code
  maxStack : s'.maxStack = s.maxStack
  maxLocals : s'.maxLocals = s.maxLocals
  marks : s'.marks = s.marks
  pool : s.pool.Grown s'.pool
  bootstraps : s.bootstraps.toList <+: s'.bootstraps.toList

namespace Unharmed

variable {s s' s'' : Encoder}

theorem refl (s : Encoder) : s.Unharmed s := ⟨rfl, rfl, rfl, rfl, .refl _, List.prefix_refl _⟩

theorem trans (h : s.Unharmed s') (h' : s'.Unharmed s'') : s.Unharmed s'' where
  code := h'.code.trans h.code
  maxStack := h'.maxStack.trans h.maxStack
  maxLocals := h'.maxLocals.trans h.maxLocals
  marks := h'.marks.trans h.marks
  pool := h.pool.trans h'.pool
  bootstraps := h.bootstraps.trans h'.bootstraps

end Unharmed

/-- A computation does a body no harm, whether it succeeds or not. -/
def Harmless {α : Type} (x : Encoding α) : Prop :=
  ∀ s : Encoder, match x s with
    | .ok _ s' => s.Unharmed s'
    | .error _ s' => s.Unharmed s'

/-- A computation that fails does a body no harm. -/
def Spares (x : Encoding Unit) : Prop :=
  ∀ s s' fault, x s = .error fault s' → s.Unharmed s'

/-- A request to the pool harms no body, whether or not it succeeds. -/
theorem harmless_onPool {α : Type} {x : Interning α} (hx : PoolBuilder.OnlyAdds x) :
    Harmless (onPool x) := by
  rintro ⟨pool, rows, marks, code, maxStack, maxLocals⟩
  have hx := hx pool
  unfold onPool
  simp only
  cases hresult : x pool with
  | ok a pool' =>
    rw [hresult] at hx
    exact ⟨rfl, rfl, rfl, rfl, hx, List.prefix_refl _⟩
  | error fault pool' =>
    rw [hresult] at hx
    exact ⟨rfl, rfl, rfl, rfl, hx, List.prefix_refl _⟩

theorem harmless_ofExcept {α : Type} (v : Except Fault α) :
    Harmless (MonadExcept.ofExcept v) := by
  intro s
  cases v with
  | ok a => exact .refl s
  | error fault => exact .refl s

theorem harmless_bootstrapNumber (row : BootstrapMethod) : Harmless (bootstrapNumber row) := by
  intro s
  obtain ⟨number, t, hrun, hrows⟩ := exists_bootstrapNumber row s
  rw [hrun]
  rcases hrows with ⟨-, rfl⟩ | ⟨-, -, rfl⟩
  · exact .refl _
  · refine ⟨rfl, rfl, rfl, rfl, .refl _, ?_⟩
    simp

/-- What does no harm may come before what does none where it fails. -/
theorem Harmless.spares {α : Type} {x : Encoding α} {f : α → Encoding Unit} (hx : Harmless x)
    (hf : ∀ a, Spares (f a)) : Spares (x >>= f) := by
  intro s s' fault h
  have hx := hx s
  rcases bind_eq_error.mp h with hfirst | ⟨a, between, hfirst, hrest⟩
  · rw [hfirst] at hx
    exact hx
  · rw [hfirst] at hx
    exact hx.trans (hf a between s' fault hrest)

theorem spares_throw {fault : Fault} : Spares (throw fault) := by
  intro s s' fault' h
  cases h
  exact .refl s

/-- An instruction that does not fit leaves the code as it was. -/
theorem spares_append (opcode : UInt8) (operands : Bytes) : Spares (append opcode operands) := by
  intro s s' fault h
  unfold append at h
  simp only at h
  split at h
  · cases h
  · cases h
    exact .refl s

theorem spares_appendLoad (index : UInt16) : Spares (appendLoad index) := by
  unfold appendLoad
  split
  · exact spares_append _ _
  · exact spares_append _ _

/-- An interface call that fails leaves the code as it was. -/
theorem spares_appendInterfaceCall (m : Member) : Spares (appendInterfaceCall m) := by
  refine (harmless_ofExcept _).spares fun slots => ?_
  show Spares (if UInt16.ofNat slots + 1 ≤ 255 then _ else _)
  split
  · exact (harmless_onPool (.memberRef _ m)).spares fun index => spares_append _ _
  · exact spares_throw

/-- A call site that fails leaves the code as it was, wherever it has failed. -/
theorem spares_appendCallSite (name descriptor : String) (bootstrap : HandleSpec)
    (arguments : List StaticArgument) :
    Spares (appendCallSite name descriptor bootstrap arguments) := by
  refine (harmless_onPool (.handle bootstrap)).spares fun handle =>
    (harmless_onPool (.arguments arguments #[])).spares fun is =>
    (harmless_bootstrapNumber _).spares fun number => ?_
  split
  · exact (harmless_onPool (.invokeDynamic _ _ _)).spares fun index => spares_append _ _
  · exact spares_throw

end Encoder

namespace Emission

open Encoder

/-- A call that fails does a body no harm, whatever state it is made in. -/
theorem spares_run (e : Emission) : Spares e.run := by
  -- the operand is prepared first; the code is only touched by the last step
  cases e with
  | raw opcode operands => exact spares_append opcode operands
  | field opcode m =>
    exact (harmless_onPool (.memberRef .field m)).spares fun _ => spares_append _ _
  | method opcode m =>
    unfold run
    by_cases hinterface : opcode = Opcode.invokeInterface
    · simp only [if_pos hinterface]
      exact spares_appendInterfaceCall m
    · simp only [if_neg hinterface]
      exact (harmless_onPool (.memberRef .method m)).spares fun _ => spares_append _ _
  | ofClass opcode name =>
    exact (harmless_onPool (.classInfo name)).spares fun _ => spares_append _ _
  | loadClass name => exact (harmless_onPool (.classInfo name)).spares spares_appendLoad
  | loadString text => exact (harmless_onPool (.string text)).spares spares_appendLoad
  | loadInt value => exact (harmless_onPool (.intern _)).spares spares_appendLoad
  | callSite name descriptor bootstrap arguments => exact spares_appendCallSite _ _ _ _
  | lambda l => exact spares_appendCallSite _ _ _ _
  | flaggedLambda l flags => exact spares_appendCallSite _ _ _ _
  | maxStack slots => exact fun s s' fault h => nomatch h
  | maxLocals slots => exact fun s s' fault h => nomatch h
  | mark => exact fun s s' fault h => nomatch h

/-- A call that fails keeps the pool sound. -/
theorem sound_of_error {e : Emission} {s s' : Encoder} {fault : Fault} (hs : s.pool.Sound)
    (h : e.run s = .error fault s') : s'.pool.Sound := by
  have hemits := emits_run e s hs
  rw [h] at hemits
  exact hemits.1

/-- A call appends an instruction, and does not just set a limit or note the length of the code. -/
def appends : Emission → Bool
  | maxStack _ | maxLocals _ | mark => false
  | _ => true

/-- A call that appends no instruction writes no bytes. -/
theorem Writes.eq_nil {c : ClassFile} {bytes : Bytes} {e : Emission} (h : e.Writes c bytes)
    (hsilent : e.appends = false) : bytes = [] := by
  cases e with
  | maxStack slots => exact h
  | maxLocals slots => exact h
  | mark => exact h
  | _ => cases hsilent

end Emission

-- ---------------------------------------------------------------------------
-- Bodies that go on
-- ---------------------------------------------------------------------------

namespace Attempt

/-- What has become of a body in a class. Each call that succeeds has appended
bytes whose index stands for what the call was given, and they are decoded to
what it has asked for if it is a call for one instruction. Each call that fails
has done no harm, and the body has gone on from the state that it left. -/
inductive Recovery (c : ClassFile) :
    List Attempt → Encoder → List (Emission × Bytes) → Encoder → Prop
  | nil (s : Encoder) : Recovery c [] s [] s
  | made {t : Attempt} {ts : List Attempt} {s s' s'' : Encoder} {bytes : Bytes}
      {made : List (Emission × Bytes)} (run : t.emission.run s = .ok () s')
      (appends : t.emission.appends = true)
      (written : s'.code.toList = s.code.toList ++ bytes) (writes : t.emission.Writes c bytes)
      (decoded : t.emission.Single →
        ∃ i, Instruction.Laid s.offset bytes i ∧ t.emission.DecodedAs c i)
      (others : Recovery c ts s' made s'') :
      Recovery c (t :: ts) s ((t.emission, bytes) :: made) s''
  | silent {t : Attempt} {ts : List Attempt} {s s' s'' : Encoder}
      {made : List (Emission × Bytes)} (run : t.emission.run s = .ok () s')
      (appends : t.emission.appends = false) (code : s'.code = s.code)
      (others : Recovery c ts s' made s'') : Recovery c (t :: ts) s made s''
  | passed {t : Attempt} {ts : List Attempt} {s s' s'' : Encoder} {fault : Fault}
      {made : List (Emission × Bytes)} (run : t.emission.run s = .error fault s')
      (optional : t.required = false) (unharmed : s.Unharmed s')
      (others : Recovery c ts s' made s'') : Recovery c (t :: ts) s made s''

/-- Where a body goes on after a call, the call has succeeded, or it is not required. -/
theorem run_cases {t : Attempt} {s s' : Encoder} (h : t.run s = .ok () s') :
    t.emission.run s = .ok () s' ∨
      (∃ fault, t.emission.run s = .error fault s') ∧ t.required = false := by
  unfold run at h
  -- a fault is caught only where the attempt is not required
  cases hresult : t.emission.run s with
  | ok u between =>
    rw [hresult] at h
    obtain ⟨-, rfl⟩ := EStateM.Result.ok.inj h
    exact .inl rfl
  | error fault between =>
    rw [hresult] at h
    cases hrequired : t.required with
    | true =>
      rw [hrequired] at h
      cases h
    | false =>
      rw [hrequired] at h
      obtain ⟨-, rfl⟩ := EStateM.Result.ok.inj h
      exact .inr ⟨⟨fault, rfl⟩, rfl⟩

/-- A body that passes over failures has made pieces of code in every class
that covers the state it leaves. -/
theorem exists_recovery {ts : List Attempt} {s s' : Encoder} (hs : s.pool.Sound)
    (h : runAll ts s = .ok () s') {c : ClassFile} (hc : c.Covers s'.pool.pool s'.bootstraps) :
    ∃ made, Recovery c ts s made s' := by
  -- the induction is on the attempts; the class covers what all of them leave
  induction ts generalizing s with
  | nil =>
    obtain ⟨-, rfl⟩ := pure_eq_ok.mp h
    exact ⟨[], .nil s⟩
  | cons t ts ih =>
    obtain ⟨_, between, hfirst, hrest⟩ := bind_eq_ok.mp h
    obtain ⟨hsound, -⟩ := run_sound hs hfirst
    obtain ⟨made, hmade⟩ := ih hsound hrest
    rcases run_cases hfirst with hrun | ⟨⟨fault, hrun⟩, hoptional⟩
    · obtain ⟨-, -, bytes, hcode, hwrites⟩ := (Encoder.emits_run t.emission).of_ok hs hrun
      -- the class covers the last state, so it covers the one after this call
      have hwrites := hwrites c ((runAll_sound hsound hrest).2.trans hc)
      -- a call that succeeds writes its instruction, unless it only sets a limit or a mark
      cases happends : t.emission.appends with
      | true =>
        exact ⟨_, .made hrun happends hcode hwrites
          (fun hsingle => hwrites.decodedAs s.offset hsingle hrun) hmade⟩
      | false =>
        obtain rfl := hwrites.eq_nil happends
        rw [List.append_nil] at hcode
        exact ⟨_, .silent hrun happends (Array.toList_inj.mp hcode) hmade⟩
    · exact ⟨_, .passed hrun hoptional (t.emission.spares_run s between fault hrun) hmade⟩

namespace Recovery

variable {c : ClassFile} {ts : List Attempt} {s s' : Encoder} {made : List (Emission × Bytes)}

/-- The code of a body is what its calls have appended. -/
theorem code (h : Recovery c ts s made s') :
    s'.code.toList = s.code.toList ++ (made.map Prod.snd).flatten := by
  induction h with
  | nil s => simp
  | made run appends written writes decoded others ih =>
    rw [ih, written, List.map_cons, List.flatten_cons, List.append_assoc]
  | silent run appends same others ih => rw [ih, same]
  | passed run optional unharmed others ih => rw [ih, unharmed.code]

/-- The code of a body is tiled by one instruction for each call that has
succeeded, if these are calls for one instruction each. -/
theorem exists_tiled (h : Recovery c ts s made s') (hsingle : ∀ p ∈ made, p.1.Single) :
    ∃ is, Instruction.Tiled s.offset (made.map Prod.snd).flatten is ∧
      List.Forall₂ (fun p i => p.1.DecodedAs c i) made is := by
  -- only what was made takes bytes; the offset stays where it is past the rest
  induction h with
  | nil s => exact ⟨[], .nil _, .nil⟩
  | @made t ts s s' s'' bytes made run appends written writes decoded others ih =>
    obtain ⟨hfirst, hothers⟩ := List.forall_mem_cons.mp hsingle
    obtain ⟨i, hlaid, hi⟩ := decoded hfirst
    obtain ⟨is, htiled, his⟩ := ih hothers
    have hoffset : s'.offset = s.offset + bytes.length := by
      unfold Encoder.offset
      rw [← Array.length_toList, written, List.length_append, Array.length_toList]
    rw [hoffset] at htiled
    exact ⟨i :: is, .cons hlaid htiled, .cons hi his⟩
  | @silent t ts s s' s'' made run appends same others ih =>
    have hoffset : s'.offset = s.offset := congrArg Array.size same
    rw [← hoffset]
    exact ih hsingle
  | @passed t ts s s' s'' fault made run optional unharmed others ih =>
    have hoffset : s'.offset = s.offset := congrArg Array.size unharmed.code
    rw [← hoffset]
    exact ih hsingle

/-- Where every call is required, every call that appends has been made. -/
theorem map_fst {es : List Emission} (h : Recovery c (es.map ofEmission) s made s') :
    made.map Prod.fst = es.filter Emission.appends := by
  induction es generalizing s made with
  | nil =>
    cases h
    rfl
  | cons e es ih =>
    cases h with
    | made run appends written writes decoded others =>
      have hmade : e.appends = true := appends
      rw [List.filter_cons_of_pos hmade, List.map_cons, ih others]
      rfl
    | silent run appends same others =>
      have hsilent : ¬ e.appends = true := Bool.eq_false_iff.mp appends
      rw [List.filter_cons_of_neg hsilent, ih others]
    | passed run optional unharmed others => cases optional

end Recovery

end Attempt

-- ---------------------------------------------------------------------------
-- Whole classes
-- ---------------------------------------------------------------------------

namespace ClassBuilder

open Assembler

/-- A call that fails, in whatever state and wherever it fails, leaves the code
and the limits as they were, and the constants and the bootstrap methods of the
class in their places. A body that passes over such failures, in a class that a
builder has written: the code of the method that is read back is made of what
the calls that have succeeded have appended, and resolves to what they were
given. If these are calls for one instruction each, walking through the code
yields these instructions. -/
theorem unharmed_by_failures :
    (∀ (e : Emission) (s s' : Encoder) (fault : Fault), e.run s = .error fault s' →
      s.Unharmed s' ∧ s'.offset = s.offset ∧
        (∀ (r : Request) i, r.ResolvesAt s.pool.pool i → r.ResolvesAt s'.pool.pool i) ∧
        (s.pool.Sound → s'.pool.Sound)) ∧
    ∀ (name : String) (before after : List ClassCall) (m : MethodCall) (ts : List Attempt)
      (b : ClassBuilder) (bytes : Bytes), m.body = some ts →
      performAll (before ++ .method m :: after) (.new name) = .ok b → b.finish = .ok bytes →
      ∃ c b₀ slots s made method code, ClassFile.ofBytes bytes = .ok c ∧
        performAll before (.new name) = .ok b₀ ∧
        MethodType.argumentSlots m.descriptor = .ok slots ∧
        c.methods[(before.filterMap ClassCall.method?).length]? = some method ∧
        method.code = some code ∧ Attempt.Recovery c ts (b₀.state.encoder m.spec slots) made s ∧
        code.bytes = (made.map Prod.snd).flatten ∧
        ((∀ p ∈ made, p.1.Single) → ∃ is, (Walk.items code.bytes).toList = is.map .ok ∧
          List.Forall₂ (fun p i => p.1.DecodedAs c i) made is) := by
  constructor
  · intro e s s' fault hrun
    have hunharmed := e.spares_run s s' fault hrun
    have hoffset : s'.offset = s.offset := congrArg Array.size hunharmed.code
    exact ⟨hunharmed, hoffset, fun r i hr => hr.mono hunharmed.pool.within,
      fun hs => Emission.sound_of_error hs hrun⟩
  · intro name before after m ts b bytes hbody hcalls hbytes
    obtain ⟨c, b₀, slots, s, method, hread, hbefore, hsound, hslots, hrun, hcovers, hmethod,
      hsame⟩ := exists_body hbody hcalls hbytes
    obtain ⟨made, hrecovery⟩ :=
      Attempt.exists_recovery (s := b₀.state.encoder m.spec slots) hsound hrun hcovers
    -- the code of a method starts empty, so all of it comes from the calls
    have hcode : s.code.toList = (made.map Prod.snd).flatten := hrecovery.code
    refine ⟨c, b₀, slots, s, made, method, _, hread, hbefore, hslots, hmethod, hsame, hrecovery,
      hcode, fun hsingle => ?_⟩
    obtain ⟨is, htiled, his⟩ := hrecovery.exists_tiled hsingle
    rw [← hcode] at htiled
    exact ⟨is, Walk.items_eq_iff.mpr htiled, his⟩

/-! ### A body that goes on -/

/-- A name that is too long for a constant by one byte. -/
def longName : String := String.ofList (List.replicate 65536 'a')

/-- A name of 65536 bytes is one byte too long, in any pool. -/
theorem utf8_longName (b : PoolBuilder) :
    PoolBuilder.utf8 longName b = .error (.malformed (.textTooLong 65536)) b := by
  have hlength : (Modified.encode longName).length = 65536 := by
    have hletters : ∀ c ∈ List.replicate 65536 'a', 1 ≤ c.toNat ∧ c.toNat ≤ 0x7F :=
      List.forall_mem_replicate.mpr (.inr (by decide))
    exact (Modified.length_encode_ascii hletters).trans List.length_replicate
  unfold PoolBuilder.utf8
  simp only [hlength]
  rfl

/-- An access to a field whose name is too long. -/
def longAccess : Emission := .field Opcode.getField ⟨"A", longName, "I"⟩

/-- Calls that load a class, forget it, and return. -/
def loadingEmissions : List Emission := [.loadClass "A", .raw 0x57 [], .raw 0xB1 []]

/-- A method that tries to access the field before it makes these calls. -/
def tryingMethod : MethodCall :=
  ⟨⟨0⟩, "m", "()V", some (⟨longAccess, false⟩ :: loadingEmissions.map Attempt.ofEmission)⟩

/-- The access fails, but its class stays among the constants. -/
theorem run_longAccess :
    longAccess.run (Assembler.empty.encoder tryingMethod.spec 0) =
      .error (.malformed (.textTooLong 65536)) ⟨ClassSpec.loadingPool 2, #[], #[], #[], 8, 1⟩ := by
  have hclass : PoolBuilder.classInfo "A" (ClassSpec.loadingPool 0) =
      .ok 2 (ClassSpec.loadingPool 2) :=
    bind_eq_ok.mpr ⟨1, _, PoolBuilder.utf8_take rfl (by decide +kernel),
      PoolBuilder.intern_take rfl (by decide +kernel)⟩
  have hmember : PoolBuilder.memberRef .field ⟨"A", longName, "I"⟩ (ClassSpec.loadingPool 0) =
      .error (.malformed (.textTooLong 65536)) (ClassSpec.loadingPool 2) :=
    bind_eq_error.mpr (.inr ⟨2, _, hclass, bind_eq_error.mpr (.inl
      (bind_eq_error.mpr (.inl (utf8_longName _))))⟩)
  refine bind_eq_error.mpr (.inl ?_)
  unfold Encoder.onPool
  simp only
  rw [show (Assembler.empty.encoder tryingMethod.spec 0).pool = ClassSpec.loadingPool 0 from rfl,
    hmember]
  rfl

/-- The small class, but with the method that tries. -/
def tryingClass : ClassSpec := { ClassSpec.loadingClass with methods := [tryingMethod.spec] }

/-- The builder of this class when all calls are made. -/
def tryingBuilder : ClassBuilder :=
  ⟨tryingClass, ⟨ClassSpec.loadingPool 2, #[], #[], #[some ClassSpec.loadingCode]⟩⟩

/-- The body goes on, and finds the class where the access has left it. -/
theorem performAll_tryingMethod :
    performAll (loadingCalls ++ .method tryingMethod :: []) (.new "C") = .ok tryingBuilder := by
  have hsound : (ClassSpec.loadingPool 2).Sound :=
    Emission.sound_of_error PoolBuilder.sound_empty run_longAccess
  have hclass : PoolBuilder.classInfo "A" (ClassSpec.loadingPool 2) =
      .ok 2 (ClassSpec.loadingPool 2) := by
    have hnamed : (ClassSpec.loadingPool 2).pool.className 2 = .ok "A" := by decide +kernel
    exact PoolBuilder.recalls_classInfo "A" _ hsound 2 (ConstantPool.className_eq_ok.mp hnamed)
  -- the access fails and is passed over, but its owner stays in the pool
  have hfirst : Attempt.run ⟨longAccess, false⟩ (Assembler.empty.encoder tryingMethod.spec 0) =
      .ok () ⟨ClassSpec.loadingPool 2, #[], #[], #[], 8, 1⟩ := by
    unfold Attempt.run
    rw [run_longAccess]
    rfl
  have hload : (Emission.loadClass "A").run ⟨ClassSpec.loadingPool 2, #[], #[], #[], 8, 1⟩ =
      .ok () ⟨ClassSpec.loadingPool 2, #[], #[], #[0x12, 2], 8, 1⟩ :=
    bind_eq_ok.mpr ⟨2, _, ClassSpec.onPool_of_ok hclass, rfl⟩
  -- the load behind it finds the class there
  have hothers : Attempt.runAll (loadingEmissions.map Attempt.ofEmission)
      ⟨ClassSpec.loadingPool 2, #[], #[], #[], 8, 1⟩ =
      .ok () ⟨ClassSpec.loadingPool 2, #[], #[], #[0x12, 2, 0x57, 0xB1], 8, 1⟩ := by
    rw [Attempt.runAll_map_ofEmission]
    exact bind_eq_ok.mpr ⟨(), _, hload, rfl⟩
  have hall : Attempt.runAll (⟨longAccess, false⟩ :: loadingEmissions.map Attempt.ofEmission)
      (Assembler.empty.encoder tryingMethod.spec 0) =
      .ok () ⟨ClassSpec.loadingPool 2, #[], #[], #[0x12, 2, 0x57, 0xB1], 8, 1⟩ :=
    bind_eq_ok.mpr ⟨(), _, hfirst, hothers⟩
  have hslots : MethodType.argumentSlots "()V" = .ok 0 := by decide +kernel
  have hdeclared : performAll loadingCalls (.new "C") =
      .ok ⟨{ tryingClass with methods := [] }, .empty⟩ := rfl
  have hmethod : performAll [.method tryingMethod] ⟨{ tryingClass with methods := [] }, .empty⟩ =
      .ok tryingBuilder :=
    performAll_method (b := ⟨_, .empty⟩) rfl hslots hall rfl
  rw [performAll_append]
  exact except_bind_eq_ok.mpr ⟨_, hdeclared, hmethod⟩

/-- The class is written like the small one, whose method has never tried. -/
theorem finish_tryingBuilder : tryingBuilder.finish = .ok ClassSpec.loadingBytes := by
  have hlinks : internLinks tryingClass #[some ClassSpec.loadingCode] false
      (ClassSpec.loadingPool 2) = internLinks ClassSpec.loadingClass
        #[some ClassSpec.loadingCode] false (ClassSpec.loadingPool 2) := rfl
  refine ClassSpec.finish_eq_ok.mpr ⟨_, _, hlinks.trans ClassSpec.internLinks_loadingClass, ?_⟩
  decide +kernel

/-- The access fails and leaves its class, and the code that is read back is
that of the three calls behind it. -/
theorem unharmed_by_failures_tryingMethod :
    longAccess.run (Assembler.empty.encoder tryingMethod.spec 0) =
        .error (.malformed (.textTooLong 65536)) ⟨ClassSpec.loadingPool 2, #[], #[], #[], 8, 1⟩ ∧
      (Assembler.empty.encoder tryingMethod.spec 0).Unharmed
        ⟨ClassSpec.loadingPool 2, #[], #[], #[], 8, 1⟩ ∧
      performAll (loadingCalls ++ .method tryingMethod :: []) (.new "C") = .ok tryingBuilder ∧
      tryingBuilder.finish = .ok ClassSpec.loadingBytes ∧
      ∃ c s made method code, ClassFile.ofBytes ClassSpec.loadingBytes = .ok c ∧
        Attempt.Recovery c (⟨longAccess, false⟩ :: loadingEmissions.map Attempt.ofEmission)
          (Assembler.empty.encoder tryingMethod.spec 0) made s ∧
        c.methods[0]? = some method ∧ method.code = some code ∧
        made.map Prod.fst = loadingEmissions ∧ ∃ is, (Walk.items code.bytes).toList = is.map .ok ∧
          List.Forall₂ (fun p i => p.1.DecodedAs c i) made is := by
  obtain ⟨hunharmed, -, -, -⟩ := unharmed_by_failures.1 _ _ _ _ run_longAccess
  obtain ⟨c, b₀, slots, s, made, method, code, hread, hbefore, hslots, hmethod, hcode, hrecovery,
    -, hwalk⟩ := unharmed_by_failures.2 "C" loadingCalls [] tryingMethod _ tryingBuilder
      ClassSpec.loadingBytes rfl performAll_tryingMethod finish_tryingBuilder
  have hstart : performAll loadingCalls (.new "C") =
      .ok ⟨{ tryingClass with methods := [] }, .empty⟩ := rfl
  have hnone : MethodType.argumentSlots "()V" = .ok 0 := by decide +kernel
  obtain rfl := Except.ok.inj (hbefore.symm.trans hstart)
  obtain rfl : slots = 0 := Except.ok.inj (hslots.symm.trans hnone)
  -- the access has failed, and the calls behind it are required
  have hmade : made.map Prod.fst = loadingEmissions := by
    cases hrecovery with
    | made run appends written writes decoded others => cases run_longAccess.symm.trans run
    | silent run appends same others => cases appends
    | passed run optional unharmed others => exact others.map_fst
  refine ⟨run_longAccess, hunharmed, performAll_tryingMethod, finish_tryingBuilder, c, s, made,
    method, code, hread, hrecovery, hmethod, hcode, hmade, hwalk fun p hp => ?_⟩
  have hp : p.1 ∈ loadingEmissions := hmade ▸ List.mem_map_of_mem hp
  have hpop : (Opcode.info? 0x57).map OpcodeInfo.form = some .none := by decide +kernel
  have hreturn : (Opcode.info? 0xB1).map OpcodeInfo.form = some .none := by decide +kernel
  simp only [loadingEmissions, List.mem_cons, List.not_mem_nil, or_false] at hp
  rcases hp with hp | hp | hp
  · rw [hp]
    exact trivial
  · rw [hp]
    exact Emission.single_of_alone hpop
  · rw [hp]
    exact Emission.single_of_alone hreturn

end ClassBuilder

end Backref
