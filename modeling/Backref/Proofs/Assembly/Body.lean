import Backref.Proofs.Assembly.Emission

/-!
# What the body of a method leaves behind

A body is free to go on where a call fails, or to give up. A call that it
passes over appends nothing, but the constants that the call has added on the
way stay. The stack size and the number of local variables in the end are the
ones that were set last.

Main results:

* `Emission.IsPlain.keeps` — what an instruction that is no dynamic call leaves alone;
* `Attempt.runAll_sound` — a body keeps the pool sound, and only adds to it;
* `Attempt.maxStack_runAll`, `Attempt.maxLocals_runAll` — what the body has set.
-/

namespace Backref

-- ---------------------------------------------------------------------------
-- What stays the same
-- ---------------------------------------------------------------------------

namespace Encoder

/-- The state that a computation leaves, whether it succeeds or not. -/
def after {α : Type} (x : Encoding α) (s : Encoder) : Encoder :=
  match x s with
  | .ok _ s' => s'
  | .error _ s' => s'

/-- A computation leaves a part of the state alone. -/
def Keeps {α β : Type} (part : Encoder → β) (x : Encoding α) : Prop :=
  ∀ s, part (after x s) = part s

/-- A part of the state has nothing to do with the pool and the code. -/
structure Apart {β : Type} (part : Encoder → β) : Prop where
  pool : ∀ s pool, part { s with pool := pool } = part s
  code : ∀ s code, part { s with code := code } = part s

/-- The stack size and the number of local variables. -/
def limits (s : Encoder) : UInt16 × UInt16 := (s.maxStack, s.maxLocals)

/-- The limits of a body are apart from its pool and its code. -/
theorem apart_limits : Apart limits := ⟨fun _ _ => rfl, fun _ _ => rfl⟩

theorem apart_bootstraps : Apart Encoder.bootstraps := ⟨fun _ _ => rfl, fun _ _ => rfl⟩

namespace Keeps

variable {α β γ : Type} {part : Encoder → γ}

/-- Two steps keep what each of them keeps, whether or not the first one fails. -/
theorem bind {x : Encoding α} {f : α → Encoding β} (hx : Keeps part x)
    (hf : ∀ a, Keeps part (f a)) : Keeps part (x >>= f) := by
  intro s
  have hfirst := hx s
  -- the state behind two steps is that behind the second, or behind a first that fails
  have hbind : after (x >>= f) s = match x s with
      | .ok a s' => after (f a) s'
      | .error _ s' => s' := by
    show after (EStateM.bind x f) s = _
    unfold after EStateM.bind
    cases x s with
    | ok a s' => rfl
    | error fault s' => rfl
  rw [hbind]
  unfold after at hfirst
  cases hresult : x s with
  | error fault s' =>
    rw [hresult] at hfirst
    exact hfirst
  | ok a s' =>
    rw [hresult] at hfirst
    exact (hf a s').trans hfirst

theorem throw {fault : Fault} : Keeps part (throw fault : Encoding α) := fun _ => rfl

theorem ofExcept (v : Except Fault α) : Keeps part (MonadExcept.ofExcept v) := by
  cases v with
  | ok a => exact fun _ => rfl
  | error fault => exact .throw

/-- A request to the pool keeps what is apart from the pool. -/
theorem onPool (hpart : Apart part) (x : Interning α) : Keeps part (onPool x) := by
  intro s
  unfold after Encoder.onPool
  simp only
  cases x s.pool with
  | ok a pool => exact hpart.pool s pool
  | error fault pool => exact hpart.pool s pool

theorem append (hpart : Apart part) (opcode : UInt8) (operands : Bytes) :
    Keeps part (append opcode operands) := by
  intro s
  unfold after Encoder.append
  simp only
  by_cases hroom : s.code.size + 1 + operands.length ≤ countLimit
  · rw [if_pos hroom]
    exact hpart.code s _
  · rw [if_neg hroom]

theorem appendLoad (hpart : Apart part) (index : UInt16) : Keeps part (appendLoad index) := by
  unfold Encoder.appendLoad
  split
  · exact append hpart _ _
  · exact append hpart _ _

/-- Appending an interface call keeps what is apart from the pool and the code. -/
theorem appendInterfaceCall (hpart : Apart part) (m : Member) :
    Keeps part (appendInterfaceCall m) := by
  refine (ofExcept _).bind fun slots => ?_
  show Keeps part (if UInt16.ofNat slots + 1 ≤ 255 then _ else _)
  split
  · exact (onPool hpart _).bind fun index => append hpart _ _
  · exact .throw

theorem bootstrapNumber (hrows : ∀ s rows, part { s with bootstraps := rows } = part s)
    (row : BootstrapMethod) : Keeps part (bootstrapNumber row) := by
  intro s
  obtain ⟨number, t, hrun, hfound⟩ := exists_bootstrapNumber row s
  rw [after, hrun]
  rcases hfound with ⟨-, rfl⟩ | ⟨-, -, rfl⟩
  · rfl
  · exact hrows s _

/-- Appending a call site keeps what depends neither on the pool, nor the code, nor the rows. -/
theorem appendCallSite (hpart : Apart part)
    (hrows : ∀ s rows, part { s with bootstraps := rows } = part s) (name descriptor : String)
    (bootstrap : HandleSpec) (arguments : List StaticArgument) :
    Keeps part (appendCallSite name descriptor bootstrap arguments) := by
  refine (onPool hpart _).bind fun handle => (onPool hpart _).bind fun is =>
    (bootstrapNumber hrows _).bind fun number => ?_
  split
  · exact (onPool hpart _).bind fun index => append hpart _ _
  · exact .throw

end Keeps

end Encoder

namespace Emission

/-- An emission appends an instruction that is no dynamic call. -/
def IsPlain : Emission → Prop
  | raw .. | field .. | method .. | ofClass .. | loadClass _ | loadString _ | loadInt _ => True
  | _ => False

/-- Such an instruction changes the pool and the code, and nothing else. -/
theorem IsPlain.keeps {γ : Type} {part : Encoder → γ} {e : Emission} (h : e.IsPlain)
    (hpart : Encoder.Apart part) : Encoder.Keeps part e.run := by
  open Encoder in
  cases e with
  | raw opcode operands => exact .append hpart _ _
  | field opcode m => exact (Keeps.onPool hpart _).bind fun _ => .append hpart _ _
  | method opcode m =>
    unfold run
    -- a call through an interface has an encoding of its own
    by_cases hinterface : opcode = Opcode.invokeInterface
    · simp only [if_pos hinterface]
      exact .appendInterfaceCall hpart m
    · simp only [if_neg hinterface]
      exact (Keeps.onPool hpart _).bind fun _ => .append hpart _ _
  | ofClass opcode name => exact (Keeps.onPool hpart _).bind fun _ => .append hpart _ _
  | loadClass name => exact (Keeps.onPool hpart _).bind (Keeps.appendLoad hpart)
  | loadString text => exact (Keeps.onPool hpart _).bind (Keeps.appendLoad hpart)
  | loadInt value => exact (Keeps.onPool hpart _).bind (Keeps.appendLoad hpart)
  | _ => exact h.elim

/-- The stack size that an emission sets. -/
def maxStack? : Emission → Option UInt16
  | maxStack slots => some slots
  | _ => none

/-- The number of local variables that an emission sets. -/
def maxLocals? : Emission → Option UInt16
  | maxLocals slots => some slots
  | _ => none

/-- An emission changes the limits that it sets, and no others. -/
theorem limits_run (e : Emission) (s : Encoder) :
    (Encoder.after e.run s).maxStack = e.maxStack?.getD s.maxStack ∧
      (Encoder.after e.run s).maxLocals = e.maxLocals?.getD s.maxLocals := by
  open Encoder in
  have hplain : ∀ e : Emission, e.IsPlain → (after e.run s).maxStack = s.maxStack ∧
      (after e.run s).maxLocals = s.maxLocals :=
    fun _ h => Prod.mk.inj (h.keeps apart_limits s)
  have hcall : ∀ name descriptor bootstrap arguments,
      Keeps limits (appendCallSite name descriptor bootstrap arguments) :=
    .appendCallSite apart_limits fun _ _ => rfl
  -- only the two calls that are about a limit set one
  cases e with
  | callSite name descriptor bootstrap arguments => exact Prod.mk.inj (hcall _ _ _ _ s)
  | lambda l => exact Prod.mk.inj (hcall _ _ _ _ s)
  | flaggedLambda l flags => exact Prod.mk.inj (hcall _ _ _ _ s)
  | maxStack slots => exact ⟨rfl, rfl⟩
  | maxLocals slots => exact ⟨rfl, rfl⟩
  | mark => exact ⟨rfl, rfl⟩
  | _ =>
    refine hplain _ ?_
    exact trivial

/-- Emitting one thing ends where that emission does. -/
theorem runAll_one {e : Emission} {s t : Encoder} (h : e.run s = .ok () t) :
    runAll [e] s = .ok () t :=
  bind_eq_ok.mpr ⟨(), t, h, rfl⟩

end Emission

-- ---------------------------------------------------------------------------
-- Bodies
-- ---------------------------------------------------------------------------

/-- A call in the body of a method, and whether the body gives up where it fails. -/
structure Attempt where
  emission : Emission
  required : Bool
  deriving DecidableEq, Repr

namespace Attempt

/-- Does one thing to the body of a method, if it can be done. -/
def run (t : Attempt) : Encoding Unit := fun s =>
  match t.emission.run s with
  | .ok _ s' => .ok () s'
  | .error fault s' => if t.required then .error fault s' else .ok () s'

/-- Does several things to the body of a method, up to the first that is
required and fails. -/
def runAll : List Attempt → Encoding Unit
  | [] => pure ()
  | t :: ts => do
    run t
    runAll ts

/-- A call that the body gives up on if it fails. -/
def ofEmission (e : Emission) : Attempt := ⟨e, true⟩

/-- A call that is given up on at a failure runs as the emission alone. -/
theorem run_ofEmission (e : Emission) : (ofEmission e).run = e.run := by
  funext s
  unfold run ofEmission
  cases e.run s with
  | ok u s' => rfl
  | error fault s' => rfl

/-- A body that gives up at the first failure. -/
theorem runAll_map_ofEmission (es : List Emission) :
    runAll (es.map ofEmission) = Emission.runAll es := by
  induction es with
  | nil => rfl
  | cons e es ih => rw [List.map_cons, runAll, Emission.runAll, run_ofEmission, ih]

/-- A body that makes one call ends where the call does. -/
theorem runAll_one {e : Emission} {s t : Encoder} (h : e.run s = .ok () t) :
    runAll [ofEmission e] s = .ok () t := by
  have hall := Emission.runAll_one h
  rwa [← runAll_map_ofEmission] at hall

/-- Where the body goes on after a call, the state is the one that the call has left. -/
theorem eq_after_of_run {t : Attempt} {s s' : Encoder} (h : t.run s = .ok () s') :
    s' = Encoder.after t.emission.run s := by
  unfold run at h
  unfold Encoder.after
  -- an attempt that ends well has either succeeded or been caught
  cases hresult : t.emission.run s with
  | ok u between =>
    rw [hresult] at h
    exact (EStateM.Result.ok.inj h).2.symm
  | error fault between =>
    rw [hresult] at h
    simp only at h ⊢
    split at h
    · cases h
    · exact (EStateM.Result.ok.inj h).2.symm

/-- An attempt leaves a sound pool that has only grown, also when it fails and is caught. -/
theorem run_sound {t : Attempt} {s s' : Encoder} (hs : s.pool.Sound) (h : t.run s = .ok () s') :
    s'.pool.Sound ∧ s.Grows s' := by
  rw [eq_after_of_run h]
  unfold Encoder.after
  have hemits := Encoder.emits_run t.emission s hs
  cases hresult : t.emission.run s with
  | ok u between =>
    rw [hresult] at hemits
    exact ⟨hemits.1, hemits.2.1⟩
  | error fault between =>
    rw [hresult] at hemits
    exact ⟨hemits.1, hemits.2.grows⟩

/-- A body keeps the pool sound, and only adds to the class. -/
theorem runAll_sound {ts : List Attempt} {s s' : Encoder} (hs : s.pool.Sound)
    (h : runAll ts s = .ok () s') : s'.pool.Sound ∧ s.Grows s' := by
  induction ts generalizing s with
  | nil =>
    obtain ⟨-, rfl⟩ := pure_eq_ok.mp h
    exact ⟨hs, .refl _ _⟩
  | cons t ts ih =>
    obtain ⟨_, between, hfirst, hrest⟩ := bind_eq_ok.mp h
    obtain ⟨hsound, hgrows⟩ := run_sound hs hfirst
    obtain ⟨hsound', hgrows'⟩ := ih hsound hrest
    exact ⟨hsound', hgrows.trans hgrows'⟩

/-- The last choice among more entries starts from the choice of the first. -/
theorem filterMap_getLastD_cons {α β : Type} (f : α → Option β) (a : α) (as : List α) (b : β) :
    ((a :: as).filterMap f).getLastD b = (as.filterMap f).getLastD ((f a).getD b) := by
  cases hfirst : f a with
  | none => rw [List.filterMap_cons_none hfirst, Option.getD_none]
  | some b' => rw [List.filterMap_cons_some hfirst, List.getLastD_cons, Option.getD_some]

/-- A limit of a body is the one that was set last. -/
theorem limit_runAll {limit : Encoder → UInt16} {set? : Emission → Option UInt16}
    (hset : ∀ (e : Emission) s, limit (Encoder.after e.run s) = (set? e).getD (limit s))
    {ts : List Attempt} {s s' : Encoder} (h : runAll ts s = .ok () s') :
    limit s' = (ts.filterMap fun t => set? t.emission).getLastD (limit s) := by
  induction ts generalizing s with
  | nil =>
    obtain ⟨-, rfl⟩ := pure_eq_ok.mp h
    rfl
  | cons t ts ih =>
    obtain ⟨_, between, hfirst, hrest⟩ := bind_eq_ok.mp h
    have hfirstSet := hset t.emission s
    rw [← eq_after_of_run hfirst] at hfirstSet
    -- what the first call sets is what the others start from
    rw [ih hrest, hfirstSet, filterMap_getLastD_cons]

/-- The stack is as deep as the last call that set it says. -/
theorem maxStack_runAll {ts : List Attempt} {s s' : Encoder} (h : runAll ts s = .ok () s') :
    s'.maxStack = (ts.filterMap fun t => t.emission.maxStack?).getLastD s.maxStack :=
  limit_runAll (fun e s => (e.limits_run s).1) h

theorem maxLocals_runAll {ts : List Attempt} {s s' : Encoder} (h : runAll ts s = .ok () s') :
    s'.maxLocals = (ts.filterMap fun t => t.emission.maxLocals?).getLastD s.maxLocals :=
  limit_runAll (fun e s => (e.limits_run s).2) h

end Attempt

end Backref
