import Backref.Proofs.Discovery.Search

/-!
# Where a search stops

A search that meets a fault leaves behind what it has found before. So beside
the lists of references that it may add when it succeeds (`Discovery.Finds`),
a search has lists that it may add when it fails, each with its fault
(`Discovery.Stops`). A search that is put together from others fails in one of
its parts, and adds what the parts before it add.

Main results:

* `Discovery.Stops.bind`, `Discovery.Stops.ofExcept`, `Discovery.Stops.visitAll` —
  where the parts of a search stop, the whole stops in one of them;
* `Discovery.Adds.of_finds` — what a search adds, wherever it ends;
* `Discovery.stops_instruction` — an instruction with a fault refers to
  nothing, unless it is a lambda expression with a malformed descriptor;
* `Discovery.stops_visitMethod` — where a method stops.
-/

namespace Backref

namespace Discovery

/-- A search fails by adding one of the lists that a predicate describes, with
the fault that goes with it, and in no other way. -/
def Stops (x : Discovery Unit) (S : Fault → List Reference → Prop) : Prop :=
  ∀ found found' f, x found = .error f found' ↔ ∃ rs, S f rs ∧ found'.toList = found.toList ++ rs

-- ---------------------------------------------------------------------------
-- Putting searches together
-- ---------------------------------------------------------------------------

namespace Stops

variable {α : Type} {x y : Discovery Unit} {P : List Reference → Prop}
  {S T : Fault → List Reference → Prop}

theorem congr (hx : Stops x S) (h : ∀ f rs, S f rs ↔ T f rs) : Stops x T := by
  intro found found' f
  rw [hx]
  exact exists_congr fun rs => and_congr_left' (h f rs)

/-- A search that always succeeds. -/
theorem never (h : ∀ found, ∃ found', x found = .ok () found') : Stops x fun _ _ => False := by
  intro found found' f
  obtain ⟨found'', hx⟩ := h found
  rw [hx]
  simp

theorem pure : Stops (pure ()) fun _ _ => False := never fun found => ⟨found, rfl⟩

theorem note (user target : Symbol) : Stops (note user target) fun _ _ => False :=
  never fun found => ⟨found.push ⟨target, user⟩, rfl⟩

/-- One search after another stops in the first, or in the second with what the first has found. -/
theorem bind (hx : Stops x S) (hfinds : Finds x P) (hy : Stops y T) :
    Stops (do x; y) fun f rs => S f rs ∨ ∃ as bs, P as ∧ T f bs ∧ rs = as ++ bs := by
  intro found found' f
  show (x >>= fun _ => y) found = _ ↔ _
  rw [bind_eq_error]
  -- a stop of the second step leaves what the first has found
  constructor
  · intro h
    rcases h with hfirst | ⟨_, between, hfirst, hsecond⟩
    · obtain ⟨rs, hrs, hfound'⟩ := (hx found found' f).mp hfirst
      exact ⟨rs, .inl hrs, hfound'⟩
    · obtain ⟨as, has, hbetween⟩ := (hfinds found between).mp hfirst
      obtain ⟨bs, hbs, hfound'⟩ := (hy between found' f).mp hsecond
      exact ⟨as ++ bs, .inr ⟨as, bs, has, hbs, rfl⟩, by
        rw [hfound', hbetween, List.append_assoc]⟩
  · intro h
    obtain ⟨rs, hrs | ⟨as, bs, has, hbs, rfl⟩, hfound'⟩ := h
    · exact .inl ((hx found found' f).mpr ⟨rs, hrs, hfound'⟩)
    · have hfirst : x found = .ok () (found.toList ++ as).toArray :=
        (hfinds _ _).mpr ⟨as, has, rfl⟩
      have hsecond : y (found.toList ++ as).toArray = .error f found' :=
        (hy _ _ _).mpr ⟨bs, hbs, by rw [hfound', List.append_assoc]⟩
      exact .inr ⟨(), _, hfirst, hsecond⟩

/-- A search that starts from a value stops there with nothing found, or as it does for that. -/
theorem ofExcept {f : α → Discovery Unit} {S : α → Fault → List Reference → Prop}
    (v : Except Fault α) (hf : ∀ a, Stops (f a) (S a)) :
    Stops (do f (← MonadExcept.ofExcept v)) fun e rs =>
      (v = .error e ∧ rs = []) ∨ ∃ a, v = .ok a ∧ S a e rs := by
  intro found found' e
  -- a result that is missing stops before anything is found
  cases v with
  | error e' =>
    show EStateM.Result.error e' found = _ ↔ _
    rw [EStateM.Result.error.injEq]
    constructor
    · intro h
      obtain ⟨rfl, rfl⟩ := h
      exact ⟨[], .inl ⟨rfl, rfl⟩, by simp⟩
    · intro h
      obtain ⟨_, ⟨h, rfl⟩ | ⟨_, h, -⟩, hfound'⟩ := h
      · exact ⟨Except.error.inj h, Array.ext' (by simpa using hfound'.symm)⟩
      · cases h
  | ok a =>
    show f a found = _ ↔ _
    rw [hf a]
    refine exists_congr fun rs => and_congr_left' ?_
    simp

/-- Visiting some entries stops at the first that stops, behind what the ones
before it have found. -/
theorem visitAll {visit : α → Discovery Unit} {P : α → List Reference → Prop}
    {S : α → Fault → List Reference → Prop} (hvisit : ∀ a, Stops (visit a) (S a))
    (hfinds : ∀ a, Finds (visit a) (P a)) (as : List α) :
    Stops (visitAll visit as) (Interrupted P S as) := by
  induction as with
  | nil => exact pure.congr fun f rs => iff_of_false id not_interrupted_nil
  | cons a as ih =>
    exact ((hvisit a).bind (hfinds a) ih).congr fun f rs => interrupted_cons.symm

/-! ### References of one user -/

variable {user : Symbol} {Q : List Symbol → Prop} {U V : Fault → List Symbol → Prop}

/-- What has been noted by a stop may be described in any other way that says the same. -/
theorem congr_noted (hx : Stops x fun f => Noted user (U f)) (h : ∀ f ts, U f ts ↔ V f ts) :
    Stops x fun f => Noted user (V f) :=
  hx.congr fun f _ => exists_congr fun ts => and_congr_left' (h f ts)

/-- What never stops stops nowhere with references of a user. -/
theorem never_noted (hx : Stops x fun _ _ => False) :
    Stops x fun _ => Noted user fun _ => False :=
  hx.congr fun f rs => by simp [Noted]

/-- Two steps for one user stop where the first does, or where the second does
behind what the first has noted. -/
theorem andThen (hx : Stops x fun f => Noted user (U f)) (hfinds : Finds x (Noted user Q))
    (hy : Stops y fun f => Noted user (V f)) :
    Stops (do x; y) fun f => Noted user fun ts =>
      U f ts ∨ ∃ us vs, Q us ∧ V f vs ∧ ts = us ++ vs := by
  refine (hx.bind hfinds hy).congr fun f rs => ?_
  constructor
  · intro h
    rcases h with ⟨ts, hts, rfl⟩ | ⟨_, _, ⟨us, hus, rfl⟩, ⟨vs, hvs, rfl⟩, rfl⟩
    · exact ⟨ts, .inl hts, rfl⟩
    · exact ⟨us ++ vs, .inr ⟨us, vs, hus, hvs, rfl⟩, by simp [noted]⟩
  · intro h
    obtain ⟨_, hts | ⟨us, vs, hus, hvs, rfl⟩, rfl⟩ := h
    · exact .inl ⟨_, hts, rfl⟩
    · exact .inr ⟨_, _, ⟨us, hus, rfl⟩, ⟨vs, hvs, rfl⟩, by simp [noted]⟩

/-- A search that starts with a look-up stops there, or as it does for what is looked up. -/
theorem lookup (v : Except Fault α) {f : α → Discovery Unit} {U : α → Fault → List Symbol → Prop}
    (hf : ∀ a, Stops (f a) fun e => Noted user (U a e)) :
    Stops (do f (← MonadExcept.ofExcept v)) fun e => Noted user fun ts =>
      (v = .error e ∧ ts = []) ∨ ∃ a, v = .ok a ∧ U a e ts := by
  refine (ofExcept v hf).congr fun e rs => ?_
  constructor
  · intro h
    rcases h with ⟨hv, rfl⟩ | ⟨a, ha, ts, hts, rfl⟩
    · exact ⟨[], .inl ⟨hv, rfl⟩, rfl⟩
    · exact ⟨ts, .inr ⟨a, ha, hts⟩, rfl⟩
  · intro h
    obtain ⟨ts, ⟨hv, rfl⟩ | ⟨a, ha, hts⟩, rfl⟩ := h
    · exact .inl ⟨hv, rfl⟩
    · exact .inr ⟨a, ha, ts, hts, rfl⟩

/-- A look-up before a search that stops with nothing found stops with nothing found. -/
theorem lookup_silent (v : Except Fault α) {f : α → Discovery Unit} {F : α → Fault → Prop}
    (hf : ∀ a, Stops (f a) fun e => Noted user fun ts => F a e ∧ ts = []) :
    Stops (do f (← MonadExcept.ofExcept v)) fun e => Noted user fun ts =>
      (v = .error e ∨ ∃ a, v = .ok a ∧ F a e) ∧ ts = [] := by
  refine (lookup v hf).congr_noted fun e ts => ?_
  constructor
  · intro h
    rcases h with ⟨hv, hts⟩ | ⟨a, ha, hfault, hts⟩
    · exact ⟨.inl hv, hts⟩
    · exact ⟨.inr ⟨a, ha, hfault⟩, hts⟩
  · intro h
    obtain ⟨hv | ⟨a, ha, hfault⟩, hts⟩ := h
    · exact .inl ⟨hv, hts⟩
    · exact .inr ⟨a, ha, hfault, hts⟩

/-- A look-up before a search that always succeeds is where the two stop. -/
theorem lookup_only (v : Except Fault α) {f : α → Discovery Unit}
    (hf : ∀ a, Stops (f a) fun _ _ => False) :
    Stops (do f (← MonadExcept.ofExcept v)) fun e => Noted user fun ts => v = .error e ∧ ts = [] :=
  (lookup v fun a => (hf a).never_noted).congr_noted fun e ts => by simp

end Stops

-- ---------------------------------------------------------------------------
-- What a search adds, wherever it ends
-- ---------------------------------------------------------------------------

/-- A search keeps what has been found and adds references of some kind only. -/
def Adds (G : Reference → Prop) (x : Discovery Unit) : Prop :=
  ∀ found, ∃ rs, (∀ r ∈ rs, G r) ∧
    (Findings.ofResult (x found)).references.toList = found.toList ++ rs

namespace Adds

variable {G : Reference → Prop} {x y : Discovery Unit}

/-- What a visit finds and what it stops with together are what it adds. -/
theorem of_finds {P : List Reference → Prop} {S : Fault → List Reference → Prop}
    (hfinds : Finds x P) (hstops : Stops x S) (hP : ∀ rs, P rs → ∀ r ∈ rs, G r)
    (hS : ∀ f rs, S f rs → ∀ r ∈ rs, G r) : Adds G x := by
  intro found
  cases hx : x found with
  | ok u found' =>
    obtain ⟨rs, hrs, hfound'⟩ := (hfinds found found').mp hx
    exact ⟨rs, hP rs hrs, hfound'⟩
  | error f found' =>
    obtain ⟨rs, hrs, hfound'⟩ := (hstops found found' f).mp hx
    exact ⟨rs, hS f rs hrs, hfound'⟩

/-- Two visits add what each of them adds. -/
theorem bind (hx : Adds G x) (hy : Adds G y) : Adds G (do x; y) := by
  intro found
  show ∃ rs, _ ∧ (Findings.ofResult ((x >>= fun _ => y) found)).references.toList = _
  have hfirst := hx found
  -- a first visit that stops is all that is added
  cases hresult : x found with
  | ok u between =>
    rw [hresult] at hfirst
    obtain ⟨rs, hrs, hbetween⟩ := hfirst
    obtain ⟨rs', hrs', hfound'⟩ := hy between
    refine ⟨rs ++ rs', ?_, ?_⟩
    · intro r hr
      rcases List.mem_append.mp hr with hr | hr
      · exact hrs r hr
      · exact hrs' r hr
    · rw [bind_of_ok _ hresult, hfound']
      exact (congrArg (· ++ rs') hbetween).trans (List.append_assoc ..)
  | error f found' =>
    rw [hresult] at hfirst
    rwa [bind_of_error _ hresult]

theorem visitAll {α : Type} {visit : α → Discovery Unit} {as : List α}
    (h : ∀ a ∈ as, Adds G (visit a)) : Adds G (visitAll visit as) := by
  induction as with
  | nil => exact of_finds Finds.pure Stops.pure (by simp) (by simp)
  | cons a as ih =>
    exact (h a List.mem_cons_self).bind (ih fun b hb => h b (List.mem_cons_of_mem a hb))

end Adds

-- ---------------------------------------------------------------------------
-- Descriptors, operands and members
-- ---------------------------------------------------------------------------

theorem never_classes (user : Symbol) (names : List String) :
    Stops (noteClasses user names) fun _ _ => False := by
  induction names with
  | nil => exact Stops.pure
  | cons name names ih =>
    exact ((Stops.note _ _).bind (Finds.note _ _) ih).congr fun f rs => by simp

theorem stops_fieldType (user : Symbol) (descriptor : String) :
    Stops (noteFieldType user descriptor) fun f => Noted user fun ts =>
      FieldType.parse descriptor = .error f ∧ ts = [] :=
  Stops.lookup_only _ fun t => never_classes user t.className?.toList

/-- A method descriptor stops where it is malformed, with nothing noted. -/
theorem stops_methodType (user : Symbol) (descriptor : String) :
    Stops (noteMethodType user descriptor) fun f => Noted user fun ts =>
      MethodType.parse descriptor = .error f ∧ ts = [] :=
  Stops.lookup_only _ fun m => never_classes user m.classNames

theorem stops_operand (user : Symbol) (name : String) :
    Stops (noteOperand user name) fun f => Noted user fun ts =>
      FieldType.ofOperand name = .error f ∧ ts = [] :=
  Stops.lookup_only _ fun t => never_classes user t.className?.toList

theorem never_method (user : Symbol) (m : Member) : Stops (noteMethod user m) fun _ _ => False := by
  refine Stops.never fun found => ?_
  have hfinds := (finds_method user m found (found.toList ++ noted user (invoked m)).toArray).mpr
  exact ⟨_, hfinds ⟨_, ⟨_, rfl, rfl⟩, rfl⟩⟩

-- ---------------------------------------------------------------------------
-- Lambda expressions
-- ---------------------------------------------------------------------------

/-- What a list of descriptors refers to up to one that is malformed. -/
def TypesStop (descriptors : List String) (f : Fault) (ts : List Symbol) : Prop :=
  ∃ before d after, descriptors = before ++ d :: after ∧ InOrder MethodTypeRefers before ts ∧
    MethodType.parse d = .error f

/-- Descriptors stop at the first that is malformed. -/
theorem typesStop_iff {descriptors : List String} {f : Fault} {ts : List Symbol} :
    TypesStop descriptors f ts ↔ Interrupted MethodTypeRefers
      (fun d f ts => MethodType.parse d = .error f ∧ ts = []) descriptors f ts := by
  constructor
  · intro h
    obtain ⟨before, d, after, rfl, hbefore, hd⟩ := h
    exact ⟨before, d, after, ts, [], rfl, hbefore, ⟨hd, rfl⟩, (List.append_nil ts).symm⟩
  · intro h
    obtain ⟨before, d, after, us, _, rfl, hbefore, ⟨hd, rfl⟩, rfl⟩ := h
    rw [List.append_nil]
    exact ⟨before, d, after, rfl, hbefore, hd⟩

/-- What has been noted before a stop is noted for one user. -/
theorem interrupted_noted {α : Type} {as : List α} {user : Symbol} {Q : α → List Symbol → Prop}
    {U : α → Fault → List Symbol → Prop} {f : Fault} {rs : List Reference} :
    Interrupted (fun a => Noted user (Q a)) (fun a f => Noted user (U a f)) as f rs ↔
      Noted user (Interrupted Q U as f) rs := by
  constructor
  · intro h
    obtain ⟨before, a, after, _, _, rfl, hbefore, ⟨vs, hvs, rfl⟩, rfl⟩ := h
    obtain ⟨us, hus, rfl⟩ := inOrder_noted.mp hbefore
    exact ⟨us ++ vs, ⟨before, a, after, us, vs, rfl, hus, hvs, rfl⟩, by simp [noted]⟩
  · intro h
    obtain ⟨_, ⟨before, a, after, us, vs, rfl, hus, hvs, rfl⟩, rfl⟩ := h
    refine ⟨before, a, after, noted user us, noted user vs, rfl, inOrder_noted.mpr ⟨us, hus, rfl⟩,
      ⟨vs, hvs, rfl⟩, ?_⟩
    simp [noted]

/-- Method descriptors stop at the first that is malformed, behind what those
before it have noted. -/
theorem stops_methodTypes (user : Symbol) (descriptors : List String) :
    Stops (noteMethodTypes user descriptors) fun f => Noted user (TypesStop descriptors f) := by
  rw [noteMethodTypes_eq_visitAll]
  refine (Stops.visitAll (stops_methodType user) (finds_methodType user) descriptors).congr
    fun f rs => ?_
  rw [interrupted_noted]
  exact exists_congr fun ts => and_congr_left' typesStop_iff.symm

theorem never_handled (user : Symbol) (kind : HandleKind) (m : Member) :
    Stops (if kind.isField then noteField user m else noteMethod user m) fun _ _ => False := by
  split
  · exact Stops.note _ _
  · exact never_method user m

/-- A handle always refers to something. -/
theorem handled_ne_nil (kind : HandleKind) (m : Member) : handled kind m ≠ [] := by
  intro h
  unfold handled invoked at h
  split at h
  · cases h
  · cases h

/-- What a lambda expression refers to up to a descriptor that is malformed: its
implementation, and the classes in the descriptors before that one. -/
def LambdaStops (l : LambdaTargets) (f : Fault) (ts : List Symbol) : Prop :=
  ∃ kind ds, HandleKind.ofTag l.implementation.kind = .ok kind ∧ TypesStop l.descriptors f ds ∧
    ts = handled kind l.implementation.member.toMember ++ ds

/-- A lambda expression stops at an unknown kind of handle or at a malformed
descriptor behind it. -/
theorem stops_lambda (user : Symbol) (l : LambdaTargets) :
    Stops (noteLambda user l) fun f => Noted user fun ts =>
      (HandleKind.ofTag l.implementation.kind = .error f ∧ ts = []) ∨ LambdaStops l f ts := by
  rw [noteLambda_eq_bind]
  refine (Stops.lookup _ fun kind => (never_handled user kind _).never_noted.andThen
    (finds_handled user kind _) (stops_methodTypes user l.descriptors)).congr_noted fun f ts => ?_
  refine or_congr_right ?_
  constructor
  · intro h
    obtain ⟨kind, hkind, hnever | ⟨_, ds, rfl, hds, rfl⟩⟩ := h
    · exact hnever.elim
    · exact ⟨kind, ds, hkind, hds, rfl⟩
  · intro h
    obtain ⟨kind, ds, hkind, hds, rfl⟩ := h
    exact ⟨kind, hkind, .inr ⟨_, ds, rfl, hds, rfl⟩⟩

/-- Why a dynamic call site refers to nothing: it cannot be looked up, or it is
a lambda expression whose implementation has a handle of no kind. -/
def CallSiteFaults (c : ClassFile) (index : UInt16) (f : Fault) : Prop :=
  lambda? c index = .error f ∨
    ∃ l, LambdaAt c index l ∧ HandleKind.ofTag l.implementation.kind = .error f

/-- A call site stops where it cannot be looked up or where its lambda expression does. -/
theorem stops_callSite (c : ClassFile) (user : Symbol) (index : UInt16) :
    Stops (noteCallSite c user index) fun f => Noted user fun ts =>
      (CallSiteFaults c index f ∧ ts = []) ∨ ∃ l, LambdaAt c index l ∧ LambdaStops l f ts := by
  refine (Stops.lookup _ (U := fun o f ts => ∃ l, o = some l ∧
    ((HandleKind.ofTag l.implementation.kind = .error f ∧ ts = []) ∨ LambdaStops l f ts))
    ?_).congr_noted fun f ts => ?_
  · intro o
    -- a site that links no lambda expression is passed over
    cases o with
    | none => exact Stops.pure.congr fun f rs => by simp [Noted]
    | some l => exact (stops_lambda user l).congr_noted fun f ts => by simp
  · have hsite : ∀ l, lambda? c index = .ok (some l) ↔ LambdaAt c index l := by
      intro l
      rw [lambda?_eq_ok]
      simp
    constructor
    · intro h
      rcases h with ⟨herror, hts⟩ | ⟨o, ho, l, rfl, ⟨hkind, hts⟩ | hstops⟩
      · exact .inl ⟨.inl herror, hts⟩
      · exact .inl ⟨.inr ⟨l, (hsite l).mp ho, hkind⟩, hts⟩
      · exact .inr ⟨l, (hsite l).mp ho, hstops⟩
    · intro h
      rcases h with ⟨herror | ⟨l, hl, hkind⟩, hts⟩ | ⟨l, hl, hstops⟩
      · exact .inl ⟨herror, hts⟩
      · exact .inr ⟨some l, (hsite l).mpr hl, l, rfl, .inl ⟨hkind, hts⟩⟩
      · exact .inr ⟨some l, (hsite l).mpr hl, l, rfl, .inr hstops⟩

-- ---------------------------------------------------------------------------
-- Instructions
-- ---------------------------------------------------------------------------

/-- Why a class instruction refers to nothing, from the look-up of its operand:
this fails, or its name is no operand. -/
def OperandFaults (v : Except Fault String) (f : Fault) : Prop :=
  v = .error f ∨ ∃ name, v = .ok name ∧ FieldType.ofOperand name = .error f

/-- An operand that is looked up stops where the lookup does or where it is malformed. -/
theorem stops_operand_of_lookup (user : Symbol) (v : Except Fault String) :
    Stops (do noteOperand user (← MonadExcept.ofExcept v)) fun f => Noted user fun ts =>
      OperandFaults v f ∧ ts = [] :=
  Stops.lookup_silent v (stops_operand user)

/-- Why a constant that is loaded refers to nothing although it should: it is a
class whose name is no operand. -/
def ConstantFaults (c : ClassFile) (f : Fault) : Constant → Prop
  | .classInfo j => OperandFaults (c.pool.utf8 j) f
  | _ => False

/-- A constant that is loaded stops where it is not there or does not name what it should. -/
theorem stops_constant (c : ClassFile) (user : Symbol) (index : UInt16) :
    Stops (noteConstant c user index) fun f => Noted user fun ts =>
      (c.pool.get index = .error f ∨ ∃ k, c.pool.get index = .ok k ∧ ConstantFaults c f k) ∧
        ts = [] := by
  refine Stops.lookup_silent _ fun k => ?_
  cases k with
  | classInfo j => exact stops_operand_of_lookup user _
  | _ => exact Stops.pure.congr fun f rs => by simp [Noted, ConstantFaults]

/-- Why an instruction with a pool index refers to nothing although it should,
by the role of its opcode. -/
def IndexFaults (lambdas : Bool) (c : ClassFile) (index : UInt16) (f : Fault) :
    Opcode.Role → Prop
  | .access | .invocation => c.pool.memberRef index = .error f
  | .load => c.pool.get index = .error f ∨ ∃ k, c.pool.get index = .ok k ∧ ConstantFaults c f k
  | .test => OperandFaults (c.pool.className index) f
  | .dynamic => lambdas = true ∧ CallSiteFaults c index f
  | .other => False

/-- Why an instruction refers to nothing although it should. -/
def InstructionFaults (lambdas : Bool) (c : ClassFile) (i : Instruction) (f : Fault) : Prop :=
  ∃ index, i.constantIndex? = some index ∧ IndexFaults lambdas c index f (Opcode.role i.opcode)

/-- A lambda expression that is followed up to a malformed descriptor. -/
def BrokenLambda (lambdas : Bool) (c : ClassFile) (i : Instruction) (f : Fault)
    (ts : List Symbol) : Prop :=
  lambdas = true ∧ i.opcode = Opcode.invokeDynamic ∧ ∃ index l, i.constantIndex? = some index ∧
    LambdaAt c index l ∧ LambdaStops l f ts

/-- What an instruction with a fault refers to. -/
def InstructionStops (lambdas : Bool) (c : ClassFile) (i : Instruction) (f : Fault)
    (ts : List Symbol) : Prop :=
  (InstructionFaults lambdas c i f ∧ ts = []) ∨ BrokenLambda lambdas c i f ts

/-- What an instruction with a fault and a pool index refers to, by the role of its opcode. -/
def IndexStops (lambdas : Bool) (c : ClassFile) (index : UInt16) (f : Fault) (ts : List Symbol)
    (role : Opcode.Role) : Prop :=
  (IndexFaults lambdas c index f role ∧ ts = []) ∨
    role = .dynamic ∧ lambdas = true ∧ ∃ l, LambdaAt c index l ∧ LambdaStops l f ts

/-- An instruction stops at its index, by the role of its opcode. -/
theorem instructionStops_iff {lambdas : Bool} {c : ClassFile} {i : Instruction} {f : Fault}
    {ts : List Symbol} :
    InstructionStops lambdas c i f ts ↔ ∃ index, i.constantIndex? = some index ∧
      IndexStops lambdas c index f ts (Opcode.role i.opcode) := by
  -- the role of a dynamic call is that of its one opcode
  have hdynamic : Opcode.role i.opcode = .dynamic ↔ i.opcode = Opcode.invokeDynamic := by
    rw [Opcode.role_eq_iff (by decide)]
    exact List.mem_singleton
  unfold InstructionStops IndexStops InstructionFaults BrokenLambda
  rw [hdynamic]
  constructor
  · intro h
    rcases h with ⟨⟨index, hindex, hfaults⟩, rfl⟩ | ⟨hlambdas, hop, index, l, hindex, hl, hstops⟩
    · exact ⟨index, hindex, .inl ⟨hfaults, rfl⟩⟩
    · exact ⟨index, hindex, .inr ⟨hop, hlambdas, l, hl, hstops⟩⟩
  · intro h
    obtain ⟨index, hindex, ⟨hfaults, rfl⟩ | ⟨hop, hlambdas, l, hl, hstops⟩⟩ := h
    · exact .inl ⟨⟨index, hindex, hfaults⟩, rfl⟩
    · exact .inr ⟨hlambdas, hop, index, l, hindex, hl, hstops⟩

/-- An instruction stops where its description says. -/
theorem stops_instruction (lambdas : Bool) (c : ClassFile) (user : Symbol) (i : Instruction) :
    Stops (noteInstruction lambdas c user i) fun f =>
      Noted user (InstructionStops lambdas c i f) := by
  refine Stops.congr_noted ?_ fun f ts => instructionStops_iff.symm
  unfold noteInstruction
  cases i.constantIndex? with
  | none => exact Stops.pure.congr fun f rs => by simp [Noted]
  | some index =>
    have hnone : ∀ f ts, (∃ index', some index = some index' ∧
        IndexStops lambdas c index' f ts (Opcode.role i.opcode)) ↔
        IndexStops lambdas c index f ts (Opcode.role i.opcode) := by simp
    refine Stops.congr_noted ?_ fun f ts => (hnone f ts).symm
    unfold Opcode.role
    simp only
    -- the roles are told apart in the order in which the instruction is looked at
    split
    · exact (Stops.lookup_only _ fun m => Stops.note _ _).congr_noted fun f ts => by
        simp [IndexStops, IndexFaults]
    split
    · exact (Stops.lookup_only _ fun m => never_method _ _).congr_noted fun f ts => by
        simp [IndexStops, IndexFaults]
    split
    · exact (stops_constant c user index).congr_noted fun f ts => by
        simp [IndexStops, IndexFaults]
    split
    · exact (stops_operand_of_lookup user _).congr_noted fun f ts => by
        simp [IndexStops, IndexFaults]
    by_cases hdynamic : (i.opcode == Opcode.invokeDynamic) = true
    · rw [if_pos hdynamic, hdynamic]
      cases lambdas with
      | true =>
        exact (stops_callSite c user index).congr_noted fun f ts => by
          simp [IndexStops, IndexFaults]
      | false => exact Stops.pure.congr fun f rs => by simp [Noted, IndexStops, IndexFaults]
    · rw [if_neg hdynamic]
      simp only [Bool.not_eq_true] at hdynamic
      rw [hdynamic]
      exact Stops.pure.congr fun f rs => by simp [Noted, IndexStops, IndexFaults]

/-- Noting nothing is all that leaves nothing noted. -/
theorem noted_eq_nil {user : Symbol} {ts : List Symbol} (h : noted user ts = []) : ts = [] :=
  List.map_eq_nil_iff.mp h

/-- A lambda expression that is followed up to a malformed descriptor refers to something. -/
theorem InstructionFaults.not_brokenLambda {lambdas : Bool} {c : ClassFile} {i : Instruction}
    {f f' : Fault} {ts : List Symbol} (h : InstructionFaults lambdas c i f) :
    ¬ BrokenLambda lambdas c i f' ts := by
  intro hbroken
  -- the search of the instruction ends in one way only
  have hstops := stops_instruction lambdas c (.ofClass "") i #[]
  have hsilent := (hstops #[] f).mpr ⟨[], ⟨[], .inl ⟨h, rfl⟩, rfl⟩, rfl⟩
  have hloud := (hstops (noted (.ofClass "") ts).toArray f').mpr
    ⟨_, ⟨ts, .inr hbroken, rfl⟩, rfl⟩
  rw [hsilent, EStateM.Result.error.injEq] at hloud
  have hnil : ts = [] := noted_eq_nil (congrArg Array.toList hloud.2).symm
  obtain ⟨-, -, _, l, -, -, kind, ds, -, -, hts⟩ := hbroken
  rw [hnil] at hts
  exact handled_ne_nil kind _ (List.append_eq_nil_iff.mp hts.symm).1

-- ---------------------------------------------------------------------------
-- Code arrays
-- ---------------------------------------------------------------------------

/-- The search through a code array stops at a place of it: there is no
instruction there, or one with a fault. -/
inductive StopsAt (lambdas : Bool) (c : ClassFile) (d : Cursor) (f : Fault) : List Symbol → Prop
  | unreadable {d' : Cursor} (hread : Instruction.read d = .error f d') (hmore : d.ahead ≠ []) :
      StopsAt lambdas c d f []
  | instruction {i : Instruction} {d' : Cursor} {ts : List Symbol}
      (hread : Instruction.read d = .ok i d') (hstops : InstructionStops lambdas c i f ts) :
      StopsAt lambdas c d f ts

/-- What an item of a walk refers to, if the search stops at it. -/
def ItemStops (lambdas : Bool) (c : ClassFile) (item : Except Fault Instruction) (f : Fault)
    (ts : List Symbol) : Prop :=
  (item = .error f ∧ ts = []) ∨ ∃ i, item = .ok i ∧ InstructionStops lambdas c i f ts

/-- Code stops at an item: a fault, or an instruction that stops. -/
theorem stopsAt_iff {lambdas : Bool} {c : ClassFile} {d : Cursor} {f : Fault} {ts : List Symbol} :
    StopsAt lambdas c d f ts ↔ ∃ item, Walk.ItemAt d item ∧ ItemStops lambdas c item f ts := by
  constructor
  · intro h
    cases h with
    | unreadable hread hmore =>
      exact ⟨_, (Walk.itemAt_of_fault hread hmore).mpr rfl, .inl ⟨rfl, rfl⟩⟩
    | instruction hread hstops =>
      exact ⟨_, (Walk.itemAt_of_read hread).mpr rfl, .inr ⟨_, rfl, hstops⟩⟩
  · intro h
    obtain ⟨item, hitem, hstops⟩ := h
    -- there is no item at the end
    have hmore : d.ahead ≠ [] := fun hend => Walk.not_itemAt_end hend hitem
    cases hread : Instruction.read d with
    | ok i d' =>
      obtain rfl := (Walk.itemAt_of_read hread).mp hitem
      rcases hstops with ⟨h, -⟩ | ⟨i', h, hstops⟩
      · cases h
      · cases h
        exact .instruction hread hstops
    | error f' d' =>
      obtain rfl := (Walk.itemAt_of_fault hread hmore).mp hitem
      rcases hstops with ⟨h, rfl⟩ | ⟨i', h, -⟩
      · cases h
        exact .unreadable hread hmore
      · cases h

/-- What a code array refers to up to where the search stops: what the array
refers to that is cut off there, and what is found at the place itself. -/
def CodeStops (lambdas : Bool) (c : ClassFile) (code : Bytes) (f : Fault) (ts : List Symbol) :
    Prop :=
  ∃ (d : Cursor) (us vs : List Symbol), d.data = code ∧
    CodeRefers lambdas c (code.take d.pos) us ∧ StopsAt lambdas c d f vs ∧ ts = us ++ vs

/-- An item stops as a fault or as its instruction. -/
theorem stops_item (lambdas : Bool) (c : ClassFile) (user : Symbol)
    (item : Except Fault Instruction) :
    Stops (do noteInstruction lambdas c user (← MonadExcept.ofExcept item)) fun f =>
      Noted user (ItemStops lambdas c item f) :=
  Stops.lookup item (stops_instruction lambdas c user)

/-- Code stops at the first item that stops, behind what the instructions before
it have noted. -/
theorem stops_code (lambdas : Bool) (c : ClassFile) (user : Symbol) (code : Bytes) :
    Stops (noteItems lambdas c user (Walk.items code).toList) fun f =>
      Noted user (CodeStops lambdas c code f) := by
  rw [noteItems_eq]
  refine ((Stops.visitAll (stops_item lambdas c user) (finds_item lambdas c user) _).congr
    fun f rs => interrupted_noted).congr_noted fun f ts => ?_
  -- an item is reached behind instructions that tile the bytes before it
  constructor
  · intro h
    obtain ⟨before, item, after, us, vs, hitems, hbefore, hstops, rfl⟩ := h
    obtain ⟨is, rfl, his⟩ := inOrder_items.mp hbefore
    obtain ⟨d, hdata, htiled, hat⟩ := Walk.items_append_iff.mp ⟨after, hitems⟩
    exact ⟨d, us, vs, hdata, ⟨is, htiled, his⟩, stopsAt_iff.mpr ⟨item, hat, hstops⟩, rfl⟩
  · intro h
    obtain ⟨d, us, vs, hdata, ⟨is, htiled, his⟩, hstops, rfl⟩ := h
    obtain ⟨item, hat, hstops⟩ := stopsAt_iff.mp hstops
    obtain ⟨after, hitems⟩ := Walk.items_append_iff.mpr ⟨d, hdata, htiled, hat⟩
    exact ⟨_, item, after, us, vs, hitems, inOrder_items.mpr ⟨is, rfl, his⟩, hstops, rfl⟩

-- ---------------------------------------------------------------------------
-- Members
-- ---------------------------------------------------------------------------

/-- The references that a field with a fault makes: none. -/
def FieldStops (c : ClassFile) (owner : String) (x : Field) (f : Fault) (rs : List Reference) :
    Prop :=
  rs = [] ∧ (member c owner x.name x.descriptor = .error f ∨
    ∃ m, Declares c owner x.name x.descriptor m ∧ FieldType.parse m.descriptor = .error f)

theorem stops_visitField (c : ClassFile) (owner : String) (x : Field) :
    Stops (visitField c owner x) (FieldStops c owner x) := by
  refine (Stops.ofExcept _ fun m => stops_fieldType (.field m) m.descriptor).congr fun f rs => ?_
  simp only [member_eq_ok, FieldStops]
  constructor
  · intro h
    rcases h with ⟨hm, rfl⟩ | ⟨m, hm, _, ⟨ht, rfl⟩, rfl⟩
    · exact ⟨rfl, .inl hm⟩
    · exact ⟨rfl, .inr ⟨m, hm, ht⟩⟩
  · intro h
    obtain ⟨rfl, hm | ⟨m, hm, ht⟩⟩ := h
    · exact .inl ⟨hm, rfl⟩
    · exact .inr ⟨m, hm, [], ⟨ht, rfl⟩, rfl⟩

/-- What a method refers to up to where the search of it stops: nothing if its
descriptor is malformed; otherwise the classes in its descriptor, then what its code
refers to up to there. -/
def DeclaredStops (lambdas : Bool) (c : ClassFile) (descriptor : String) (body : Option Code)
    (f : Fault) (ts : List Symbol) : Prop :=
  (MethodType.parse descriptor = .error f ∧ ts = []) ∨
    ∃ code us vs, body = some code ∧ MethodTypeRefers descriptor us ∧
      CodeStops lambdas c code.bytes f vs ∧ ts = us ++ vs

/-- The references that a method with a fault makes. -/
def MethodStops (lambdas : Bool) (c : ClassFile) (owner : String) (x : Method) (f : Fault)
    (rs : List Reference) : Prop :=
  (member c owner x.name x.descriptor = .error f ∧ rs = []) ∨
    ∃ declared, Declares c owner x.name x.descriptor declared ∧
      Noted (.method declared) (DeclaredStops lambdas c declared.descriptor x.code f) rs

/-- Visiting a method visits its code if it has any. -/
theorem visitMethod_eq_elim (lambdas : Bool) (c : ClassFile) (owner : String) (x : Method) :
    visitMethod lambdas c owner x = (do
      let declared ← MonadExcept.ofExcept (member c owner x.name x.descriptor)
      noteMethodType (.method declared) declared.descriptor
      x.code.elim (pure ()) fun code =>
        noteItems lambdas c (.method declared) (Walk.items code.bytes).toList) := by
  unfold visitMethod
  cases x.code with
  | none => rfl
  | some code => rfl

/-- A method stops where its name, its descriptor or its code does. -/
theorem stops_visitMethod (lambdas : Bool) (c : ClassFile) (owner : String) (x : Method) :
    Stops (visitMethod lambdas c owner x) (MethodStops lambdas c owner x) := by
  -- a method without code stops nowhere in it
  have hbody : ∀ user : Symbol, Stops (x.code.elim (pure ()) fun code =>
      noteItems lambdas c user (Walk.items code.bytes).toList) fun f =>
      Noted user fun ts => ∃ code, x.code = some code ∧ CodeStops lambdas c code.bytes f ts := by
    intro user
    cases x.code with
    | none => exact Stops.pure.congr fun f rs => by simp [Noted]
    | some code => exact (stops_code lambdas c user code.bytes).congr_noted fun f ts => by simp
  rw [visitMethod_eq_elim]
  refine (Stops.ofExcept _ fun declared => (stops_methodType (.method declared)
    declared.descriptor).andThen (finds_methodType _ _) (hbody (.method declared))).congr
    fun f rs => ?_
  simp only [member_eq_ok, MethodStops]
  refine or_congr_right (exists_congr fun declared => and_congr_right' ?_)
  refine exists_congr fun ts => and_congr_left' (or_congr_right ?_)
  constructor
  · intro h
    obtain ⟨us, vs, hus, ⟨code, hcode, hvs⟩, rfl⟩ := h
    exact ⟨code, us, vs, hcode, hus, hvs, rfl⟩
  · intro h
    obtain ⟨code, us, vs, hcode, hus, hvs, rfl⟩ := h
    exact ⟨us, vs, hus, ⟨code, hcode, hvs⟩, rfl⟩

end Discovery

end Backref
