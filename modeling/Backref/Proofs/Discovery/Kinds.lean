import Backref.Proofs.Bytecode.Exact
import Backref.Proofs.Constant.Lookups
import Backref.Proofs.Discovery.Stopping

/-!
# Members and the kinds of their references

Accesses and invocations name a member through a reference constant, and so
does the handle of a lambda expression's implementation. A search refuses what
names no member at such a place. Of a member, it does not look at the kind of
the reference: it is the instruction, or the kind of the handle, that tells a
field from a method.

Main results:

* `Discovery.visitClass_of_reaches` — a search that comes to an instruction
  goes on with it, and then only adds;
* `Findings.named_of_reported` — the members that are reported are those of
  reference constants;
* `Findings.members_of_any_kind` — what is refused, and what is reported.
-/

namespace Backref

open Discovery

namespace OnlyMalformed

variable (i : UInt16) (c : ClassFile)

theorem bootstrapMethod : OnlyMalformed (c.bootstrapMethod i) := by
  unfold ClassFile.bootstrapMethod
  split
  · exact ok _
  · exact error _

theorem lambda? : OnlyMalformed (lambda? c i) := by
  refine (callSite c.pool i).bind fun site => (bootstrapMethod _ c).bind fun b =>
    (methodHandle c.pool _).bind fun handle => ?_
  split
  · split
    · exact (methodType c.pool _).bind fun _ => (methodHandle c.pool _).bind fun _ =>
        (methodType c.pool _).bind fun _ => ok _
    · exact error _
  · exact ok _

end OnlyMalformed

namespace Discovery

-- ---------------------------------------------------------------------------
-- Instructions that a search comes to
-- ---------------------------------------------------------------------------

/-- The search of a class comes to an instruction at a place in the code of a
method: up to there it meets no fault. -/
structure Reaches (lambdas : Bool) (c : ClassFile) (j : Nat) (d : Cursor) (i : Instruction) :
    Prop where
  code : ∃ x code, c.methods[j]? = some x ∧ x.code = some code ∧ d.data = code.bytes
  faultless : (Findings.upTo lambdas c j d.pos).fault = none
  read : ∃ d', Instruction.read d = .ok i d'

variable {lambdas : Bool} {c : ClassFile} {owner : String}

/-- A class is visited up to a method, then at that method, then behind it. -/
theorem visitClass_split (howner : c.name = .ok owner) {j : Nat} {x : Method}
    (hx : c.methods[j]? = some x) :
    visitClass lambdas c = (do
      visitClass lambdas (c.declaring (c.fields.size + j))
      visitMethod lambdas c owner x
      visitAll (visitMethod lambdas c owner) (c.methods.toList.drop (j + 1))) := by
  obtain ⟨hj, hx'⟩ := List.getElem?_eq_some_iff.mp (Array.getElem?_toList.trans hx)
  have hfields : ∀ n, c.fields.toList.take (c.fields.size + n) = c.fields.toList := by
    intro n
    exact List.take_of_length_le (by simp)
  -- the method stands between those before it and those behind it
  have hmethods : c.methods.toList.take c.methods.size =
      c.methods.toList.take j ++ x :: c.methods.toList.drop (j + 1) := by
    rw [← hx', ← List.drop_eq_getElem_cons, List.take_append_drop]
    exact List.take_of_length_le (by simp)
  conv_lhs => rw [← c.declaring_memberCount]
  rw [visitClass_declaring howner, visitClass_declaring howner, ClassFile.memberCount, hfields,
    hfields, Nat.add_sub_cancel_left, Nat.add_sub_cancel_left, hmethods, visitAll_append, visitAll,
    bind_assoc]

theorem noteItems_append (user : Symbol) (before after : List (Except Fault Instruction)) :
    noteItems lambdas c user (before ++ after) =
      (do noteItems lambdas c user before; noteItems lambdas c user after) := by
  rw [noteItems_eq, noteItems_eq, noteItems_eq, visitAll_append]

/-- Where a method is searched without a fault up to an instruction, the search
of it goes on with the instruction. -/
theorem visitMethod_of_cut {x : Method} {code : Code} {d d' : Cursor} {i : Instruction}
    {found found' : Array Reference} (hcode : x.code = some code) (hdata : d.data = code.bytes)
    (hread : Instruction.read d = .ok i d')
    (hcut : visitMethod lambdas c owner (x.cut d.pos) found = .ok () found') :
    ∃ declared after, Declares c owner x.name x.descriptor declared ∧
      visitMethod lambdas c owner x found = (do
        noteInstruction lambdas c (.method declared) i
        noteItems lambdas c (.method declared) after) found' := by
  obtain ⟨_, ⟨declared, hmember, _, ⟨us, vs, -, hbody, -⟩, -⟩, -⟩ :=
    (finds_visitMethod lambdas c owner (x.cut d.pos) found found').mp hcut
  have hdeclared : Declares c owner x.name x.descriptor declared := hmember
  have hbody' : CodeRefers lambdas c (code.bytes.take d.pos) vs := by
    rw [Method.cut, hcode] at hbody
    exact hbody
  obtain ⟨is, htiled, -⟩ := hbody'
  -- the walks through the two code arrays come to the place in the same way
  have hbefore := Walk.items_eq_iff.mpr htiled
  obtain ⟨after, hitems⟩ :=
    Walk.items_append_iff.mpr ⟨d, hdata, htiled, (Walk.itemAt_of_read hread).mpr rfl⟩
  refine ⟨declared, after, hdeclared, ?_⟩
  have hname := member_eq_ok.mpr hdeclared
  have hvisit : visitMethod lambdas c owner (x.cut d.pos) = (do
      noteMethodType (.method declared) declared.descriptor
      noteItems lambdas c (.method declared) (is.map .ok)) := by
    unfold visitMethod Method.cut
    simp only [hname, MonadExcept.ofExcept, pure_bind, hcode, Option.map_some, hbefore]
  have hwhole : visitMethod lambdas c owner x = (do
      noteMethodType (.method declared) declared.descriptor
      noteItems lambdas c (.method declared) (is.map .ok)
      noteInstruction lambdas c (.method declared) i
      noteItems lambdas c (.method declared) after) := by
    unfold visitMethod
    simp only [hname, MonadExcept.ofExcept, pure_bind, hcode, hitems, noteItems_append, noteItems]
  rw [hvisit] at hcut
  rw [hwhole, ← bind_assoc, bind_of_ok _ hcut]

/-- A search that comes to an instruction has found what it finds up to there. It
goes on with the instruction, and with something that only adds. -/
theorem visitClass_of_reaches (howner : c.name = .ok owner) {j : Nat} {d : Cursor}
    {i : Instruction} (h : Reaches lambdas c j d i) :
    ∃ user rest, c.SymbolAt owner (c.fields.size + j) user ∧ Adds (fun _ => True) rest ∧
      visitClass lambdas c #[] = (do noteInstruction lambdas c user i; rest)
        (Findings.upTo lambdas c j d.pos).references := by
  obtain ⟨x, code, hx, hcode, hdata⟩ := h.code
  obtain ⟨d', hread⟩ := h.read
  have hfaultless := h.faultless
  unfold Findings.upTo Findings.ofFirst Findings.ofClass at hfaultless ⊢
  rw [visitClass_declaring_cut howner hx] at hfaultless ⊢
  obtain ⟨found', hok⟩ := Findings.exists_ok_of_fault_eq_none hfaultless
  obtain ⟨u, found, hbefore, hcut⟩ := bind_eq_ok.mp hok
  obtain ⟨declared, after, hdeclared, hvisit⟩ := visitMethod_of_cut hcode hdata hread hcut
  -- what is left is the rest of the code and the methods behind it
  refine ⟨.method declared, do
    noteItems lambdas c (.method declared) after
    visitAll (visitMethod lambdas c owner) (c.methods.toList.drop (j + 1)), .method hx hdeclared,
    ?_, ?_⟩
  · refine Adds.bind ?_ (Adds.visitAll fun x _ =>
      Adds.of_finds (finds_visitMethod lambdas c owner x)
        (stops_visitMethod lambdas c owner x) (by simp) (by simp))
    rw [noteItems_eq]
    exact Adds.visitAll fun item _ => Adds.of_finds (finds_item lambdas c _ item)
      (stops_item lambdas c _ item) (by simp) (by simp)
  · rw [hok, visitClass_split howner hx, bind_of_ok _ hbefore, ← bind_assoc]
    exact bind_of_eq _ hvisit

/-- A search of descriptors comes to the end, or stops at one that is malformed. -/
theorem methodTypes_or_stop (descriptors : List String) :
    (∃ ts, InOrder MethodTypeRefers descriptors ts) ∨ ∃ f ts, TypesStop descriptors f ts := by
  cases hsearch : noteMethodTypes (.ofClass "") descriptors #[] with
  | ok u found =>
    obtain ⟨_, ⟨ts, hts, -⟩, -⟩ := (finds_methodTypes _ descriptors #[] found).mp hsearch
    exact .inl ⟨ts, hts⟩
  | error f found =>
    obtain ⟨_, ⟨ts, hts, -⟩, -⟩ := (stops_methodTypes _ descriptors #[] found f).mp hsearch
    exact .inr ⟨f, ts, hts⟩

-- ---------------------------------------------------------------------------
-- Members that are reported
-- ---------------------------------------------------------------------------

/-- Of some symbols, all members are named by reference constants, of whatever kind. -/
def NamedByReferences (c : ClassFile) (ts : List Symbol) : Prop :=
  ∀ t ∈ ts, ∀ m, t = .field m ∨ t = .method m →
    ∃ index r, c.pool.NamesMember index r ∧ r.toMember = m

namespace NamedByReferences

theorem nil : NamedByReferences c [] := by
  intro t ht
  cases ht

theorem append {us vs : List Symbol} (hus : NamedByReferences c us)
    (hvs : NamedByReferences c vs) : NamedByReferences c (us ++ vs) := by
  intro t ht
  rcases List.mem_append.mp ht with ht | ht
  · exact hus t ht
  · exact hvs t ht

/-- Classes are no members, so they need no reference. -/
theorem classes (names : List String) : NamedByReferences c (classes names) := by
  intro t ht m hm
  obtain ⟨name, -, rfl⟩ := mem_classes.mp ht
  rcases hm with h | h
  · cases h
  · cases h

variable {index : UInt16} {r : MemberRef}

theorem field (hr : c.pool.NamesMember index r) : NamedByReferences c [.field r.toMember] := by
  intro t ht m hm
  obtain rfl := List.mem_singleton.mp ht
  rcases hm with h | h
  · cases h
    exact ⟨index, r, hr, rfl⟩
  · cases h

theorem invoked (hr : c.pool.NamesMember index r) : NamedByReferences c (invoked r.toMember) := by
  intro t ht m hm
  rcases mem_invoked.mp ht with rfl | ⟨-, rfl⟩
  · rcases hm with h | h
    · cases h
    · cases h
      exact ⟨index, r, hr, rfl⟩
  · rcases hm with h | h
    · cases h
    · cases h

/-- What a handle refers to is named by the reference to its member. -/
theorem handled (hr : c.pool.NamesMember index r) (kind : HandleKind) :
    NamedByReferences c (handled kind r.toMember) := by
  unfold Discovery.handled
  split
  · exact field hr
  · exact invoked hr

/-- Where each entry of a list refers to such symbols, so does the whole. -/
theorem inOrder {α : Type} {P : α → List Symbol → Prop} {as : List α} {ts : List Symbol}
    (h : InOrder P as ts) (hP : ∀ a us, P a us → NamedByReferences c us) :
    NamedByReferences c ts := by
  induction h with
  | nil => exact nil
  | cons first others ih => exact (hP _ _ first).append ih

theorem operand {name : String} {ts : List Symbol} (h : OperandRefers name ts) :
    NamedByReferences c ts := by
  obtain ⟨t, -, rfl⟩ := h
  exact classes _

theorem fieldType {d : String} {ts : List Symbol} (h : FieldTypeRefers d ts) :
    NamedByReferences c ts := by
  obtain ⟨t, -, rfl⟩ := h
  exact classes _

theorem methodType {d : String} {ts : List Symbol} (h : MethodTypeRefers d ts) :
    NamedByReferences c ts := by
  obtain ⟨m, -, rfl⟩ := h
  exact classes _

/-- The implementation of a lambda expression is named by its handle. -/
theorem implementation {l : LambdaTargets} (hl : LambdaAt c index l) (kind : HandleKind) :
    NamedByReferences c (Discovery.handled kind l.implementation.member.toMember) := by
  obtain ⟨s, b, m, -, -, sam, implementation, instantiated, more, d₁, d₂, -, -, ⟨j, -, hj⟩, -⟩ := hl
  exact handled hj kind

/-- What an instruction refers to is named by references of the pool. -/
theorem instruction {i : Instruction} {ts : List Symbol} (h : InstructionRefers lambdas c i ts) :
    NamedByReferences c ts := by
  unfold InstructionRefers at h
  split at h
  · rw [h]
    exact nil
  -- a member is named by the index itself; the other roles note classes
  · cases hrole : Opcode.role i.opcode with
    | access =>
      rw [hrole] at h
      obtain ⟨m, hm, rfl⟩ := h
      exact field hm
    | invocation =>
      rw [hrole] at h
      obtain ⟨m, hm, rfl⟩ := h
      exact invoked hm
    | load =>
      rw [hrole] at h
      obtain ⟨k, -, hk⟩ := h
      unfold ConstantRefers at hk
      split at hk
      · obtain ⟨name, -, hname⟩ := hk
        exact operand hname
      · rw [hk]
        exact nil
    | test =>
      rw [hrole] at h
      obtain ⟨name, -, hname⟩ := h
      exact operand hname
    | dynamic =>
      rw [hrole, IndexRefers] at h
      split at h
      · rcases h with ⟨l, hl, kind, ds, -, hds, rfl⟩ | ⟨-, rfl⟩
        · exact (implementation hl kind).append (inOrder hds fun _ _ => methodType)
        · exact nil
      · rw [h]
        exact nil
    | other =>
      rw [hrole] at h
      rw [show ts = [] from h]
      exact nil

theorem code {bytes : Bytes} {ts : List Symbol} (h : CodeRefers lambdas c bytes ts) :
    NamedByReferences c ts := by
  obtain ⟨is, -, his⟩ := h
  exact inOrder his fun _ _ => instruction

/-- What is noted before a stop is named by references of the pool. -/
theorem stopsAt {d : Cursor} {f : Fault} {ts : List Symbol} (h : StopsAt lambdas c d f ts) :
    NamedByReferences c ts := by
  cases h with
  | unreadable hread hmore => exact nil
  | instruction hread hstops =>
    rcases hstops with ⟨-, rfl⟩ | ⟨-, -, index, l, -, hl, kind, ds, -, hlast, rfl⟩
    · exact nil
    · obtain ⟨before, d, after, -, hds, -⟩ := hlast
      exact (implementation hl kind).append (inOrder hds fun _ _ => methodType)

theorem noted {user : Symbol} {ts : List Symbol} (h : NamedByReferences c ts) :
    ∀ r ∈ noted user ts, NamedByReferences c [r.target] := by
  intro r hr t ht
  obtain rfl := List.mem_singleton.mp ht
  exact h _ (mem_noted.mp hr).2

end NamedByReferences

theorem adds_visitField (x : Field) :
    Adds (fun r => NamedByReferences c [r.target]) (visitField c owner x) := by
  refine Adds.of_finds (finds_visitField c owner x) (stops_visitField c owner x) ?_ ?_
  · intro rs h
    obtain ⟨m, -, ts, hts, rfl⟩ := h
    exact (NamedByReferences.fieldType hts).noted
  · intro f rs h
    obtain ⟨rfl, -⟩ := h
    simp

/-- A method adds only what is named, also when it stops. -/
theorem adds_visitMethod (x : Method) :
    Adds (fun r => NamedByReferences c [r.target]) (visitMethod lambdas c owner x) := by
  refine Adds.of_finds (finds_visitMethod lambdas c owner x)
    (stops_visitMethod lambdas c owner x) ?_ ?_
  · intro rs h
    obtain ⟨m, -, ts, ⟨us, vs, hus, hvs, rfl⟩, rfl⟩ := h
    refine ((NamedByReferences.methodType hus).append ?_).noted
    -- a method without code has its descriptor only
    cases hcode : x.code with
    | none =>
      rw [hcode] at hvs
      rw [show vs = [] from hvs]
      exact .nil
    | some code =>
      rw [hcode] at hvs
      exact NamedByReferences.code hvs
  · intro f rs h
    rcases h with ⟨-, rfl⟩ | ⟨m, -, ts, ⟨-, rfl⟩ | ⟨code, us, _, -, hus, hvs, rfl⟩, rfl⟩
    · simp
    · exact NamedByReferences.nil.noted
    · obtain ⟨d, vs, ws, -, hvs, hws, rfl⟩ := hvs
      exact ((NamedByReferences.methodType hus).append
        ((NamedByReferences.code hvs).append (.stopsAt hws))).noted

end Discovery

namespace Findings

variable {lambdas : Bool} {c : ClassFile} {owner : String}

/-- All members that are reported are named by reference constants. -/
theorem named_of_reported (howner : c.name = .ok owner) {r : Reference}
    (hr : r ∈ (ofClass lambdas c).references) : NamedByReferences c [r.target] := by
  have hadds : Adds (fun r => NamedByReferences c [r.target]) (do
      visitAll (visitField c owner) c.fields.toList
      visitAll (visitMethod lambdas c owner) c.methods.toList) :=
    (Adds.visitAll fun x _ => adds_visitField x).bind (Adds.visitAll fun x _ => adds_visitMethod x)
  obtain ⟨rs, hrs, hreferences⟩ := hadds #[]
  have hmem : r ∈ (ofClass lambdas c).references.toList := Array.mem_toList_iff.mpr hr
  rw [ofClass, visitClass, howner] at hmem
  exact hrs r (by rwa [← List.nil_append rs, ← hreferences])

-- ---------------------------------------------------------------------------
-- Instructions that are refused
-- ---------------------------------------------------------------------------

/-- Lists of symbols that an instruction may refer to: the search goes on with
the one there is, and reports it next. If there is none, and only then, it
refuses the instruction: it ends as malformed, with nothing more to report. -/
def ReportsOrRefuses (found before : Findings) (user : Symbol) (P : List Symbol → Prop) : Prop :=
  (∀ ts, P ts → before.reports ++ ts.map (fun t => (t.usage, user.usage)) <+: found.reports) ∧
    ((∃ cause, found = ⟨before.references, some (.malformed cause)⟩) ↔ ¬ ∃ ts, P ts)

/-- What a search adds at an instruction that it comes to. -/
theorem added_of_reaches (howner : c.name = .ok owner) {j : Nat} {d : Cursor} {i : Instruction}
    (h : Reaches lambdas c j d i) :
    ∃ user, c.SymbolAt owner (c.fields.size + j) user ∧
      (∀ ts, InstructionRefers lambdas c i ts ∨ (∃ f, InstructionStops lambdas c i f ts) →
        (upTo lambdas c j d.pos).references.toList ++ noted user ts <+:
          (ofClass lambdas c).references.toList) ∧
      ∀ f, InstructionFaults lambdas c i f →
        ofClass lambdas c = ⟨(upTo lambdas c j d.pos).references, some f⟩ := by
  obtain ⟨user, rest, huser, hrest, hvisit⟩ := visitClass_of_reaches howner h
  refine ⟨user, huser, ?_, ?_⟩
  · intro ts hts
    generalize (upTo lambdas c j d.pos).references = before at hvisit ⊢
    rw [ofClass, hvisit]
    -- the instruction goes through, or it stops behind what it has noted
    rcases hts with hrefers | ⟨f, hstops⟩
    · have hok := (finds_instruction lambdas c user i before
        (before.toList ++ noted user ts).toArray).mpr ⟨_, ⟨ts, hrefers, rfl⟩, rfl⟩
      obtain ⟨rs, -, hrs⟩ := hrest (before.toList ++ noted user ts).toArray
      rw [bind_of_ok _ hok, hrs]
      exact List.prefix_append _ _
    · have herror := (stops_instruction lambdas c user i before
        (before.toList ++ noted user ts).toArray f).mpr ⟨_, ⟨ts, hstops, rfl⟩, rfl⟩
      rw [bind_of_error _ herror]
      exact List.prefix_refl _
  · intro f hfaults
    have herror := (stops_instruction lambdas c user i (upTo lambdas c j d.pos).references
      (upTo lambdas c j d.pos).references f).mpr ⟨[], ⟨[], .inl ⟨hfaults, rfl⟩, rfl⟩, by simp⟩
    rw [ofClass, hvisit, bind_of_error _ herror]
    rfl

/-- The search of a class decides on an instruction by lists that it may start to
refer to: if each of them would be found first, in full, and the instruction is
malformed where there is none, then one is reported or the instruction refused. -/
def DecidesBy (lambdas : Bool) (c : ClassFile) (j : Nat) (d : Cursor) (i : Instruction)
    (user : Symbol) : Prop :=
  ∀ P : List Symbol → Prop,
    (∀ ts, P ts → ts ≠ [] ∧ ∃ us, InstructionRefers lambdas c i (ts ++ us) ∨
      ∃ f, InstructionStops lambdas c i f (ts ++ us)) →
    ((¬ ∃ ts, P ts) → ∃ cause, InstructionFaults lambdas c i (.malformed cause)) →
    ReportsOrRefuses (ofClass lambdas c) (upTo lambdas c j d.pos) user P

/-- An instruction that has to refer to something is refused if it does not. -/
theorem decidesBy_of_reaches (howner : c.name = .ok owner) {j : Nat} {d : Cursor}
    {i : Instruction} (h : Reaches lambdas c j d i) :
    ∃ user, c.SymbolAt owner (c.fields.size + j) user ∧ DecidesBy lambdas c j d i user := by
  obtain ⟨user, huser, hadded, hfault⟩ := added_of_reaches howner h
  refine ⟨user, huser, fun P hP hnone => ?_⟩
  have hnext : ∀ ts, P ts → (upTo lambdas c j d.pos).references.toList ++ noted user ts <+:
      (ofClass lambdas c).references.toList := by
    intro ts hts
    obtain ⟨-, us, hus⟩ := hP ts hts
    refine List.IsPrefix.trans ?_ (hadded (ts ++ us) hus)
    rw [noted, noted, List.map_append, ← List.append_assoc]
    exact List.prefix_append _ _
  refine ⟨?_, ?_, ?_⟩
  · intro ts hts
    have hreports := (hnext ts hts).map fun r => (r.target.usage, r.user.usage)
    rwa [List.map_append, noted, List.map_map] at hreports
  · intro hrefused hsome
    obtain ⟨cause, hrefused⟩ := hrefused
    obtain ⟨ts, hts⟩ := hsome
    -- what is reported next would have to be nothing
    have hlength := (hnext ts hts).length_le
    rw [hrefused, List.length_append, noted, List.length_map] at hlength
    dsimp only at hlength
    exact (hP ts hts).1 (List.length_eq_zero_iff.mp (by omega))
  · intro hts
    obtain ⟨cause, hfaults⟩ := hnone hts
    exact ⟨cause, hfault _ hfaults⟩

/-- An instruction whose lookup fails is malformed. -/
theorem instructionFaults_of_lookup {i : Instruction} {index : UInt16} {r : Opcode.Role}
    (hrole : Opcode.role i.opcode = r) (hindex : i.constantIndex? = some index) {α : Type}
    {v : Except Fault α} (hv : OnlyMalformed v) (hnone : ¬ ∃ a, v = .ok a)
    (hfaults : ∀ f, v = .error f → IndexFaults lambdas c index f r) :
    ∃ cause, InstructionFaults lambdas c i (.malformed cause) := by
  cases hlookup : v with
  | ok a => exact absurd ⟨a, hlookup⟩ hnone
  | error f =>
    obtain ⟨cause, rfl⟩ := hv f hlookup
    exact ⟨cause, index, hindex, hrole ▸ hfaults _ hlookup⟩

/-- An instruction refers to what its role makes of its index. -/
theorem instructionRefers_of_role {i : Instruction} {index : UInt16} {r : Opcode.Role}
    {ts : List Symbol} (hrole : Opcode.role i.opcode = r) (hindex : i.constantIndex? = some index)
    (h : IndexRefers lambdas c index ts r) : InstructionRefers lambdas c i ts := by
  rw [InstructionRefers, hindex]
  exact hrole ▸ h

namespace DecidesBy

variable {j : Nat} {d : Cursor} {i : Instruction} {index : UInt16} {user : Symbol}

/-- Accesses and invocations name their member in the same way. -/
theorem member (h : DecidesBy lambdas c j d i user) (hindex : i.constantIndex? = some index)
    {r : Opcode.Role} (targets : Member → List Symbol) (hrole : Opcode.role i.opcode = r)
    (htargets : ∀ m, targets m ≠ [])
    (hrefers : ∀ m, c.pool.NamesMember index m →
      IndexRefers lambdas c index (targets m.toMember) r)
    (hfaults : ∀ f, c.pool.memberRef index = .error f → IndexFaults lambdas c index f r) :
    ReportsOrRefuses (ofClass lambdas c) (upTo lambdas c j d.pos) user fun ts =>
      ∃ m, c.pool.NamesMember index m ∧ ts = targets m.toMember := by
  -- the index names a member, or the lookup is what stops
  refine h _ ?_ ?_
  · intro _ hts
    obtain ⟨m, hm, rfl⟩ := hts
    refine ⟨htargets _, [], .inl ?_⟩
    rw [List.append_nil]
    exact instructionRefers_of_role hrole hindex (hrefers m hm)
  · intro hnone
    refine instructionFaults_of_lookup hrole hindex (OnlyMalformed.memberRef c.pool index) ?_
      hfaults
    intro hmember
    obtain ⟨m, hm⟩ := hmember
    exact hnone ⟨_, m, ConstantPool.memberRef_eq_ok.mp hm, rfl⟩

/-- A lambda expression refers to its implementation first. -/
theorem lambda (h : DecidesBy lambdas c j d i user) (hindex : i.constantIndex? = some index)
    (hop : i.opcode = Opcode.invokeDynamic) (hlambdas : lambdas = true)
    (hother : ¬ OtherSite c index)
    (hkinds : ∀ l, LambdaAt c index l → ∃ kind, l.implementation.kind = HandleKind.tag kind) :
    ReportsOrRefuses (ofClass lambdas c) (upTo lambdas c j d.pos) user fun ts =>
      ∃ l kind, LambdaAt c index l ∧ l.implementation.kind = HandleKind.tag kind ∧
        ts = handled kind l.implementation.member.toMember := by
  have hrole : Opcode.role i.opcode = .dynamic :=
    (Opcode.role_eq_iff (by decide)).mpr (List.mem_singleton.mpr hop)
  refine h _ ?_ ?_
  · intro _ hts
    obtain ⟨l, kind, hl, hkind, rfl⟩ := hts
    have htag := ofTag_eq_ok.mpr hkind
    refine ⟨handled_ne_nil kind _, ?_⟩
    -- the descriptors are searched to the end, or up to one that is malformed
    rcases methodTypes_or_stop l.descriptors with ⟨ds, hds⟩ | ⟨f, ds, hds⟩
    · refine ⟨ds, .inl (instructionRefers_of_role hrole hindex ?_)⟩
      rw [IndexRefers, if_pos hlambdas]
      exact .inl ⟨l, hl, kind, ds, htag, hds, rfl⟩
    · exact ⟨ds, .inr ⟨f, .inr ⟨hlambdas, hop, index, l, hindex, hl, kind, ds, htag, hds, rfl⟩⟩⟩
  · intro hnone
    refine instructionFaults_of_lookup hrole hindex (OnlyMalformed.lambda? index c) ?_
      (fun f hf => ⟨hlambdas, .inl hf⟩)
    intro hsite
    obtain ⟨o, ho⟩ := hsite
    rcases lambda?_eq_ok.mp ho with ⟨l, -, hl⟩ | ⟨-, hno⟩
    · obtain ⟨kind, hkind⟩ := hkinds l hl
      exact hnone ⟨_, l, kind, hl, hkind, rfl⟩
    · exact hother hno

end DecidesBy

/-- What a search reports of members, and where it refuses an instruction for want
of one. An access, an invocation or a lambda expression is refused exactly if
there is no member where it has to name one; the kind of the reference that
names it makes no difference. So all members that are reported are named by
reference constants, but a field may well be that of a method's reference, and
a method that of a field's. -/
theorem members_of_any_kind (lambdas : Bool) (bytes : Bytes) (c : ClassFile) (owner : String)
    (hc : ClassFile.ofBytes bytes = .ok c) (howner : c.name = .ok owner) :
    (∀ j d i index, Reaches lambdas c j d i → i.constantIndex? = some index →
      ∃ user, c.SymbolAt owner (c.fields.size + j) user ∧
        (i.opcode ∈ [Opcode.getStatic, Opcode.putStatic, Opcode.getField, Opcode.putField] →
          ReportsOrRefuses (ofBytes lambdas bytes) (upTo lambdas c j d.pos) user fun ts =>
            ∃ m, c.pool.NamesMember index m ∧ ts = [.field m.toMember]) ∧
        (i.opcode ∈ [Opcode.invokeVirtual, Opcode.invokeSpecial, Opcode.invokeStatic,
            Opcode.invokeInterface] →
          ReportsOrRefuses (ofBytes lambdas bytes) (upTo lambdas c j d.pos) user fun ts =>
            ∃ m, c.pool.NamesMember index m ∧ ts = invoked m.toMember) ∧
        (i.opcode = Opcode.invokeDynamic → lambdas = true → ¬ OtherSite c index →
          (∀ l, LambdaAt c index l → ∃ kind, l.implementation.kind = HandleKind.tag kind) →
          ReportsOrRefuses (ofBytes lambdas bytes) (upTo lambdas c j d.pos) user fun ts =>
            ∃ l kind, LambdaAt c index l ∧ l.implementation.kind = HandleKind.tag kind ∧
              ts = handled kind l.implementation.member.toMember)) ∧
    ∀ r ∈ (ofBytes lambdas bytes).references, NamedByReferences c [r.target] := by
  have hbytes : ofBytes lambdas bytes = ofClass lambdas c := by rw [ofBytes, hc]
  rw [hbytes]
  -- the three kinds of instructions, then every reference of the class
  refine ⟨?_, fun r hr => named_of_reported howner hr⟩
  intro j d i index hreaches hindex
  obtain ⟨user, huser, hdecided⟩ := decidesBy_of_reaches howner hreaches
  refine ⟨user, huser, ?_, ?_, ?_⟩
  · intro hop
    have hrole : Opcode.role i.opcode = .access := (Opcode.role_eq_iff (by decide)).mpr hop
    exact hdecided.member hindex (fun m => [.field m]) hrole (by simp) (fun m hm => ⟨m, hm, rfl⟩)
      fun f hf => hf
  · intro hop
    have hrole : Opcode.role i.opcode = .invocation := (Opcode.role_eq_iff (by decide)).mpr hop
    exact hdecided.member hindex invoked hrole (by simp [invoked]) (fun m hm => ⟨m, hm, rfl⟩)
      fun f hf => hf
  · intro hop hlambdas hother hkinds
    exact hdecided.lambda hindex hop hlambdas hother hkinds

/-- A class file: the class `C` with a method `m` that reads a field `f` of the
class `A`, through the reference constant of a method. -/
def methodRefBytes : Bytes :=
  [0xCA, 0xFE, 0xBA, 0xBE, 0, 0, 0, 52, 0, 12, 1, 0, 1, 65, 7, 0, 1, 1, 0, 1, 102, 1, 0, 1, 73, 12,
    0, 3, 0, 4, 10, 0, 2, 0, 5, 1, 0, 1, 67, 7, 0, 7, 1, 0, 1, 109, 1, 0, 3, 40, 41, 86, 1, 0, 4,
    67, 111, 100, 101, 0, 33, 0, 8, 0, 0, 0, 0, 0, 0, 0, 1, 0, 1, 0, 9, 0, 10, 0, 1, 0, 11, 0, 0,
    0, 16, 0, 0, 0, 0, 0, 0, 0, 4, 180, 0, 6, 177, 0, 0, 0, 0, 0, 0]

/-- What is written in the sample. -/
def methodRefClass : ClassFile where
  minor := 0
  major := 52
  pool := ⟨#[none, some (.utf8 "A"), some (.classInfo 1), some (.utf8 "f"), some (.utf8 "I"),
    some (.nameAndType 3 4), some (.memberRef .method 2 5), some (.utf8 "C"), some (.classInfo 7),
    some (.utf8 "m"), some (.utf8 "()V"), some (.utf8 "Code")]⟩
  access := .publicSuper
  thisClass := 8
  superClass := 0
  interfaces := #[]
  fields := #[]
  methods := #[⟨⟨1⟩, 9, 10, some ⟨0, 0, [180, 0, 6, 177], #[]⟩⟩]
  bootstrapMethods := #[]

/-- The example gets as far as its first instruction. -/
theorem reaches_methodRefClass :
    Reaches true methodRefClass 0 (Cursor.ofBytes [180, 0, 6, 177])
      ⟨0, 3, Opcode.getField, false, .constant 6⟩ := by
  refine ⟨⟨_, _, rfl, rfl, rfl⟩, by decide +kernel, ?_⟩
  have hform : Opcode.formOf? 180 = some .constant := by decide
  have hoperand : Operand.Laid 1 [0, 6] (.constant 6) .constant := ⟨6, by decide, rfl⟩
  have hahead : (Cursor.ofBytes [180, 0, 6, 177]).ahead = [180, 0, 6] ++ [177] := rfl
  obtain ⟨d, hpasses, -⟩ := Cursor.exists_passes hahead
  exact ⟨d, Instruction.read_eq_ok_iff_layout.mpr ⟨_, .plain hform hoperand, hpasses⟩⟩

/-- In the sample, the access is not refused: it names a member. -/
theorem reportsOrRefuses_methodRefBytes :
    ∃ user, methodRefClass.SymbolAt "C" 0 user ∧
      ReportsOrRefuses (ofBytes true methodRefBytes) (upTo true methodRefClass 0 0) user fun ts =>
        ∃ m, methodRefClass.pool.NamesMember 6 m ∧ ts = [.field m.toMember] := by
  obtain ⟨hreached, -⟩ := members_of_any_kind true methodRefBytes methodRefClass "C"
    (by decide +kernel) (by decide +kernel)
  obtain ⟨user, huser, haccess, -⟩ := hreached 0 _ _ 6 reaches_methodRefClass rfl
  exact ⟨user, huser, haccess (by decide)⟩

/-- In the sample, the search comes to an access of a field through the reference
of a method. It neither refuses it nor anything else, and reports a field. -/
theorem field_of_methodRefBytes :
    ClassFile.ofBytes methodRefBytes = .ok methodRefClass ∧
      Reaches true methodRefClass 0 (Cursor.ofBytes [180, 0, 6, 177])
        ⟨0, 3, Opcode.getField, false, .constant 6⟩ ∧
      methodRefClass.pool.Holds 6 (.memberRef .method 2 5) ∧
      (ofBytes true methodRefBytes).fault = none ∧
      (ofBytes true methodRefBytes).reports = [("f:A:f:I", "m:C:m:()V")] :=
  ⟨by decide +kernel, reaches_methodRefClass, rfl, by decide +kernel, by decide +kernel⟩

end Findings

end Backref
