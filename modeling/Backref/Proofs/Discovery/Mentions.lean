import Backref.Proofs.Discovery.Search

/-!
# The symbols that a class mentions

Which symbols a class refers to, and from which of its members, said without a
search: through the types that descriptors spell, the instructions that tile
the code arrays, and the members that pool indices name.

Main results:

* `Discovery.ClassFinds.mem_iff` — a search finds what the class mentions;
* `Findings.mem_reports_iff` — a search of a byte string that reaches its end
  reports exactly the mentions of the class in it.
-/

namespace Backref

open Discovery

/-- An instruction mentions a symbol. -/
inductive Instruction.Mentions (c : ClassFile) (i : Instruction) : Symbol → Prop
  /-- The field that the instruction reads or writes. -/
  | field {index : UInt16} {m : MemberRef}
      (hop : i.opcode ∈ [Opcode.getStatic, Opcode.putStatic, Opcode.getField, Opcode.putField])
      (hindex : i.constantIndex? = some index) (hm : c.pool.NamesMember index m) :
      Mentions c i (.field m.toMember)
  /-- The method that the instruction invokes, and the class that a constructor constructs. -/
  | invocation {index : UInt16} {m : MemberRef} {target : Symbol}
      (hop : i.opcode ∈ [Opcode.invokeVirtual, Opcode.invokeSpecial, Opcode.invokeStatic,
        Opcode.invokeInterface])
      (hindex : i.constantIndex? = some index) (hm : c.pool.NamesMember index m)
      (htarget : target = .method m.toMember ∨
        m.name = "<init>" ∧ target = .ofClass m.owner) :
      Mentions c i target
  /-- The class that is loaded as a constant, and the class of a cast or a type test. -/
  | operand {index : UInt16} {name element : String} {t : FieldType}
      (hop : i.opcode ∈ [Opcode.ldc, Opcode.ldcWide, Opcode.checkCast, Opcode.instanceOf])
      (hindex : i.constantIndex? = some index) (hname : c.pool.NamesClass index name)
      (ht : t.NamedBy name) (helement : t.className? = some element) :
      Mentions c i (.ofClass element)
  /-- The implementation of a lambda expression, if it is a field. -/
  | implementationField {index : UInt16} {l : LambdaTargets} {kind : HandleKind}
      (hop : i.opcode = Opcode.invokeDynamic) (hindex : i.constantIndex? = some index)
      (hl : LambdaAt c index l) (hkind : l.implementation.kind = kind.tag)
      (hfield : kind.isField = true) :
      Mentions c i (.field l.implementation.member.toMember)
  /-- The implementation of a lambda expression, if it is a method, and the class that a
  constructor constructs. -/
  | implementationMethod {index : UInt16} {l : LambdaTargets} {kind : HandleKind} {target : Symbol}
      (hop : i.opcode = Opcode.invokeDynamic) (hindex : i.constantIndex? = some index)
      (hl : LambdaAt c index l) (hkind : l.implementation.kind = kind.tag)
      (hmethod : kind.isField = false)
      (htarget : target = .method l.implementation.member.toMember ∨
        l.implementation.member.name = "<init>" ∧ target = .ofClass l.implementation.member.owner) :
      Mentions c i target
  /-- A class in a descriptor of a lambda expression. -/
  | lambdaDescriptor {index : UInt16} {l : LambdaTargets} {d element : String} {m : MethodType}
      {t : FieldType} (hop : i.opcode = Opcode.invokeDynamic)
      (hindex : i.constantIndex? = some index) (hl : LambdaAt c index l) (hd : d ∈ l.descriptors)
      (hm : m.SpelledBy d) (ht : t ∈ m.types) (helement : t.className? = some element) :
      Mentions c i (.ofClass element)

/-- A declared member of a class mentions a symbol. -/
inductive ClassFile.Mentions (c : ClassFile) : Symbol → Symbol → Prop
  /-- The class in the type of a field. -/
  | fieldType {owner element : String} {f : Field} {m : Member} {t : FieldType}
      (howner : c.pool.NamesClass c.thisClass owner) (hf : f ∈ c.fields)
      (hm : Declares c owner f.name f.descriptor m) (ht : t.SpelledBy m.descriptor)
      (helement : t.className? = some element) :
      Mentions c (.field m) (.ofClass element)
  /-- A class in the descriptor of a method. -/
  | methodType {owner element : String} {f : Method} {m : Member} {types : MethodType}
      {t : FieldType} (howner : c.pool.NamesClass c.thisClass owner) (hf : f ∈ c.methods)
      (hm : Declares c owner f.name f.descriptor m) (htypes : types.SpelledBy m.descriptor)
      (ht : t ∈ types.types) (helement : t.className? = some element) :
      Mentions c (.method m) (.ofClass element)
  /-- What an instruction in the code of a method mentions. -/
  | code {owner : String} {f : Method} {m : Member} {code : Code} {is : List Instruction}
      {i : Instruction} {target : Symbol} (howner : c.pool.NamesClass c.thisClass owner)
      (hf : f ∈ c.methods) (hm : Declares c owner f.name f.descriptor m)
      (hcode : f.code = some code) (his : Instruction.Tiled 0 code.bytes is) (hi : i ∈ is)
      (htarget : i.Mentions c target) :
      Mentions c (.method m) target

namespace Discovery

-- ---------------------------------------------------------------------------
-- Lists of symbols and their members
-- ---------------------------------------------------------------------------

theorem mem_classes {names : List String} {t : Symbol} :
    t ∈ classes names ↔ ∃ name ∈ names, t = .ofClass name := by
  simp only [classes, List.mem_map]
  exact exists_congr fun name => and_congr_right' eq_comm

/-- An invocation refers to the method and, where that is a constructor, to its class. -/
theorem mem_invoked {m : Member} {t : Symbol} :
    t ∈ invoked m ↔ t = .method m ∨ m.name = "<init>" ∧ t = .ofClass m.owner := by
  unfold invoked Symbol.constructorName
  by_cases h : m.name = "<init>"
  · simp [h]
  · simp [h]

theorem ofTag_eq_ok {tag : UInt8} {kind : HandleKind} :
    HandleKind.ofTag tag = .ok kind ↔ tag = kind.tag := by
  unfold HandleKind.ofTag
  constructor
  · intro h
    split at h
    · rename_i found hfound
      cases h
      have htag : (kind.tag == tag) = true :=
        List.find?_some (p := fun k : HandleKind => k.tag == tag) hfound
      exact (beq_iff_eq.mp htag).symm
    · cases h
  · rintro rfl
    cases kind <;> rfl

/-- A field descriptor refers to the class of its type. -/
theorem FieldTypeRefers.mem_iff {descriptor : String} {ts : List Symbol}
    (h : FieldTypeRefers descriptor ts) (target : Symbol) :
    target ∈ ts ↔ ∃ t : FieldType, t.SpelledBy descriptor ∧
      ∃ element, t.className? = some element ∧ target = .ofClass element := by
  obtain ⟨t, ht, rfl⟩ := h
  rw [mem_classes]
  constructor
  · rintro ⟨element, helement, rfl⟩
    exact ⟨t, ht, element, by simpa using helement, rfl⟩
  · rintro ⟨t', ht', element, helement, rfl⟩
    obtain rfl := ht.unique ht'
    exact ⟨element, by simpa using helement, rfl⟩

theorem MethodTypeRefers.mem_iff {descriptor : String} {ts : List Symbol}
    (h : MethodTypeRefers descriptor ts) (target : Symbol) :
    target ∈ ts ↔ ∃ m : MethodType, m.SpelledBy descriptor ∧ ∃ t ∈ m.types,
      ∃ element, t.className? = some element ∧ target = .ofClass element := by
  obtain ⟨m, hm, rfl⟩ := h
  rw [mem_classes]
  constructor
  · rintro ⟨element, helement, rfl⟩
    obtain ⟨t, ht, hclass⟩ := List.mem_filterMap.mp helement
    exact ⟨m, hm, t, ht, element, hclass, rfl⟩
  · rintro ⟨m', hm', t, ht, element, hclass, rfl⟩
    obtain rfl := hm.unique hm'
    exact ⟨element, List.mem_filterMap.mpr ⟨t, ht, hclass⟩, rfl⟩

theorem OperandRefers.mem_iff {name : String} {ts : List Symbol} (h : OperandRefers name ts)
    (target : Symbol) :
    target ∈ ts ↔ ∃ t : FieldType, t.NamedBy name ∧
      ∃ element, t.className? = some element ∧ target = .ofClass element := by
  obtain ⟨t, ht, rfl⟩ := h
  rw [mem_classes]
  constructor
  · rintro ⟨element, helement, rfl⟩
    exact ⟨t, ht, element, by simpa using helement, rfl⟩
  · rintro ⟨t', ht', element, helement, rfl⟩
    obtain rfl := ht.unique ht'
    exact ⟨element, by simpa using helement, rfl⟩

/-- A call site links one lambda expression at most. -/
theorem LambdaAt.unique {c : ClassFile} {index : UInt16} {l l' : LambdaTargets}
    (h : LambdaAt c index l) (h' : LambdaAt c index l') : l = l' := by
  have hread := lambda?_eq_ok.mpr (.inl ⟨l, rfl, h⟩)
  rwa [lambda?_eq_ok.mpr (.inl ⟨l', rfl, h'⟩), Except.ok.injEq, Option.some.injEq,
    eq_comm] at hread

/-- A call site that links a lambda expression links nothing else. -/
theorem LambdaAt.not_otherSite {c : ClassFile} {index : UInt16} {l : LambdaTargets}
    (h : LambdaAt c index l) : ¬ OtherSite c index := by
  intro hother
  have hread := lambda?_eq_ok.mpr (.inl ⟨l, rfl, h⟩)
  rw [lambda?_eq_ok.mpr (.inr ⟨rfl, hother⟩)] at hread
  cases hread

/-- Method descriptors refer to the classes of all their types. -/
theorem mem_methodTypes {descriptors : List String} {ts : List Symbol}
    (h : InOrder MethodTypeRefers descriptors ts) (target : Symbol) :
    target ∈ ts ↔ ∃ d ∈ descriptors, ∃ m : MethodType, m.SpelledBy d ∧ ∃ t ∈ m.types,
      ∃ element, t.className? = some element ∧ target = .ofClass element :=
  h.mem_iff (fun _ _ hd => hd.mem_iff) target

-- ---------------------------------------------------------------------------
-- Instructions
-- ---------------------------------------------------------------------------

/-- What an instruction with a pool index mentions, by the role of its opcode. -/
def IndexMentions (c : ClassFile) (index : UInt16) (target : Symbol) : Opcode.Role → Prop
  | .access => ∃ m, c.pool.NamesMember index m ∧ target = .field m.toMember
  | .invocation => ∃ m, c.pool.NamesMember index m ∧ target ∈ invoked m.toMember
  | .load | .test => ∃ name, c.pool.NamesClass index name ∧ ∃ t : FieldType, t.NamedBy name ∧
      ∃ element, t.className? = some element ∧ target = .ofClass element
  | .dynamic => ∃ l, LambdaAt c index l ∧
      ((∃ kind, l.implementation.kind = HandleKind.tag kind ∧
          target ∈ handled kind l.implementation.member.toMember) ∨
        ∃ d ∈ l.descriptors, ∃ m : MethodType, m.SpelledBy d ∧ ∃ t ∈ m.types,
          ∃ element, t.className? = some element ∧ target = .ofClass element)
  | .other => False

/-- What an instruction mentions, its index mentions in its role. -/
theorem indexMentions_of_mentions {c : ClassFile} {i : Instruction} {target : Symbol}
    (h : i.Mentions c target) : ∃ index, i.constantIndex? = some index ∧
      IndexMentions c index target (Opcode.role i.opcode) := by
  have hdynamic : i.opcode = Opcode.invokeDynamic → Opcode.role i.opcode = .dynamic :=
    fun hop => (Opcode.role_eq_iff (by decide)).mpr (List.mem_singleton.mpr hop)
  cases h with
  | field hop hindex hm =>
    have hrole : Opcode.role i.opcode = .access := (Opcode.role_eq_iff (by decide)).mpr hop
    rw [hrole]
    exact ⟨_, hindex, _, hm, rfl⟩
  | invocation hop hindex hm htarget =>
    have hrole : Opcode.role i.opcode = .invocation := (Opcode.role_eq_iff (by decide)).mpr hop
    rw [hrole]
    exact ⟨_, hindex, _, hm, mem_invoked.mpr htarget⟩
  | operand hop hindex hname ht helement =>
    -- loads and tests name their class in the same way
    have hrole : Opcode.role i.opcode = .load ∨ Opcode.role i.opcode = .test := by
      rw [Opcode.role_eq_iff (by decide), Opcode.role_eq_iff (by decide)]
      simpa [Opcode.Role.opcodes, or_assoc] using hop
    refine ⟨_, hindex, ?_⟩
    rcases hrole with hload | htest
    · rw [hload]
      exact ⟨_, hname, _, ht, _, helement, rfl⟩
    · rw [htest]
      exact ⟨_, hname, _, ht, _, helement, rfl⟩
  | @implementationField index l kind hop hindex hl hkind hfield =>
    have hhandled : .field l.implementation.member.toMember ∈
        handled kind l.implementation.member.toMember := by
      rw [handled, if_pos hfield]
      exact List.mem_singleton.mpr rfl
    rw [hdynamic hop]
    exact ⟨_, hindex, l, hl, .inl ⟨kind, hkind, hhandled⟩⟩
  | @implementationMethod index l kind target hop hindex hl hkind hmethod htarget =>
    have hhandled : target ∈ handled kind l.implementation.member.toMember := by
      rw [handled, if_neg (by simp [hmethod])]
      exact mem_invoked.mpr htarget
    rw [hdynamic hop]
    exact ⟨_, hindex, l, hl, .inl ⟨kind, hkind, hhandled⟩⟩
  | lambdaDescriptor hop hindex hl hd hm ht helement =>
    rw [hdynamic hop]
    exact ⟨_, hindex, _, hl, .inr ⟨_, hd, _, hm, _, ht, _, helement, rfl⟩⟩

/-- What an index mentions in the role of an instruction, the instruction mentions. -/
theorem mentions_of_indexMentions {c : ClassFile} {i : Instruction} {target : Symbol}
    {index : UInt16} (hindex : i.constantIndex? = some index)
    (h : IndexMentions c index target (Opcode.role i.opcode)) : i.Mentions c target := by
  -- the role tells which of the cases of mentioning this is
  cases hrole : Opcode.role i.opcode with
  | access =>
    rw [hrole] at h
    obtain ⟨m, hm, rfl⟩ := h
    exact .field ((Opcode.role_eq_iff (by decide)).mp hrole) hindex hm
  | invocation =>
    rw [hrole] at h
    obtain ⟨m, hm, htarget⟩ := h
    exact .invocation ((Opcode.role_eq_iff (by decide)).mp hrole) hindex hm
      (mem_invoked.mp htarget)
  | load =>
    rw [hrole] at h
    obtain ⟨name, hname, t, ht, element, helement, rfl⟩ := h
    have hop := (Opcode.role_eq_iff (by decide)).mp hrole
    exact .operand (List.mem_append_left [Opcode.checkCast, Opcode.instanceOf] hop) hindex hname
      ht helement
  | test =>
    rw [hrole] at h
    obtain ⟨name, hname, t, ht, element, helement, rfl⟩ := h
    have hop := (Opcode.role_eq_iff (by decide)).mp hrole
    exact .operand (List.mem_append_right [Opcode.ldc, Opcode.ldcWide] hop) hindex hname
      ht helement
  | dynamic =>
    rw [hrole] at h
    have hop : i.opcode = Opcode.invokeDynamic :=
      List.mem_singleton.mp ((Opcode.role_eq_iff (by decide)).mp hrole)
    obtain ⟨l, hl, ⟨kind, hkind, htarget⟩ | ⟨d, hd, m, hm, t, ht, element, helement, rfl⟩⟩ := h
    · -- the implementation is a field or a method, as its handle says
      cases hfield : kind.isField with
      | true =>
        rw [handled, if_pos hfield, List.mem_singleton] at htarget
        rw [htarget]
        exact .implementationField hop hindex hl hkind hfield
      | false =>
        rw [handled, if_neg (by simp [hfield])] at htarget
        exact .implementationMethod hop hindex hl hkind hfield (mem_invoked.mp htarget)
    · exact .lambdaDescriptor hop hindex hl hd hm ht helement
  | other =>
    rw [hrole] at h
    exact h.elim

/-- An instruction mentions what its index does. -/
theorem mentions_iff {c : ClassFile} {i : Instruction} {target : Symbol} :
    i.Mentions c target ↔ ∃ index, i.constantIndex? = some index ∧
      IndexMentions c index target (Opcode.role i.opcode) :=
  ⟨indexMentions_of_mentions, fun ⟨_, hindex, h⟩ => mentions_of_indexMentions hindex h⟩

/-- The operand at an index refers to the class of the type that the index names. -/
theorem OperandRefers.mem_iff_of_names {c : ClassFile} {index : UInt16} {name : String}
    {ts : List Symbol} (hname : c.pool.NamesClass index name) (h : OperandRefers name ts)
    (target : Symbol) :
    target ∈ ts ↔ ∃ name, c.pool.NamesClass index name ∧ ∃ t : FieldType, t.NamedBy name ∧
      ∃ element, t.className? = some element ∧ target = .ofClass element := by
  rw [h.mem_iff]
  constructor
  · intro ht
    exact ⟨name, hname, ht⟩
  · rintro ⟨name', hname', ht⟩
    obtain rfl := hname.unique hname'
    exact ht

/-- A call site refers to what its index mentions as a dynamic call. -/
theorem CallSiteRefers.mem_iff {c : ClassFile} {index : UInt16} {ts : List Symbol}
    (h : CallSiteRefers c index ts) (target : Symbol) :
    target ∈ ts ↔ IndexMentions c index target .dynamic := by
  rcases h with ⟨l, hl, kind, ds, hkind, hds, rfl⟩ | ⟨hother, rfl⟩
  · rw [List.mem_append, mem_methodTypes hds]
    constructor
    · rintro (htarget | htarget)
      · exact ⟨l, hl, .inl ⟨kind, ofTag_eq_ok.mp hkind, htarget⟩⟩
      · exact ⟨l, hl, .inr htarget⟩
    · rintro ⟨l', hl', htarget⟩
      -- the site links one lambda expression, so both sides are about it
      obtain rfl := hl.unique hl'
      rcases htarget with ⟨kind', hkind', htarget⟩ | htarget
      · rw [ofTag_eq_ok.mpr hkind', Except.ok.injEq] at hkind
        subst hkind
        exact .inl htarget
      · exact .inr htarget
  · constructor
    · intro h
      cases h
    · rintro ⟨l, hl, -⟩
      exact absurd hother hl.not_otherSite

/-- An index refers to what it mentions, whatever its role. -/
theorem IndexRefers.mem_iff {c : ClassFile} {index : UInt16} {ts : List Symbol} {r : Opcode.Role}
    (h : IndexRefers true c index ts r) (target : Symbol) :
    target ∈ ts ↔ IndexMentions c index target r := by
  cases r with
  | access =>
    obtain ⟨m, hm, rfl⟩ := h
    rw [List.mem_singleton]
    constructor
    · rintro rfl
      exact ⟨m, hm, rfl⟩
    · rintro ⟨m', hm', rfl⟩
      rw [hm.unique hm']
  | invocation =>
    obtain ⟨m, hm, rfl⟩ := h
    constructor
    · intro htarget
      exact ⟨m, hm, htarget⟩
    · rintro ⟨m', hm', htarget⟩
      rw [hm.unique hm']
      exact htarget
  | load =>
    obtain ⟨k, hk, h⟩ := h
    -- a load refers to a class or to nothing
    by_cases hclass : ∃ j, k = .classInfo j
    · obtain ⟨j, rfl⟩ := hclass
      obtain ⟨name, hj, hname⟩ := h
      exact hname.mem_iff_of_names ⟨j, hk, hj⟩ target
    · have hts : ts = [] := by
        cases k with
        | classInfo j => exact absurd ⟨j, rfl⟩ hclass
        | _ => exact h
      rw [hts]
      constructor
      · intro h
        cases h
      · rintro ⟨name, ⟨j, hj, -⟩, -⟩
        exact absurd ⟨j, hk.unique hj⟩ hclass
  | test =>
    obtain ⟨name, hname, h⟩ := h
    exact h.mem_iff_of_names hname target
  | dynamic => exact CallSiteRefers.mem_iff h target
  | other =>
    rw [show ts = [] from h]
    constructor
    · intro h
      cases h
    · exact False.elim

/-- What an instruction refers to is what it mentions. -/
theorem InstructionRefers.mem_iff {c : ClassFile} {i : Instruction} {ts : List Symbol}
    (h : InstructionRefers true c i ts) (target : Symbol) :
    target ∈ ts ↔ i.Mentions c target := by
  rw [mentions_iff]
  unfold InstructionRefers at h
  cases hindex : i.constantIndex? with
  | none =>
    rw [hindex] at h
    rw [show ts = [] from h]
    simp
  | some index =>
    rw [hindex] at h
    simp only at h
    rw [h.mem_iff]
    simp

-- ---------------------------------------------------------------------------
-- Members and classes
-- ---------------------------------------------------------------------------

/-- An entry declares one member. -/
theorem Declares.unique {c : ClassFile} {owner owner' : String} {name descriptor : UInt16}
    {m m' : Member} (howner : owner = owner') (h : Declares c owner name descriptor m)
    (h' : Declares c owner' name descriptor m') : m = m' := by
  obtain ⟨hm, hname, hdescriptor⟩ := h
  obtain ⟨hm', hname', hdescriptor'⟩ := h'
  cases m
  cases m'
  rw [Member.mk.injEq]
  exact ⟨hm.trans (howner.trans hm'.symm), hname.unique hname', hdescriptor.unique hdescriptor'⟩

theorem mem_noted {user : Symbol} {ts : List Symbol} {r : Reference} :
    r ∈ noted user ts ↔ r.user = user ∧ r.target ∈ ts := by
  obtain ⟨target, user'⟩ := r
  simp only [noted, List.mem_map, Reference.mk.injEq]
  constructor
  · rintro ⟨t, ht, rfl, rfl⟩
    exact ⟨rfl, ht⟩
  · rintro ⟨rfl, ht⟩
    exact ⟨target, ht, rfl, rfl⟩

/-- Code refers to what one of its instructions mentions. -/
theorem CodeRefers.mem_iff {c : ClassFile} {code : Bytes} {ts : List Symbol}
    (h : CodeRefers true c code ts) (target : Symbol) :
    target ∈ ts ↔ ∃ is, Instruction.Tiled 0 code is ∧ ∃ i ∈ is, i.Mentions c target := by
  obtain ⟨is, his, hts⟩ := h
  rw [hts.mem_iff fun i bs hi => hi.mem_iff]
  constructor
  · intro hi
    exact ⟨is, his, hi⟩
  · rintro ⟨is', his', hi⟩
    -- a code array is tiled in one way at most
    have hitems := Walk.items_eq_iff.mpr his
    rw [Walk.items_eq_iff.mpr his'] at hitems
    rwa [← List.map_injective_iff.mpr (fun a b => Except.ok.inj) hitems]

/-- What a field refers to, reference by reference. -/
theorem FieldFinds.mem_iff {c : ClassFile} {owner : String} {f : Field} {rs : List Reference}
    (h : FieldFinds c owner f rs) (r : Reference) :
    r ∈ rs ↔ ∃ m, Declares c owner f.name f.descriptor m ∧ r.user = .field m ∧
      ∃ t : FieldType, t.SpelledBy m.descriptor ∧
        ∃ element, t.className? = some element ∧ r.target = .ofClass element := by
  obtain ⟨m, hm, ts, hts, rfl⟩ := h
  rw [mem_noted, hts.mem_iff]
  constructor
  · rintro ⟨huser, htarget⟩
    exact ⟨m, hm, huser, htarget⟩
  · rintro ⟨m', hm', huser, htarget⟩
    obtain rfl := hm.unique rfl hm'
    exact ⟨huser, htarget⟩

/-- A method finds the classes of its descriptor and what its code mentions. -/
theorem MethodFinds.mem_iff {c : ClassFile} {owner : String} {f : Method} {rs : List Reference}
    (h : MethodFinds true c owner f rs) (r : Reference) :
    r ∈ rs ↔ ∃ m, Declares c owner f.name f.descriptor m ∧ r.user = .method m ∧
      ((∃ types : MethodType, types.SpelledBy m.descriptor ∧ ∃ t ∈ types.types,
          ∃ element, t.className? = some element ∧ r.target = .ofClass element) ∨
        ∃ code, f.code = some code ∧ ∃ is, Instruction.Tiled 0 code.bytes is ∧
          ∃ i ∈ is, i.Mentions c r.target) := by
  obtain ⟨m, hm, _, ⟨us, vs, hus, hvs, rfl⟩, rfl⟩ := h
  -- a method without code has no instruction to mention anything
  have hbody : r.target ∈ vs ↔ ∃ code, f.code = some code ∧
      ∃ is, Instruction.Tiled 0 code.bytes is ∧ ∃ i ∈ is, i.Mentions c r.target := by
    cases hcode : f.code with
    | none =>
      rw [hcode] at hvs
      rw [show vs = [] from hvs]
      simp
    | some code =>
      rw [hcode] at hvs
      rw [CodeRefers.mem_iff hvs]
      simp
  rw [mem_noted, List.mem_append, hus.mem_iff, hbody]
  constructor
  · rintro ⟨huser, htarget⟩
    exact ⟨m, hm, huser, htarget⟩
  · rintro ⟨m', hm', huser, htarget⟩
    obtain rfl := hm.unique rfl hm'
    exact ⟨huser, htarget⟩

/-- A search of a class finds exactly what the class mentions. -/
theorem ClassFinds.mem_iff {c : ClassFile} {rs : List Reference} (h : ClassFinds true c rs)
    (r : Reference) : r ∈ rs ↔ c.Mentions r.user r.target := by
  obtain ⟨owner, fs, ms, howner, hfs, hms, rfl⟩ := h
  rw [List.mem_append, hfs.mem_iff fun f bs hf => hf.mem_iff,
    hms.mem_iff fun f bs hf => hf.mem_iff]
  obtain ⟨target, user⟩ := r
  simp only [Array.mem_toList_iff]
  constructor
  · rintro (⟨f, hf, m, hm, rfl, t, ht, element, helement, rfl⟩ |
      ⟨f, hf, m, hm, rfl, ⟨types, htypes, t, ht, element, helement, rfl⟩ |
        ⟨code, hcode, is, his, i, hi, htarget⟩⟩)
    · exact .fieldType howner hf hm ht helement
    · exact .methodType howner hf hm htypes ht helement
    · exact .code howner hf hm hcode his hi htarget
  · intro hmentions
    cases hmentions with
    | fieldType howner' hf hm ht helement =>
      -- both sides are about the one owner that the class has
      obtain rfl := howner.unique howner'
      exact .inl ⟨_, hf, _, hm, rfl, _, ht, _, helement, rfl⟩
    | methodType howner' hf hm htypes ht helement =>
      obtain rfl := howner.unique howner'
      exact .inr ⟨_, hf, _, hm, rfl, .inl ⟨_, htypes, _, ht, _, helement, rfl⟩⟩
    | code howner' hf hm hcode his hi htarget =>
      obtain rfl := howner.unique howner'
      exact .inr ⟨_, hf, _, hm, rfl, .inr ⟨_, hcode, _, his, _, hi, htarget⟩⟩

end Discovery

-- ---------------------------------------------------------------------------
-- Byte strings
-- ---------------------------------------------------------------------------

namespace Findings

/-- A search that reaches the end of the class in a byte string reports a key
with a user exactly when a declared member with that usage string mentions a
symbol with that key. -/
theorem mem_reports_iff {bytes : Bytes} (hend : (ofBytes true bytes).fault = none)
    (key user : String) :
    (key, user) ∈ (ofBytes true bytes).reports ↔
      ∃ c, ClassFile.ofBytes bytes = .ok c ∧ ∃ declared target,
        c.Mentions declared target ∧ target.usage = key ∧ declared.usage = user := by
  unfold ofBytes at hend ⊢
  cases hc : ClassFile.ofBytes bytes with
  | error fault =>
    rw [hc] at hend
    cases hend
  | ok c =>
    rw [hc] at hend
    simp only at hend ⊢
    generalize hfound : ofClass true c = f at hend ⊢
    obtain ⟨found, fault⟩ := f
    obtain rfl : fault = none := hend
    have hfinds := ofClass_eq_iff.mp hfound
    simp only [reports, List.mem_map, Prod.mk.injEq, hfinds.mem_iff, Except.ok.injEq,
      exists_eq_left']
    -- a report is a reference with both of its symbols written out
    constructor
    · rintro ⟨r, hr, hkey, huser⟩
      exact ⟨r.user, r.target, hr, hkey, huser⟩
    · rintro ⟨declared, target, hmentions, hkey, huser⟩
      exact ⟨⟨target, declared⟩, hmentions, hkey, huser⟩

/-- A class file: the class `C` with a field `f` of type `B[]` and a method `m`
that makes an object of the class `A`. -/
def sampleBytes : Bytes :=
  [0xCA, 0xFE, 0xBA, 0xBE, 0, 0, 0, 52, 0, 13, 1, 0, 1, 65, 7, 0, 1, 1, 0, 6, 60, 105, 110, 105,
    116, 62, 1, 0, 3, 40, 41, 86, 12, 0, 3, 0, 4, 10, 0, 2, 0, 5, 1, 0, 1, 67, 7, 0, 7, 1, 0, 1,
    102, 1, 0, 4, 91, 76, 66, 59, 1, 0, 1, 109, 1, 0, 4, 67, 111, 100, 101, 0, 33, 0, 8, 0, 0, 0,
    0, 0, 1, 0, 0, 0, 9, 0, 10, 0, 0, 0, 1, 0, 8, 0, 11, 0, 4, 0, 1, 0, 12, 0, 0, 0, 21, 0, 8, 0,
    0, 0, 0, 0, 9, 187, 0, 2, 89, 183, 0, 6, 87, 177, 0, 0, 0, 0, 0, 0]

/-- In the sample, the method mentions the class whose constructor it calls. -/
theorem mentions_of_sampleBytes :
    (ofBytes true sampleBytes).fault = none ∧
      ∃ c, ClassFile.ofBytes sampleBytes = .ok c ∧ ∃ declared target,
        c.Mentions declared target ∧ target.usage = "s:A" ∧ declared.usage = "m:C:m:()V" := by
  have hend : (ofBytes true sampleBytes).fault = none := by decide +kernel
  have hreported : ("s:A", "m:C:m:()V") ∈ (ofBytes true sampleBytes).reports := by decide +kernel
  exact ⟨hend, (mem_reports_iff hend "s:A" "m:C:m:()V").mp hreported⟩

end Findings

end Backref
