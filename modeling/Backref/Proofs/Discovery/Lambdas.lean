import Backref.Proofs.Discovery.Search

/-!
# Searches that leave lambda expressions out

A search that does not follow lambda expressions passes over dynamic calls. It
meets what a search that follows them meets everywhere else, so it finds the
same but for what is behind the dynamic calls, and stops at no fault that the
other one gets past. Where there are no dynamic calls, the two searches are
the same step by step, up to a fault that they have in common.

Main results:

* `Discovery.ClassFinds.exists_sublist` — what is found without lambda
  expressions is a part of what is found with them, in the same order;
* `Findings.sublist_of_end` — the same for the search of a byte string that
  reaches its end;
* `Findings.ofBytes_lambdas` — without dynamic calls, both searches come to the same.
-/

namespace Backref

/-- Whether an instruction is a dynamic call. -/
def Instruction.isDynamic (i : Instruction) : Bool := i.opcode == Opcode.invokeDynamic

/-- Whether a dynamic call is among the instructions of a code array, as far as they decode. -/
def Code.callsDynamically (code : Code) : Bool :=
  (Walk.items code.bytes).any fun item =>
    match item with
    | .ok i => i.isDynamic
    | .error _ => false

/-- Whether a method of a class has a dynamic call. -/
def ClassFile.callsDynamically (c : ClassFile) : Bool :=
  c.methods.any fun m => m.code.any Code.callsDynamically

namespace Discovery

-- ---------------------------------------------------------------------------
-- Fewer references
-- ---------------------------------------------------------------------------

variable {c : ClassFile}

/-- Passing over a dynamic call leaves out what is behind it; nothing else changes. -/
theorem InstructionRefers.exists_sublist {i : Instruction} {ts : List Symbol}
    (h : InstructionRefers true c i ts) :
    ∃ us, InstructionRefers false c i us ∧ us.Sublist ts := by
  unfold InstructionRefers at h ⊢
  cases hindex : i.constantIndex? with
  | none =>
    rw [hindex] at h
    exact ⟨ts, h, .refl ts⟩
  | some index =>
    rw [hindex] at h
    simp only at h ⊢
    cases hrole : Opcode.role i.opcode with
    | dynamic => exact ⟨[], rfl, List.nil_sublist ts⟩
    | _ =>
      rw [hrole] at h
      exact ⟨ts, h, .refl ts⟩

/-- Code refers to no less when lambda expressions are followed. -/
theorem CodeRefers.exists_sublist {code : Bytes} {ts : List Symbol}
    (h : CodeRefers true c code ts) : ∃ us, CodeRefers false c code us ∧ us.Sublist ts := by
  obtain ⟨is, his, hts⟩ := h
  obtain ⟨us, hus, hpart⟩ := hts.exists_sublist fun _ _ hi => InstructionRefers.exists_sublist hi
  exact ⟨us, ⟨is, his, hus⟩, hpart⟩

theorem BodyRefers.exists_sublist {body : Option Code} {ts : List Symbol}
    (h : BodyRefers true c ts body) : ∃ us, BodyRefers false c us body ∧ us.Sublist ts := by
  cases body with
  | none => exact ⟨ts, h, .refl ts⟩
  | some code => exact CodeRefers.exists_sublist h

/-- A method finds no less when lambda expressions are followed. -/
theorem MethodFinds.exists_sublist {owner : String} {m : Method} {rs : List Reference}
    (h : MethodFinds true c owner m rs) :
    ∃ ss, MethodFinds false c owner m ss ∧ ss.Sublist rs := by
  obtain ⟨declared, hdeclared, _, ⟨us, vs, hus, hvs, rfl⟩, rfl⟩ := h
  obtain ⟨ws, hws, hpart⟩ := BodyRefers.exists_sublist hvs
  exact ⟨noted _ (us ++ ws), ⟨declared, hdeclared, _, ⟨us, ws, hus, hws, rfl⟩, rfl⟩,
    (hpart.append_left us).map _⟩

/-- A class whose references are found with lambda expressions has, without
them, a part of these in the same order. -/
theorem ClassFinds.exists_sublist {rs : List Reference} (h : ClassFinds true c rs) :
    ∃ ss, ClassFinds false c ss ∧ ss.Sublist rs := by
  obtain ⟨owner, fs, ms, howner, hfs, hms, rfl⟩ := h
  obtain ⟨ns, hns, hpart⟩ := hms.exists_sublist fun _ _ hm => MethodFinds.exists_sublist hm
  exact ⟨fs ++ ns, ⟨owner, fs, ns, howner, hfs, hns, rfl⟩, hpart.append_left fs⟩

-- ---------------------------------------------------------------------------
-- The same references
-- ---------------------------------------------------------------------------

/-- Following lambda expressions makes no difference to any other instruction. -/
theorem noteInstruction_lambdas {i : Instruction} (h : i.isDynamic = false) (user : Symbol) :
    noteInstruction false c user i = noteInstruction true c user i := by
  unfold noteInstruction
  rw [show (i.opcode == Opcode.invokeDynamic) = false from h]
  rfl

/-- Following lambda expressions makes no difference where nothing is called dynamically. -/
theorem noteItems_lambdas {items : List (Except Fault Instruction)}
    (h : ∀ i, .ok i ∈ items → i.isDynamic = false) (user : Symbol) :
    noteItems false c user items = noteItems true c user items := by
  induction items with
  | nil => rfl
  | cons item items ih =>
    rw [noteItems, noteItems, ih fun i hi => h i (List.mem_cons_of_mem item hi)]
    cases item with
    | error fault => rfl
    | ok i =>
      show (noteInstruction false c user i >>= _) = (noteInstruction true c user i >>= _)
      rw [noteInstruction_lambdas (h i List.mem_cons_self)]

theorem visitMethod_lambdas {m : Method} (h : m.code.any Code.callsDynamically = false)
    (owner : String) : visitMethod false c owner m = visitMethod true c owner m := by
  unfold visitMethod
  cases hcode : m.code with
  | none => rfl
  | some code =>
    rw [hcode, Option.any_some, Code.callsDynamically, Array.any_eq_false'] at h
    have hitems : ∀ user, noteItems false c user (Walk.items code.bytes).toList =
        noteItems true c user (Walk.items code.bytes).toList := by
      refine noteItems_lambdas fun i hi => ?_
      simpa using h _ (Array.mem_toList_iff.mp hi)
    simp only [hitems]

theorem visitAll_congr {α : Type} {visit visit' : α → Discovery Unit} {as : List α}
    (h : ∀ a ∈ as, visit a = visit' a) : visitAll visit as = visitAll visit' as := by
  induction as with
  | nil => rfl
  | cons a as ih =>
    rw [visitAll, visitAll, h a List.mem_cons_self,
      ih fun b hb => h b (List.mem_cons_of_mem a hb)]

/-- Without dynamic calls it makes no difference whether lambda expressions are followed. -/
theorem visitClass_lambdas (h : c.callsDynamically = false) :
    visitClass false c = visitClass true c := by
  rw [ClassFile.callsDynamically, Array.any_eq_false'] at h
  unfold visitClass
  congr 1
  funext owner
  congr 1
  funext _
  refine visitAll_congr fun m hm => visitMethod_lambdas ?_ owner
  simpa using h m (Array.mem_toList_iff.mp hm)

end Discovery

namespace Findings

/-- A search that reaches the end with lambda expressions also does so without
them, and reports a part of what is reported with them, in the same order. -/
theorem sublist_of_end {bytes : Bytes} (hend : (ofBytes true bytes).fault = none) :
    (ofBytes false bytes).fault = none ∧
      (ofBytes false bytes).reports.Sublist (ofBytes true bytes).reports := by
  unfold ofBytes at hend ⊢
  cases hc : ClassFile.ofBytes bytes with
  | error fault =>
    rw [hc] at hend
    cases hend
  | ok c =>
    rw [hc] at hend
    simp only at hend ⊢
    generalize hfound : ofClass true c = f at hend ⊢
    obtain ⟨found, fault⟩ := f
    obtain rfl : fault = none := hend
    -- a class that ends well with them has a list for either choice
    obtain ⟨ss, hss, hpart⟩ := (ofClass_eq_iff.mp hfound).exists_sublist
    have hless : ofClass false c = ⟨ss.toArray, none⟩ := ofClass_eq_iff.mpr hss
    rw [hless]
    exact ⟨rfl, hpart.map _⟩

/-- Without dynamic calls both searches come to the same, also where they end early. -/
theorem ofBytes_lambdas {bytes : Bytes}
    (h : ∀ c, ClassFile.ofBytes bytes = .ok c → c.callsDynamically = false) :
    ofBytes false bytes = ofBytes true bytes := by
  unfold ofBytes
  cases hc : ClassFile.ofBytes bytes with
  | error fault => rfl
  | ok c =>
    simp only [ofClass]
    rw [Discovery.visitClass_lambdas (h c hc)]

end Findings

end Backref
