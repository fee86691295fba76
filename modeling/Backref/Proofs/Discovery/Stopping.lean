import Backref.Proofs.Discovery.Faults
import Backref.Proofs.Discovery.Mentions

/-!
# Searches that stop at the first fault

The members of a class are searched one after the other, fields first. A
search that stops at a member has found what the class refers to that declares
only the members before it, and what it found in the member itself: in the
code of a method, what the method refers to whose code is cut off there.

Main results:

* `Findings.ofFirst_succ` — one more member adds references of its
  own, or nothing behind a fault;
* `Findings.exists_cut` — where a search stops in the code of a method;
* `Findings.stops_at_first_fault` — all that a search of a byte string reports.
-/

namespace Backref

open Discovery

-- ---------------------------------------------------------------------------
-- Classes with fewer members and less code
-- ---------------------------------------------------------------------------

/-- The method with its code cut off at a position. -/
def Method.cut (m : Method) (n : Nat) : Method :=
  { m with code := m.code.map fun code => { code with bytes := code.bytes.take n } }

namespace ClassFile

/-- The number of declared members. -/
def memberCount (c : ClassFile) : Nat := c.fields.size + c.methods.size

/-- The class that declares the first members only, fields before methods. -/
def declaring (c : ClassFile) (k : Nat) : ClassFile :=
  { c with fields := c.fields.take k, methods := c.methods.take (k - c.fields.size) }

/-- The class with the code of a method cut off at a position. -/
def cut (c : ClassFile) (j n : Nat) : ClassFile :=
  { c with methods := c.methods.modify j fun m => m.cut n }

/-- The symbol of the member with a number, fields before methods. -/
inductive SymbolAt (c : ClassFile) (owner : String) : Nat → Symbol → Prop
  | field {k : Nat} {x : Field} {m : Member} (hx : c.fields[k]? = some x)
      (hm : Declares c owner x.name x.descriptor m) : SymbolAt c owner k (.field m)
  | method {j : Nat} {x : Method} {m : Member} (hx : c.methods[j]? = some x)
      (hm : Declares c owner x.name x.descriptor m) :
      SymbolAt c owner (c.fields.size + j) (.method m)

/-- Members before a method do not change with the code of the method. -/
theorem declaring_cut (c : ClassFile) (j n : Nat) :
    (c.cut j n).declaring (c.fields.size + j) = c.declaring (c.fields.size + j) := by
  have hmethods : (c.methods.modify j fun m => m.cut n).take j = c.methods.take j := by
    apply Array.ext'
    have hlength : (c.methods.toList.take j).length ≤ j := List.length_take_le ..
    simp [List.take_modify, List.modify_eq_self hlength]
  unfold declaring cut
  simp only [Nat.add_sub_cancel_left, hmethods]

/-- A class that declares all its members is the class. -/
theorem declaring_memberCount (c : ClassFile) : c.declaring c.memberCount = c := by
  have hfields : c.fields.take c.memberCount = c.fields := by
    apply Array.ext'
    have hlength : c.fields.toList.length ≤ c.memberCount := Nat.le_add_right ..
    simp [List.take_of_length_le hlength]
  have hmethods : c.methods.take (c.memberCount - c.fields.size) = c.methods := by
    apply Array.ext'
    simp [memberCount]
  unfold declaring
  rw [hfields, hmethods]

end ClassFile

namespace Discovery

-- ---------------------------------------------------------------------------
-- One more member
-- ---------------------------------------------------------------------------

theorem visitAll_append {α : Type} (visit : α → Discovery Unit) (as bs : List α) :
    visitAll visit (as ++ bs) = (do visitAll visit as; visitAll visit bs) := by
  induction as with
  | nil => rfl
  | cons a as ih => rw [List.cons_append, visitAll, visitAll, ih, bind_assoc]

theorem visitAll_single {α : Type} (visit : α → Discovery Unit) (a : α) :
    visitAll visit [a] = visit a := bind_pure (visit a)

variable {lambdas : Bool} {c : ClassFile} {owner : String}

/-- Of the class, the search of a method looks at the pool and the bootstrap methods only. -/
theorem visitMethod_of_tables {c' : ClassFile} (hpool : c'.pool = c.pool)
    (hbootstrap : c'.bootstrapMethods = c.bootstrapMethods) :
    visitMethod lambdas c' owner = visitMethod lambdas c owner := by
  -- an instruction looks at the pool and at the bootstrap methods, and at nothing else
  have hinstruction : ∀ user i,
      noteInstruction lambdas c' user i = noteInstruction lambdas c user i := by
    intro user i
    cases c
    cases c'
    cases hpool
    cases hbootstrap
    rfl
  have hitems : ∀ user items, noteItems lambdas c' user items = noteItems lambdas c user items := by
    intro user items
    induction items with
    | nil => rfl
    | cons item items ih => simp only [noteItems, hinstruction, ih]
  funext m
  simp only [visitMethod, member, hpool, hitems]

/-- The first members are fields, as far as those go, and then methods. -/
theorem visitClass_declaring (howner : c.name = .ok owner) (k : Nat) :
    visitClass lambdas (c.declaring k) = (do
      visitAll (visitField c owner) (c.fields.toList.take k)
      visitAll (visitMethod lambdas c owner) (c.methods.toList.take (k - c.fields.size))) := by
  have hname : (c.declaring k).name = .ok owner := howner
  have hmethod : visitMethod lambdas (c.declaring k) owner = visitMethod lambdas c owner :=
    visitMethod_of_tables rfl rfl
  have hfields : (c.declaring k).fields.toList = c.fields.toList.take k := by
    simp [ClassFile.declaring]
  have hmethods :
      (c.declaring k).methods.toList = c.methods.toList.take (k - c.fields.size) := by
    simp [ClassFile.declaring]
  rw [visitClass, hname, hfields, hmethods, MonadExcept.ofExcept, pure_bind, hmethod]
  rfl

/-- One more field is visited behind the fields before it. -/
theorem visitClass_declaring_field (howner : c.name = .ok owner) {k : Nat} {x : Field}
    (hx : c.fields[k]? = some x) :
    visitClass lambdas (c.declaring (k + 1)) =
      (do visitClass lambdas (c.declaring k); visitField c owner x) := by
  obtain ⟨hk, -⟩ := Array.getElem?_eq_some_iff.mp hx
  have hx' : c.fields.toList[k]? = some x := by rwa [Array.getElem?_toList]
  -- no methods are declared yet
  rw [visitClass_declaring howner, visitClass_declaring howner, Nat.sub_eq_zero_of_le hk,
    Nat.sub_eq_zero_of_le (Nat.le_of_lt hk), List.take_add_one, hx', Option.toList_some,
    visitAll_append, visitAll_single, List.take_zero, visitAll]
  simp only [bind_assoc, bind_pure_unit]

/-- One more method is visited behind the members before it. -/
theorem visitClass_declaring_method (howner : c.name = .ok owner) {j : Nat} {x : Method}
    (hx : c.methods[j]? = some x) :
    visitClass lambdas (c.declaring (c.fields.size + j + 1)) =
      (do visitClass lambdas (c.declaring (c.fields.size + j)); visitMethod lambdas c owner x) := by
  have hx' : c.methods.toList[j]? = some x := by rwa [Array.getElem?_toList]
  have hfields : ∀ n, c.fields.toList.take (c.fields.size + n) = c.fields.toList := by
    intro n
    exact List.take_of_length_le (by simp)
  rw [visitClass_declaring howner, visitClass_declaring howner, Nat.add_assoc, hfields, hfields,
    Nat.add_sub_cancel_left, Nat.add_sub_cancel_left, List.take_add_one, hx', Option.toList_some,
    visitAll_append, visitAll_single, bind_assoc]

/-- Where the code of a method is cut off, the search of the members before it is the same. -/
theorem visitClass_declaring_cut (howner : c.name = .ok owner) {j : Nat} {x : Method}
    (hx : c.methods[j]? = some x) (n : Nat) :
    visitClass lambdas ((c.cut j n).declaring (c.fields.size + j + 1)) = (do
      visitClass lambdas (c.declaring (c.fields.size + j))
      visitMethod lambdas c owner (x.cut n)) := by
  have hname : (c.cut j n).name = .ok owner := howner
  have hcut : (c.cut j n).methods[j]? = some (x.cut n) := by
    simp [ClassFile.cut, Array.getElem?_modify, hx]
  have htables : visitMethod lambdas (c.cut j n) owner = visitMethod lambdas c owner :=
    visitMethod_of_tables rfl rfl
  rw [← c.declaring_cut j n, ← htables]
  exact visitClass_declaring_method hname hcut

/-- The search of one more member: what it adds is of references of this member. -/
theorem exists_visit (lambdas : Bool) (howner : c.name = .ok owner) {k : Nat}
    (hk : k < c.memberCount) :
    ∃ x : Discovery Unit,
      visitClass lambdas (c.declaring (k + 1)) = (do visitClass lambdas (c.declaring k); x) ∧
      Adds (fun r => c.SymbolAt owner k r.user) x := by
  -- whatever is noted for a member is used by that member
  have hnoted : ∀ {user : Symbol} {Q : List Symbol → Prop} (rs : List Reference),
      c.SymbolAt owner k user → Noted user Q rs → ∀ r ∈ rs, c.SymbolAt owner k r.user := by
    intro user Q rs huser hrs r hr
    obtain ⟨ts, -, rfl⟩ := hrs
    obtain ⟨t, -, rfl⟩ := List.mem_map.mp hr
    exact huser
  -- the fields come first, and the methods are counted from behind them
  by_cases hfield : k < c.fields.size
  · have hx : c.fields[k]? = some c.fields[k] := Array.getElem?_eq_getElem hfield
    refine ⟨_, visitClass_declaring_field howner hx, ?_⟩
    refine Adds.of_finds (finds_visitField c owner _) (stops_visitField c owner _) ?_ ?_
    · intro rs h
      obtain ⟨m, hm, hrs⟩ := h
      exact hnoted rs (.field hx hm) hrs
    · intro f rs h
      obtain ⟨rfl, -⟩ := h
      simp
  · obtain ⟨j, rfl⟩ := Nat.exists_eq_add_of_le (Nat.le_of_not_lt hfield)
    have hj : j < c.methods.size := by
      unfold ClassFile.memberCount at hk
      omega
    have hx : c.methods[j]? = some c.methods[j] := Array.getElem?_eq_getElem hj
    refine ⟨_, visitClass_declaring_method howner hx, ?_⟩
    refine Adds.of_finds (finds_visitMethod lambdas c owner _)
      (stops_visitMethod lambdas c owner _) ?_ ?_
    · intro rs h
      obtain ⟨m, hm, hrs⟩ := h
      exact hnoted rs (.method hx hm) hrs
    · intro f rs h
      rcases h with ⟨-, rfl⟩ | ⟨m, hm, hrs⟩
      · simp
      · exact hnoted rs (.method hx hm) hrs

-- ---------------------------------------------------------------------------
-- Code that is searched in part
-- ---------------------------------------------------------------------------

/-- A method descriptor refers to its classes in one order. -/
theorem MethodTypeRefers.unique {descriptor : String} {us us' : List Symbol}
    (h : MethodTypeRefers descriptor us) (h' : MethodTypeRefers descriptor us') : us = us' := by
  obtain ⟨m, hm, rfl⟩ := h
  obtain ⟨m', hm', rfl⟩ := h'
  rw [hm.unique hm']

/-- A method with a name and a descriptor is searched up to a place in its code. -/
theorem MethodStops.in_code {x : Method} {f : Fault} {rs : List Reference} {declared : Member}
    {us : List Symbol} (hdeclared : Declares c owner x.name x.descriptor declared)
    (hus : MethodTypeRefers declared.descriptor us) (h : MethodStops lambdas c owner x f rs) :
    ∃ (code : Code) (d : Cursor) (ws ts : List Symbol), x.code = some code ∧ d.data = code.bytes ∧
      CodeRefers lambdas c (code.bytes.take d.pos) ws ∧ StopsAt lambdas c d f ts ∧
      rs = noted (.method declared) (us ++ (ws ++ ts)) := by
  -- neither its names nor its descriptor is what stops it
  rcases h with ⟨hmember, -⟩ | ⟨declared', hdeclared', _, hstops, rfl⟩
  · rw [member_eq_ok.mpr hdeclared] at hmember
    cases hmember
  · obtain rfl := Declares.unique rfl hdeclared hdeclared'
    rcases hstops with ⟨hparse, -⟩ | ⟨code, us', _, hcode, hus', hstops, rfl⟩
    · obtain ⟨m, hm, -⟩ := hus
      rw [MethodType.parse_eq_ok.mpr hm] at hparse
      cases hparse
    · obtain ⟨d, ws, ts, hdata, hws, hts, rfl⟩ := hstops
      rw [hus.unique hus']
      exact ⟨code, d, ws, ts, hcode, hdata, hws, hts, rfl⟩

end Discovery

namespace Findings

variable {lambdas : Bool} {c : ClassFile} {owner : String}

/-- Findings without a fault come from a visit that has got through. -/
theorem exists_ok_of_fault_eq_none {r : EStateM.Result Fault (Array Reference) Unit}
    (h : (ofResult r).fault = none) : ∃ found, r = .ok () found := by
  cases r with
  | ok u found => exact ⟨found, rfl⟩
  | error f found => cases h

theorem exists_error_of_fault_eq_some {r : EStateM.Result Fault (Array Reference) Unit} {f : Fault}
    (h : (ofResult r).fault = some f) : ∃ found, r = .error f found := by
  cases r with
  | ok u found => cases h
  | error f' found =>
    cases h
    exact ⟨found, rfl⟩

/-- What the first members of a class refer to. -/
def ofFirst (lambdas : Bool) (c : ClassFile) (k : Nat) : Findings :=
  ofClass lambdas (c.declaring k)

/-- What the first members of a class refer to up to a position in the code of the last. -/
def upTo (lambdas : Bool) (c : ClassFile) (j n : Nat) : Findings :=
  ofFirst lambdas (c.cut j n) (c.fields.size + j + 1)

/-- One more member. Behind a search without a fault it adds references of its
own; behind a fault it is not searched. -/
theorem ofFirst_succ (howner : c.name = .ok owner) {k : Nat} (hk : k < c.memberCount) :
    ((ofFirst lambdas c k).fault = none →
      ∃ added, (ofFirst lambdas c (k + 1)).reports = (ofFirst lambdas c k).reports ++ added ∧
        ∀ r ∈ added, ∃ s, c.SymbolAt owner k s ∧ r.2 = s.usage) ∧
    ((ofFirst lambdas c k).fault ≠ none →
      ofFirst lambdas c (k + 1) = ofFirst lambdas c k) := by
  obtain ⟨x, hvisit, hadds⟩ := exists_visit lambdas howner hk
  unfold ofFirst ofClass
  rw [hvisit]
  -- a member behind a fault is not visited; any other adds what it uses
  cases hbefore : visitClass lambdas (c.declaring k) #[] with
  | error f found =>
    rw [bind_of_error _ hbefore]
    refine ⟨?_, fun _ => rfl⟩
    intro h
    cases h
  | ok u found =>
    rw [bind_of_ok _ hbefore]
    refine ⟨fun _ => ?_, fun h => absurd rfl h⟩
    obtain ⟨rs, hrs, hreferences⟩ := hadds found
    refine ⟨rs.map fun r => (r.target.usage, r.user.usage), ?_, ?_⟩
    · rw [reports, hreferences, List.map_append]
      rfl
    · intro report hreport
      obtain ⟨r, hr, rfl⟩ := List.mem_map.mp hreport
      exact ⟨r.user, hrs r hr, rfl⟩

/-- A search that stops in the code of a method has found what it finds where
the code is cut off there, and what the place itself refers to. -/
theorem exists_cut (howner : c.name = .ok owner) {j : Nat} {x : Method} {f : Fault}
    (hx : c.methods[j]? = some x)
    (hfault : (ofFirst lambdas c (c.fields.size + j + 1)).fault = some f)
    (hcode : (upTo lambdas c j 0).fault = none) :
    ∃ code, x.code = some code ∧ ∃ d : Cursor, d.data = code.bytes ∧
      ∃ user ts, c.SymbolAt owner (c.fields.size + j) user ∧ StopsAt lambdas c d f ts ∧
        (upTo lambdas c j d.pos).fault = none ∧
        (ofFirst lambdas c (c.fields.size + j + 1)).references.toList =
          (upTo lambdas c j d.pos).references.toList ++ noted user ts := by
  have hrun : visitClass lambdas (c.declaring (c.fields.size + j + 1)) = _ :=
    visitClass_declaring_method howner hx
  have hcut : ∀ n, visitClass lambdas ((c.cut j n).declaring (c.fields.size + j + 1)) = _ :=
    visitClass_declaring_cut howner hx
  unfold upTo ofFirst ofClass at *
  rw [hrun] at hfault ⊢
  rw [hcut] at hcode
  cases hbefore : visitClass lambdas (c.declaring (c.fields.size + j)) #[] with
  | error f' found =>
    rw [bind_of_error _ hbefore] at hcode
    cases hcode
  | ok u found =>
    simp only [hcut, bind_of_ok _ hbefore] at hfault hcode ⊢
    -- without its code, the method is searched to the end
    obtain ⟨found₁, hempty⟩ := exists_ok_of_fault_eq_none hcode
    obtain ⟨_, hfinds, -⟩ := (finds_visitMethod lambdas c owner (x.cut 0) found found₁).mp hempty
    obtain ⟨declared, hmember, _, ⟨us, _, hus, -⟩, -⟩ := hfinds
    have hdeclared : Declares c owner x.name x.descriptor declared := hmember
    obtain ⟨found₂, hstopped⟩ := exists_error_of_fault_eq_some hfault
    obtain ⟨rs, hstops, hfound₂⟩ := (stops_visitMethod lambdas c owner x found found₂ f).mp hstopped
    obtain ⟨code, d, ws, ts, hcode, hdata, hws, hts, rfl⟩ :=
      MethodStops.in_code hdeclared hus hstops
    refine ⟨code, hcode, d, hdata, .method declared, ts, .method hx hdeclared, hts, ?_⟩
    -- up to where the search stops, the code is searched to the end
    have hrefers :
        MethodFinds lambdas c owner (x.cut d.pos) (noted (.method declared) (us ++ ws)) := by
      refine ⟨declared, hdeclared, _, ⟨us, ws, hus, ?_, rfl⟩, rfl⟩
      rw [Method.cut, hcode]
      exact hws
    have hok := (finds_visitMethod lambdas c owner (x.cut d.pos) found
      (found.toList ++ noted (.method declared) (us ++ ws)).toArray).mpr ⟨_, hrefers, rfl⟩
    rw [hok, hstopped]
    refine ⟨rfl, ?_⟩
    show found₂.toList = _
    rw [hfound₂]
    simp [noted, ofResult]

/-- The search of a class stops in the code of a method: it reports what it
reports where the code is cut off at some place, without a fault, and nothing
else, unless at this place there is a lambda expression with a malformed
descriptor. Of that, it reports the implementation and what comes before the
descriptor (`Discovery.LambdaStops`). -/
def StopsInCode (lambdas : Bool) (c : ClassFile) (owner : String) (j : Nat) (f : Fault) : Prop :=
  ∃ (x : Method) (code : Code) (d : Cursor) (user : Symbol) (ts : List Symbol),
    c.methods[j]? = some x ∧ x.code = some code ∧ d.data = code.bytes ∧
    c.SymbolAt owner (c.fields.size + j) user ∧ StopsAt lambdas c d f ts ∧
    (upTo lambdas c j d.pos).fault = none ∧
    (ofFirst lambdas c (c.fields.size + j + 1)).reports =
      (upTo lambdas c j d.pos).reports ++ ts.map (fun t => (t.usage, user.usage)) ∧
    (ts = [] ∧ (∀ i d' f' us, Instruction.read d = .ok i d' → ¬ BrokenLambda lambdas c i f' us) ∨
      ∃ i d', Instruction.read d = .ok i d' ∧ BrokenLambda lambdas c i f ts)

/-- A method whose descriptor is in order can only stop in its code. -/
theorem stopsInCode_of_fault (howner : c.name = .ok owner) {j : Nat} {f : Fault}
    (hj : j < c.methods.size)
    (hfault : (ofFirst lambdas c (c.fields.size + j + 1)).fault = some f)
    (hcode : (upTo lambdas c j 0).fault = none) :
    StopsInCode lambdas c owner j f := by
  have hx : c.methods[j]? = some c.methods[j] := Array.getElem?_eq_getElem hj
  obtain ⟨code, hsome, d, hdata, user, ts, huser, hstops, hcut, hreferences⟩ :=
    exists_cut howner hx hfault hcode
  refine ⟨_, code, d, user, ts, hx, hsome, hdata, huser, hstops, hcut, ?_, ?_⟩
  · rw [reports, hreferences, List.map_append, noted, List.map_map]
    rfl
  -- nothing has been noted, unless a lambda expression is broken behind its implementation
  · cases hstops with
    | unreadable hread hmore =>
      refine .inl ⟨rfl, ?_⟩
      intro i d' f' us hread'
      rw [hread] at hread'
      cases hread'
    | instruction hread hstops =>
      rcases hstops with ⟨hfaults, rfl⟩ | hbroken
      · refine .inl ⟨rfl, ?_⟩
        intro i d' f' us hread'
        rw [hread, EStateM.Result.ok.injEq] at hread'
        obtain ⟨rfl, -⟩ := hread'
        exact hfaults.not_brokenLambda
      · exact .inr ⟨_, _, hread, hbroken⟩

/-- What a search of a byte string reports. Nothing, unless there is a class
with a name. Otherwise the members are searched in order: each adds reports of
its own only, and a fault ends the search with what has been reported. In the
code of a method, the search stops where it would find no more. -/
theorem stops_at_first_fault (lambdas : Bool) (bytes : Bytes) :
    (∀ f, ClassFile.ofBytes bytes = .error f → ofBytes lambdas bytes = ⟨#[], some f⟩) ∧
    ∀ c, ClassFile.ofBytes bytes = .ok c →
      (∀ f, c.name = .error f → ofBytes lambdas bytes = ⟨#[], some f⟩) ∧
      ∀ owner, c.name = .ok owner →
        ofBytes lambdas bytes = ofFirst lambdas c c.memberCount ∧
        (∀ k < c.memberCount,
          ((ofFirst lambdas c k).fault = none →
            ∃ added, (ofFirst lambdas c (k + 1)).reports = (ofFirst lambdas c k).reports ++ added ∧
              ∀ r ∈ added, ∃ s, c.SymbolAt owner k s ∧ r.2 = s.usage) ∧
          ((ofFirst lambdas c k).fault ≠ none →
            ofFirst lambdas c (k + 1) = ofFirst lambdas c k)) ∧
        ∀ j < c.methods.size, ∀ f,
          (ofFirst lambdas c (c.fields.size + j + 1)).fault = some f →
          (upTo lambdas c j 0).fault = none →
          StopsInCode lambdas c owner j f := by
  -- a file that is no class, then one whose name is missing, then the members one by one
  refine ⟨?_, ?_⟩
  · intro f hf
    rw [ofBytes, hf]
  · intro c hc
    have hbytes : ofBytes lambdas bytes = ofClass lambdas c := by rw [ofBytes, hc]
    refine ⟨?_, ?_⟩
    · intro f hname
      rw [hbytes, ofClass, visitClass, hname]
      rfl
    · intro owner howner
      refine ⟨?_, ?_, ?_⟩
      · rw [hbytes, ofFirst, c.declaring_memberCount]
      · intro k hk
        exact ofFirst_succ howner hk
      · intro j hj f hfault hcode
        exact stopsInCode_of_fault howner hj hfault hcode

/-- A class file: the class `C` with a method `m` that reads the field `f` of
the class `B`, and then makes a function that constructs an object of the class
`A`. The type of the interface method is malformed: it is `Q`. -/
def brokenLambdaBytes : Bytes :=
  [0xCA, 0xFE, 0xBA, 0xBE, 0, 0, 0, 52, 0, 32, 1, 0, 34, 106, 97, 118, 97, 47, 108, 97, 110, 103,
    47, 105, 110, 118, 111, 107, 101, 47, 76, 97, 109, 98, 100, 97, 77, 101, 116, 97, 102, 97, 99,
    116, 111, 114, 121, 7, 0, 1, 1, 0, 11, 109, 101, 116, 97, 102, 97, 99, 116, 111, 114, 121, 1, 0,
    3, 40, 41, 86, 12, 0, 3, 0, 4, 10, 0, 2, 0, 5, 15, 6, 0, 6, 1, 0, 1, 81, 16, 0, 8, 1, 0, 1, 65,
    7, 0, 10, 1, 0, 6, 60, 105, 110, 105, 116, 62, 12, 0, 12, 0, 4, 10, 0, 11, 0, 13, 15, 8, 0, 14,
    16, 0, 4, 1, 0, 1, 114, 1, 0, 5, 40, 41, 76, 82, 59, 12, 0, 17, 0, 18, 18, 0, 0, 0, 19, 1, 0, 1,
    66, 7, 0, 21, 1, 0, 1, 102, 1, 0, 1, 73, 12, 0, 23, 0, 24, 9, 0, 22, 0, 25, 1, 0, 1, 109, 1, 0,
    4, 67, 111, 100, 101, 1, 0, 16, 66, 111, 111, 116, 115, 116, 114, 97, 112, 77, 101, 116, 104,
    111, 100, 115, 1, 0, 1, 67, 7, 0, 30, 0, 33, 0, 31, 0, 0, 0, 0, 0, 0, 0, 1, 0, 1, 0, 27, 0, 4,
    0, 1, 0, 28, 0, 0, 0, 21, 0, 0, 0, 0, 0, 0, 0, 9, 178, 0, 26, 186, 0, 20, 0, 0, 177, 0, 0, 0, 0,
    0, 1, 0, 29, 0, 0, 0, 12, 0, 1, 0, 7, 0, 3, 0, 9, 0, 15, 0, 16]

/-- In the sample, the search stops in the code of the method. -/
theorem stopsInCode_of_brokenLambdaBytes :
    ∃ c, ClassFile.ofBytes brokenLambdaBytes = .ok c ∧ ∃ f, StopsInCode true c "C" 0 f := by
  -- the method is reached, its descriptor is in order, and it has a fault
  have hsample : ((ClassFile.ofBytes brokenLambdaBytes).toOption.any fun c =>
      decide (c.name = .ok "C") && decide (0 < c.methods.size) &&
        (ofFirst true c (c.fields.size + 0 + 1)).fault.isSome &&
        (upTo true c 0 0).fault.isNone) = true := by
    decide +kernel
  cases hc : ClassFile.ofBytes brokenLambdaBytes with
  | error f =>
    rw [hc] at hsample
    cases hsample
  | ok c =>
    rw [hc] at hsample
    simp only [Except.toOption, Option.any_some, Bool.and_eq_true, decide_eq_true_eq,
      Option.isSome_iff_exists, Option.isNone_iff_eq_none] at hsample
    obtain ⟨⟨⟨howner, hmethod⟩, f, hfault⟩, hcode⟩ := hsample
    obtain ⟨-, -, hstops⟩ :=
      ((stops_at_first_fault true brokenLambdaBytes).2 c hc).2 "C" howner
    exact ⟨c, rfl, f, hstops 0 hmethod f hfault hcode⟩

end Findings

end Backref
