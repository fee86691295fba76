import Backref.Proofs.ClassFile.Written
import Backref.Proofs.Discovery.Stopping
import Backref.Proofs.Symbol.Parse

/-!
# Users by class

The users under a key are grouped by the class that their usage strings are read
with. Whatever an index holds, a string that is read is in one group, that of
its class, and no group is empty.

All users that a class file reports are members of its class, so there is one
group at most if no colon in the name of the class ends that name too early. It
misses the members whose names are empty or start with a colon: their usage
strings are not read.

Main results:

* `Index.getElem?_usersByClass` — the groups of any index;
* `Findings.madeBy_of_reported` — the users that a class file reports;
* `Index.usersByClass_ingest` — the groups of an index of one class file.
-/

namespace Backref

-- ---------------------------------------------------------------------------
-- Groups
-- ---------------------------------------------------------------------------

namespace Index

/-- A usage string goes into the group of the class that it is read with. -/
theorem mem_users_groupOne {groups : UsageTable} {usage g u : String} :
    u ∈ (groupOne groups usage).users g ↔
      (usage = u ∧ ∃ s, Symbol.parse u = .ok s ∧ s.ownerClass = g) ∨ u ∈ groups.users g := by
  unfold groupOne
  -- a usage that cannot be read is left out
  cases hparse : Symbol.parse usage with
  | ok s =>
    rw [UsageTable.mem_users_file]
    refine or_congr_left ?_
    constructor
    · rintro ⟨rfl, rfl⟩
      exact ⟨rfl, s, hparse, rfl⟩
    · rintro ⟨rfl, s', hs', rfl⟩
      rw [hparse] at hs'
      cases hs'
      exact ⟨rfl, rfl⟩
  | error fault =>
    constructor
    · exact .inr
    · rintro (⟨rfl, s, hs, -⟩ | h)
      · rw [hparse] at hs
        cases hs
      · exact h

/-- Usages are grouped under their classes, behind those that are there. -/
theorem mem_users_foldl_groupOne {usages : List String} {groups : UsageTable} {g u : String} :
    u ∈ (usages.foldl groupOne groups).users g ↔
      (u ∈ usages ∧ ∃ s, Symbol.parse u = .ok s ∧ s.ownerClass = g) ∨ u ∈ groups.users g := by
  -- the induction is on the usages, for any groups made before them
  induction usages generalizing groups with
  | nil => simp
  | cons usage usages ih =>
    rw [List.foldl_cons, ih, mem_users_groupOne, List.mem_cons]
    constructor
    · rintro (⟨hu, h⟩ | ⟨rfl, h⟩ | h)
      · exact .inl ⟨.inr hu, h⟩
      · exact .inl ⟨.inl rfl, h⟩
      · exact .inr h
    · rintro (⟨rfl | hu, h⟩ | h)
      · exact .inr (.inl ⟨rfl, h⟩)
      · exact .inl ⟨hu, h⟩
      · exact .inr (.inr h)

/-- Grouping makes no empty group. -/
theorem inhabited_foldl_groupOne {usages : List String} {groups : UsageTable}
    (h : groups.Inhabited) : (usages.foldl groupOne groups).Inhabited := by
  induction usages generalizing groups with
  | nil => exact h
  | cons usage usages ih =>
    refine ih ?_
    unfold groupOne
    split
    · exact h.file _ _
    · exact h

/-- The groups under a key: no group is empty, and each has the users that are
read as symbols of its class. -/
theorem getElem?_usersByClass {i : Index} {k g : String} {us : UsageSet} :
    (i.usersByClass k)[g]? = some us ↔ us ≠ ∅ ∧
      ∀ u, u ∈ us ↔ u ∈ i.users k ∧ ∃ s, Symbol.parse u = .ok s ∧ s.ownerClass = g := by
  have hmem : ∀ u, u ∈ (i.usersByClass k).users g ↔
      u ∈ i.users k ∧ ∃ s, Symbol.parse u = .ok s ∧ s.ownerClass = g := by
    intro u
    rw [usersByClass, mem_users_foldl_groupOne, Std.ExtTreeSet.mem_toList]
    simp [UsageTable.users]
  have hinhabited : (i.usersByClass k).Inhabited :=
    inhabited_foldl_groupOne UsageTable.inhabited_empty
  -- no group is empty, so a group is there exactly where it has a member
  rw [hinhabited.getElem?_eq_some]
  refine and_congr_right fun _ => ?_
  constructor
  · rintro rfl
    exact hmem
  · intro hus
    apply Std.ExtTreeSet.ext_mem
    intro u
    rw [hmem, hus]

end Index

-- ---------------------------------------------------------------------------
-- The users that a class file reports
-- ---------------------------------------------------------------------------

/-- The members of a class have it as their owner. -/
theorem ClassFile.SymbolAt.owner_eq {c : ClassFile} {owner : String} {k : Nat} {s : Symbol}
    {m : Member} (h : c.SymbolAt owner k s) (hm : s.member? = some m) : m.owner = owner := by
  cases h with
  | field _ hdeclares =>
    rw [← Option.some.inj hm]
    exact hdeclares.1
  | method _ hdeclares =>
    rw [← Option.some.inj hm]
    exact hdeclares.1

namespace Discovery

variable {lambdas : Bool} {c : ClassFile} {owner : String}

/-- A reference that a member of a class makes, whose descriptor spells something. -/
def MadeBy (c : ClassFile) (owner : String) (r : Reference) : Prop :=
  ∃ k m, c.SymbolAt owner k r.user ∧ r.user.member? = some m ∧ m.descriptor ≠ ""

/-- What is noted for a member is made by it. -/
theorem madeBy_noted {k : Nat} {user : Symbol} {m : Member} {ts : List Symbol}
    (huser : c.SymbolAt owner k user) (hm : user.member? = some m)
    (hdescriptor : m.descriptor ≠ "") :
    ∀ r ∈ noted user ts, MadeBy c owner r := by
  intro r hr
  obtain ⟨rfl, -⟩ := mem_noted.mp hr
  exact ⟨k, m, huser, hm, hdescriptor⟩

/-- A user without a colon in its owner is read as one of that owner if a member with
its usage string is legible. -/
theorem MadeBy.exists_parse_iff {r : Reference} (h : MadeBy c owner r)
    (hplain : ':' ∉ owner.toList) {g : String} :
    (∃ t, Symbol.parse r.user.usage = .ok t ∧ t.ownerClass = g) ↔ g = owner ∧
      ∃ n s m, c.SymbolAt owner n s ∧ s.usage = r.user.usage ∧ s.member? = some m ∧
        m.Legible := by
  obtain ⟨k, m, hat, hm, hdescriptor⟩ := h
  have howner := hat.owner_eq hm
  rw [Symbol.exists_parse_iff hm (howner ▸ hplain) hdescriptor]
  constructor
  · rintro ⟨hlegible, rfl⟩
    exact ⟨howner, k, r.user, m, hat, rfl, hm, hlegible⟩
  · rintro ⟨rfl, n, s, m', hat', husage, hm', hlegible⟩
    have hkey := (Symbol.usage_eq_iff.mp husage).2
    rw [Symbol.referenceKey_of_member hm', Symbol.referenceKey_of_member hm] at hkey
    exact ⟨hlegible.of_referenceKey_eq (hat'.owner_eq hm' ▸ hplain) (howner ▸ hplain) hkey, howner⟩

/-- An empty text is no field descriptor. -/
theorem FieldTypeRefers.descriptor_ne {d : String} {ts : List Symbol} (h : FieldTypeRefers d ts) :
    d ≠ "" := by
  rintro rfl
  obtain ⟨t, ht, -⟩ := h
  cases FieldType.parse_eq_ok.mpr ht

theorem MethodTypeRefers.descriptor_ne {d : String} {ts : List Symbol}
    (h : MethodTypeRefers d ts) : d ≠ "" := by
  rintro rfl
  obtain ⟨t, ht, -⟩ := h
  cases MethodType.parse_eq_ok.mpr ht

/-- What a field adds is made by it. -/
theorem adds_madeBy_field {k : Nat} {x : Field} (hx : c.fields[k]? = some x) :
    Adds (MadeBy c owner) (visitField c owner x) := by
  refine Adds.of_finds (finds_visitField c owner x) (stops_visitField c owner x) ?_ ?_
  · intro rs h
    obtain ⟨m, hm, ts, hts, rfl⟩ := h
    exact madeBy_noted (.field hx hm) rfl hts.descriptor_ne
  · intro f rs h
    obtain ⟨rfl, -⟩ := h
    simp

theorem adds_madeBy_method {k : Nat} {x : Method} (hx : c.methods[k]? = some x) :
    Adds (MadeBy c owner) (visitMethod lambdas c owner x) := by
  refine Adds.of_finds (finds_visitMethod lambdas c owner x)
    (stops_visitMethod lambdas c owner x) ?_ ?_
  · intro rs h
    obtain ⟨m, hm, ts, ⟨us, vs, hus, -⟩, rfl⟩ := h
    exact madeBy_noted (.method hx hm) rfl hus.descriptor_ne
  · intro f rs h
    rcases h with ⟨-, rfl⟩ | ⟨m, hm, ts, ⟨-, rfl⟩ | ⟨code, us, vs, -, hus, -⟩, rfl⟩
    · simp
    · simp [noted]
    · exact madeBy_noted (.method hx hm) rfl hus.descriptor_ne

end Discovery

namespace Findings

open Discovery

/-- What a class reports is made by its members. -/
theorem madeBy_of_mem {lambdas : Bool} {c : ClassFile} {owner : String}
    (howner : c.name = .ok owner) {r : Reference} (hr : r ∈ (ofClass lambdas c).references) :
    MadeBy c owner r := by
  have hadds : Adds (MadeBy c owner) (do
      visitAll (visitField c owner) c.fields.toList
      visitAll (visitMethod lambdas c owner) c.methods.toList) := by
    refine (Adds.visitAll fun x hx => ?_).bind (Adds.visitAll fun x hx => ?_)
    · obtain ⟨k, hk⟩ := List.mem_iff_getElem?.mp hx
      exact adds_madeBy_field (by rwa [Array.getElem?_toList] at hk)
    · obtain ⟨k, hk⟩ := List.mem_iff_getElem?.mp hx
      exact adds_madeBy_method (by rwa [Array.getElem?_toList] at hk)
  obtain ⟨rs, hrs, hreferences⟩ := hadds #[]
  have hmem : r ∈ (ofClass lambdas c).references.toList := Array.mem_toList_iff.mpr hr
  rw [ofClass, visitClass, howner] at hmem
  exact hrs r (by rwa [← List.nil_append rs, ← hreferences])

/-- A class without a name reports nothing. -/
theorem exists_name_of_mem {lambdas : Bool} {c : ClassFile} {r : Reference}
    (hr : r ∈ (ofClass lambdas c).references) : ∃ owner, c.name = .ok owner := by
  cases howner : c.name with
  | ok owner => exact ⟨owner, rfl⟩
  | error f =>
    have hnone : (ofClass lambdas c).references = #[] := by
      rw [ofClass, visitClass, howner]
      rfl
    rw [hnone] at hr
    simp at hr

/-- What a byte string reports is made by members of the class in it. -/
theorem madeBy_of_reported {lambdas : Bool} {bytes : Bytes} {r : Reference}
    (hr : r ∈ (ofBytes lambdas bytes).references) :
    ∃ c owner, ClassFile.ofBytes bytes = .ok c ∧ c.name = .ok owner ∧ MadeBy c owner r := by
  unfold ofBytes at hr
  split at hr
  · rename_i c hc
    obtain ⟨owner, howner⟩ := exists_name_of_mem hr
    exact ⟨c, owner, hc, howner, madeBy_of_mem howner hr⟩
  · simp at hr

end Findings

-- ---------------------------------------------------------------------------
-- One class file
-- ---------------------------------------------------------------------------

namespace Index

/-- Without prefixes every key is accepted. -/
theorem accepts_unfiltered (key : String) : Namespaces.unfiltered.accepts key = true := by
  simp [Namespaces.accepts, Namespaces.unfiltered]

/-- The users that an unfiltered index has from one class file. -/
theorem mem_users_unfiltered {lambdas : Bool} {bytes : Bytes} {k u : String} :
    u ∈ ((empty ⟨.unfiltered, lambdas⟩).ingest bytes).1.users k ↔
      ∃ r ∈ (Findings.ofBytes lambdas bytes).references,
        r.target.usage = k ∧ r.user.usage = u := by
  have h := @mem_users_ingest ⟨.unfiltered, lambdas⟩ [bytes] k u
  simpa [performAll, perform, accepts_unfiltered] using h

/-- The groups of an index that has read one class file, whose name has no colon. -/
theorem getElem?_usersByClass_ingest {lambdas : Bool} {bytes : Bytes} {c : ClassFile}
    {owner : String} (hc : ClassFile.ofBytes bytes = .ok c) (howner : c.name = .ok owner)
    (hplain : ':' ∉ owner.toList) {k g : String} {us : UsageSet} :
    let i := ((empty ⟨.unfiltered, lambdas⟩).ingest bytes).1
    (i.usersByClass k)[g]? = some us ↔ g = owner ∧ us ≠ ∅ ∧ ∀ u, u ∈ us ↔ u ∈ i.users k ∧
      ∃ n s m, c.SymbolAt owner n s ∧ s.usage = u ∧ s.member? = some m ∧ m.Legible := by
  intro i
  -- only members of the class use anything, and a legible one is read back as its own
  have hread : ∀ u, u ∈ i.users k →
      ((∃ t, Symbol.parse u = .ok t ∧ t.ownerClass = g) ↔ g = owner ∧
        ∃ n s m, c.SymbolAt owner n s ∧ s.usage = u ∧ s.member? = some m ∧ m.Legible) := by
    intro u hu
    obtain ⟨r, hr, -, rfl⟩ := mem_users_unfiltered.mp hu
    rw [Findings.ofBytes, hc] at hr
    exact (Findings.madeBy_of_mem howner hr).exists_parse_iff hplain
  rw [getElem?_usersByClass]
  constructor
  · rintro ⟨hne, hus⟩
    obtain ⟨u, hu⟩ := UsageTable.exists_mem_of_ne_empty hne
    obtain ⟨huser, hparse⟩ := (hus u).mp hu
    obtain ⟨rfl, -⟩ := (hread u huser).mp hparse
    refine ⟨rfl, hne, fun u => (hus u).trans (and_congr_right fun hu => ?_)⟩
    rw [hread u hu, and_iff_right rfl]
  · rintro ⟨rfl, hne, hus⟩
    refine ⟨hne, fun u => (hus u).trans (and_congr_right fun hu => ?_)⟩
    rw [hread u hu, and_iff_right rfl]

/-- The groups of an index that has read one class file, and nothing else. There
are none under a key without users. Otherwise the users are members of the
class, and if no colon is in its name, they are in one group at most, that of
the class: it has the users whose members are legible, and there is no group if
no user is. So where all members of the class are legible, the one group has
all users. -/
theorem usersByClass_ingest (lambdas : Bool) (bytes : Bytes) (k : String)
    (hplain : ∀ c owner, ClassFile.ofBytes bytes = .ok c → c.name = .ok owner →
      ':' ∉ owner.toList) :
    let i := ((empty ⟨.unfiltered, lambdas⟩).ingest bytes).1
    (i.users k = ∅ → i.usersByClass k = ∅) ∧
    (i.users k ≠ ∅ → ∃ c owner, ClassFile.ofBytes bytes = .ok c ∧ c.name = .ok owner ∧
      (∀ u ∈ i.users k, ∃ n s, c.SymbolAt owner n s ∧ s.usage = u) ∧
      (∀ g us, (i.usersByClass k)[g]? = some us ↔ g = owner ∧ us ≠ ∅ ∧
        ∀ u, u ∈ us ↔ u ∈ i.users k ∧
          ∃ n s m, c.SymbolAt owner n s ∧ s.usage = u ∧ s.member? = some m ∧ m.Legible) ∧
      ((∀ n s m, c.SymbolAt owner n s → s.member? = some m → m.Legible) →
        ∀ g, (i.usersByClass k)[g]? = if g = owner then some (i.users k) else none)) := by
  intro i
  constructor
  · intro hempty
    rw [usersByClass, hempty]
    rfl
  · intro hne
    obtain ⟨u, hu⟩ := UsageTable.exists_mem_of_ne_empty hne
    obtain ⟨r, hr, -⟩ := mem_users_unfiltered.mp hu
    obtain ⟨c, owner, hc, howner, -⟩ := Findings.madeBy_of_reported hr
    have hgroups : ∀ g us, (i.usersByClass k)[g]? = some us ↔ _ := fun g us =>
      getElem?_usersByClass_ingest hc howner (hplain c owner hc howner)
    -- every usage was made by some member
    have hmembers : ∀ u ∈ i.users k, ∃ n s m, c.SymbolAt owner n s ∧ s.usage = u ∧
        s.member? = some m := by
      intro u hu
      obtain ⟨r, hr, -, rfl⟩ := mem_users_unfiltered.mp hu
      rw [Findings.ofBytes, hc] at hr
      obtain ⟨n, m, hat, hm, -⟩ := Findings.madeBy_of_mem howner hr
      exact ⟨n, r.user, m, hat, rfl, hm⟩
    refine ⟨c, owner, hc, howner, ?_, hgroups, ?_⟩
    · intro u hu
      obtain ⟨n, s, m, hat, husage, -⟩ := hmembers u hu
      exact ⟨n, s, hat, husage⟩
    · intro hlegible g
      -- there is a group for the owner and for nobody else
      split
      · rename_i hg
        refine (hgroups g _).mpr ⟨hg, hne, fun u => ⟨fun hu => ⟨hu, ?_⟩, And.left⟩⟩
        obtain ⟨n, s, m, hat, husage, hm⟩ := hmembers u hu
        exact ⟨n, s, m, hat, husage, hm, hlegible n s m hat hm⟩
      · rename_i hg
        cases hgroup : (i.usersByClass k)[g]? with
        | none => rfl
        | some us => exact absurd ((hgroups g us).mp hgroup).1 hg

-- ---------------------------------------------------------------------------
-- A class with a field
-- ---------------------------------------------------------------------------

/-- A class with a field of the class `B`. -/
def classWithField (owner name : String) : ClassFile where
  minor := 0
  major := 52
  pool := ⟨#[none, some (.utf8 owner), some (.classInfo 1), some (.utf8 name),
    some (.utf8 "LB;")]⟩
  access := .publicSuper
  thisClass := 2
  superClass := 0
  interfaces := #[]
  fields := #[⟨⟨0⟩, 3, 4⟩]
  methods := #[]
  bootstrapMethods := #[]

theorem name_classWithField (owner name : String) : (classWithField owner name).name = .ok owner :=
  rfl

/-- Its field is the only symbol it declares. -/
theorem symbolAt_classWithField {owner name : String} {n : Nat} {s : Symbol}
    (h : (classWithField owner name).SymbolAt owner n s) : s = .field ⟨owner, name, "LB;"⟩ := by
  cases h with
  | @field _ x m hx hm =>
    have hmem : x ∈ (classWithField owner name).fields := Array.mem_of_getElem? hx
    obtain rfl := Array.mem_singleton.mp hmem
    have hdeclares : Discovery.Declares (classWithField owner name) owner 3 4
      ⟨owner, name, "LB;"⟩ := ⟨rfl, rfl, rfl⟩
    rw [Discovery.Declares.unique rfl hm hdeclares]
  | method hx _ => cases hx

/-- The bytes of a class with a field. -/
def fieldBytes (owner name : String) : Bytes :=
  (ClassFile.plainFrame 0 0 (classWithField owner name)).bytes

/-- The field is a user of its class. -/
theorem mem_users_fieldBytes {owner name : String}
    (h : (Findings.ofBytes true (fieldBytes owner name)).references =
      #[⟨.ofClass "B", .field ⟨owner, name, "LB;"⟩⟩]) :
    (Symbol.field ⟨owner, name, "LB;"⟩).usage ∈
      ((empty ⟨.unfiltered, true⟩).ingest (fieldBytes owner name)).1.users "s:B" := by
  have hkey : (Symbol.ofClass "B").usage = "s:B" := by decide
  refine mem_users_unfiltered.mpr ⟨⟨.ofClass "B", .field ⟨owner, name, "LB;"⟩⟩, ?_, hkey, rfl⟩
  rw [h]
  exact Array.mem_singleton.mpr rfl

/-- An index of one class file has no groups under a key without users, and one
group with all users under any other key: that of the class. -/
def Grouped (bytes : Bytes) (k : String) : Prop :=
  let i := ((empty ⟨.unfiltered, true⟩).ingest bytes).1
  (i.users k = ∅ → i.usersByClass k = ∅) ∧
  (i.users k ≠ ∅ → ∃ c owner us, ClassFile.ofBytes bytes = .ok c ∧ c.name = .ok owner ∧
    (∀ g, (i.usersByClass k)[g]? = if g = owner then some us else none) ∧ ∀ u ∈ i.users k, u ∈ us)

/-- A user that is not read as one of the class is not in its group. -/
theorem not_grouped {bytes : Bytes} {c : ClassFile} {owner k u : String}
    (hc : ClassFile.ofBytes bytes = .ok c) (howner : c.name = .ok owner)
    (hu : u ∈ ((empty ⟨.unfiltered, true⟩).ingest bytes).1.users k)
    (hunread : ∀ s, Symbol.parse u = .ok s → s.ownerClass ≠ owner) : ¬ Grouped bytes k := by
  rintro ⟨-, hgroup⟩
  obtain ⟨c', owner', us, hc', howner', hgroups, hall⟩ := hgroup fun hempty => by
    rw [hempty] at hu
    exact Std.ExtTreeSet.not_mem_empty hu
  obtain rfl := Except.ok.inj (hc.symm.trans hc')
  obtain rfl := Except.ok.inj (howner.symm.trans howner')
  have hown := hgroups owner
  rw [if_pos rfl] at hown
  obtain ⟨-, s, hparse, hs⟩ := ((getElem?_usersByClass.mp hown).2 u).mp (hall u hu)
  exact hunread s hparse hs

/-- A field without a name is in no group; and in a class with a colon in its name,
a field is in a group of another name. -/
theorem not_grouped_fieldBytes :
    ¬ Grouped (fieldBytes "C" "") "s:B" ∧ ¬ Grouped (fieldBytes "a:b" "f") "s:B" := by
  constructor
  · have hread : ClassFile.ofBytes (fieldBytes "C" "") = .ok (classWithField "C" "") := by
      decide +kernel
    refine not_grouped hread (name_classWithField ..) (mem_users_fieldBytes (by decide +kernel)) ?_
    intro s hs
    have hrefused : Symbol.parse (Symbol.field ⟨"C", "", "LB;"⟩).usage =
        .error (.malformed (.incompleteMember "f:C::LB;")) := by
      decide +kernel
    rw [hrefused] at hs
    cases hs
  -- with a colon in its name, the usage is read as one of another class
  · have hread : ClassFile.ofBytes (fieldBytes "a:b" "f") = .ok (classWithField "a:b" "f") := by
      decide +kernel
    refine not_grouped hread (name_classWithField ..) (mem_users_fieldBytes (by decide +kernel)) ?_
    intro s hs
    have hother : Symbol.parse (Symbol.field ⟨"a:b", "f", "LB;"⟩).usage =
        .ok (.field ⟨"a", "b", "f:LB;"⟩) := by
      decide +kernel
    rw [hother] at hs
    cases hs
    decide

/-- A field with a name is in the group of its class, and there is no other group. -/
theorem grouped_fieldBytes :
    ':' ∉ "C".toList ∧ ∃ us : UsageSet, "f:C:f:LB;" ∈ us ∧
      ∀ g, (((empty ⟨.unfiltered, true⟩).ingest (fieldBytes "C" "f")).1.usersByClass "s:B")[g]? =
        if g = "C" then some us else none := by
  have hread : ClassFile.ofBytes (fieldBytes "C" "f") = .ok (classWithField "C" "f") := by
    decide +kernel
  have hnamed := name_classWithField "C" "f"
  have hplain : ':' ∉ "C".toList := by decide
  have huser : "f:C:f:LB;" ∈ _ := @mem_users_fieldBytes "C" "f" (by decide +kernel)
  obtain ⟨-, hgroup⟩ := usersByClass_ingest true (fieldBytes "C" "f") "s:B"
    fun c owner hc howner => by
      obtain rfl := Except.ok.inj (hread.symm.trans hc)
      obtain rfl := Except.ok.inj (hnamed.symm.trans howner)
      exact hplain
  obtain ⟨c, owner, hc, howner, -, -, hone⟩ := hgroup fun hempty => by
    rw [hempty] at huser
    exact Std.ExtTreeSet.not_mem_empty huser
  obtain rfl := Except.ok.inj (hread.symm.trans hc)
  obtain rfl := Except.ok.inj (hnamed.symm.trans howner)
  -- the field is the one symbol, and it is legible
  refine ⟨hplain, _, huser, hone fun n s m hat hm => ?_⟩
  obtain rfl := symbolAt_classWithField hat
  obtain rfl := Option.some.inj hm
  exact ⟨by decide, by decide, by decide⟩

end Index

end Backref
