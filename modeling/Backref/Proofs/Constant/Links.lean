import Backref.Constant.Pool
import Backref.Proofs.Outcome

/-!
# Links between constants

What an index of a pool stands for, stated as a chain of constants: a class
index holds a class constant, whose name index holds the name, and so on. The
lookups of a pool succeed exactly along these chains. A pool that holds
everything another one does has all of its chains, too.

Main results:

* `ConstantPool.memberRef_eq_ok` and its companions — a lookup succeeds exactly
  along a chain;
* `ConstantPool.NamesMember.mono` and its companions — a chain stays in a
  larger pool.
-/

namespace Backref.ConstantPool

/-- An index holds a constant. -/
def Holds (pool : ConstantPool) (i : UInt16) (c : Constant) : Prop :=
  pool.slots[i.toNat]? = some (some c)

/-- An index holds a text. -/
def NamesText (pool : ConstantPool) (i : UInt16) (text : String) : Prop :=
  pool.Holds i (.utf8 text)

/-- An index stands for a class. -/
def NamesClass (pool : ConstantPool) (i : UInt16) (name : String) : Prop :=
  ∃ j, pool.Holds i (.classInfo j) ∧ pool.NamesText j name

/-- An index stands for a name with a descriptor. -/
def NamesSignature (pool : ConstantPool) (i : UInt16) (name descriptor : String) : Prop :=
  ∃ j k, pool.Holds i (.nameAndType j k) ∧ pool.NamesText j name ∧ pool.NamesText k descriptor

/-- An index stands for a member. -/
def NamesMember (pool : ConstantPool) (i : UInt16) (m : MemberRef) : Prop :=
  ∃ j k, pool.Holds i (.memberRef m.kind j k) ∧ pool.NamesClass j m.owner ∧
    pool.NamesSignature k m.name m.descriptor

/-- An index stands for a method handle. -/
def NamesHandle (pool : ConstantPool) (i : UInt16) (h : HandleRef) : Prop :=
  ∃ j, pool.Holds i (.methodHandle h.kind j) ∧ pool.NamesMember j h.member

/-- An index stands for a method type. -/
def NamesMethodType (pool : ConstantPool) (i : UInt16) (descriptor : String) : Prop :=
  ∃ j, pool.Holds i (.methodType j) ∧ pool.NamesText j descriptor

/-- An index stands for a dynamic call site. -/
def NamesCallSite (pool : ConstantPool) (i : UInt16) (s : CallSite) : Prop :=
  ∃ j, pool.Holds i (.invokeDynamic s.bootstrap j) ∧ pool.NamesSignature j s.name s.descriptor

-- ---------------------------------------------------------------------------
-- Lookups
-- ---------------------------------------------------------------------------

section Lookups

variable {pool : ConstantPool} {i : UInt16}

/-- A look-up of an index yields the constant that the index holds. -/
theorem get_eq_ok {c : Constant} : pool.get i = .ok c ↔ pool.Holds i c := by
  unfold get Holds
  split
  · rename_i found h
    rw [h]
    simp
  · rename_i h
    constructor
    · intro herror
      cases herror
    · intro hc
      exact absurd hc (h c)

/-- An index holds one constant at most. -/
theorem Holds.unique {c c' : Constant} (h : pool.Holds i c) (h' : pool.Holds i c') : c = c' := by
  rw [Holds, h, Option.some.injEq, Option.some.injEq] at h'
  exact h'

/-- A look-up of a text yields the text that an index holds. -/
theorem utf8_eq_ok {text : String} : pool.utf8 i = .ok text ↔ pool.NamesText i text := by
  rw [utf8, except_bind_eq_ok, NamesText]
  constructor
  · rintro ⟨c, hget, h⟩
    -- a constant of another kind is refused
    split at h
    · rw [← except_pure_eq_ok.mp h]
      exact get_eq_ok.mp hget
    · cases h
  · intro h
    exact ⟨_, get_eq_ok.mpr h, rfl⟩

/-- A look-up of a class yields the name that its constant leads to. -/
theorem className_eq_ok {name : String} :
    pool.className i = .ok name ↔ pool.NamesClass i name := by
  rw [className, except_bind_eq_ok]
  constructor
  · rintro ⟨c, hget, h⟩
    -- only a class constant has a name index to follow
    split at h
    · exact ⟨_, get_eq_ok.mp hget, utf8_eq_ok.mp h⟩
    · cases h
  · rintro ⟨j, hi, hj⟩
    exact ⟨_, get_eq_ok.mpr hi, utf8_eq_ok.mpr hj⟩

/-- A look-up of a signature yields the name and the descriptor that its constant leads to. -/
theorem nameAndType_eq_ok {name descriptor : String} :
    pool.nameAndType i = .ok (name, descriptor) ↔ pool.NamesSignature i name descriptor := by
  rw [nameAndType, except_bind_eq_ok]
  constructor
  · rintro ⟨c, hget, h⟩
    -- both indices are followed, the one for the name first
    split at h
    · obtain ⟨name', hname, h⟩ := except_bind_eq_ok.mp h
      obtain ⟨descriptor', hdescriptor, h⟩ := except_bind_eq_ok.mp h
      cases except_pure_eq_ok.mp h
      exact ⟨_, _, get_eq_ok.mp hget, utf8_eq_ok.mp hname, utf8_eq_ok.mp hdescriptor⟩
    · cases h
  · rintro ⟨j, k, hi, hj, hk⟩
    refine ⟨_, get_eq_ok.mpr hi, ?_⟩
    exact except_bind_eq_ok.mpr ⟨name, utf8_eq_ok.mpr hj,
      except_bind_eq_ok.mpr ⟨descriptor, utf8_eq_ok.mpr hk, rfl⟩⟩

/-- A look-up of a member yields the kind, the class and the signature that its
constant leads to. -/
theorem memberRef_eq_ok {m : MemberRef} : pool.memberRef i = .ok m ↔ pool.NamesMember i m := by
  rw [memberRef, except_bind_eq_ok]
  constructor
  · rintro ⟨c, hget, h⟩
    -- the class is looked up before the signature
    split at h
    · obtain ⟨owner, howner, h⟩ := except_bind_eq_ok.mp h
      obtain ⟨⟨name, descriptor⟩, hsignature, h⟩ := except_bind_eq_ok.mp h
      cases except_pure_eq_ok.mp h
      exact ⟨_, _, get_eq_ok.mp hget, className_eq_ok.mp howner, nameAndType_eq_ok.mp hsignature⟩
    · cases h
  · rintro ⟨j, k, hi, hj, hk⟩
    refine ⟨_, get_eq_ok.mpr hi, ?_⟩
    exact except_bind_eq_ok.mpr ⟨m.owner, className_eq_ok.mpr hj,
      except_bind_eq_ok.mpr ⟨(m.name, m.descriptor), nameAndType_eq_ok.mpr hk, rfl⟩⟩

/-- A look-up of a method handle yields its kind and the member that it leads to. -/
theorem methodHandle_eq_ok {h : HandleRef} :
    pool.methodHandle i = .ok h ↔ pool.NamesHandle i h := by
  rw [methodHandle, except_bind_eq_ok]
  constructor
  · rintro ⟨c, hget, hrest⟩
    split at hrest
    · obtain ⟨m, hm, hrest⟩ := except_bind_eq_ok.mp hrest
      cases except_pure_eq_ok.mp hrest
      exact ⟨_, get_eq_ok.mp hget, memberRef_eq_ok.mp hm⟩
    · cases hrest
  · rintro ⟨j, hi, hj⟩
    exact ⟨_, get_eq_ok.mpr hi, except_bind_eq_ok.mpr ⟨h.member, memberRef_eq_ok.mpr hj, rfl⟩⟩

/-- A look-up of a method type yields the descriptor that its constant leads to. -/
theorem methodType_eq_ok {descriptor : String} :
    pool.methodType i = .ok descriptor ↔ pool.NamesMethodType i descriptor := by
  rw [methodType, except_bind_eq_ok]
  constructor
  · rintro ⟨c, hget, h⟩
    split at h
    · exact ⟨_, get_eq_ok.mp hget, utf8_eq_ok.mp h⟩
    · cases h
  · rintro ⟨j, hi, hj⟩
    exact ⟨_, get_eq_ok.mpr hi, utf8_eq_ok.mpr hj⟩

/-- A look-up of a dynamic call site yields its number and the signature that it leads to. -/
theorem callSite_eq_ok {s : CallSite} : pool.callSite i = .ok s ↔ pool.NamesCallSite i s := by
  rw [callSite, except_bind_eq_ok]
  constructor
  · rintro ⟨c, hget, h⟩
    split at h
    · obtain ⟨⟨name, descriptor⟩, hsignature, h⟩ := except_bind_eq_ok.mp h
      cases except_pure_eq_ok.mp h
      exact ⟨_, get_eq_ok.mp hget, nameAndType_eq_ok.mp hsignature⟩
    · cases h
  · rintro ⟨j, hi, hj⟩
    exact ⟨_, get_eq_ok.mpr hi,
      except_bind_eq_ok.mpr ⟨(s.name, s.descriptor), nameAndType_eq_ok.mpr hj, rfl⟩⟩

/-! ### One reading at most -/

/-- An index stands for one text at most. -/
theorem NamesText.unique {a b : String} (ha : pool.NamesText i a) (hb : pool.NamesText i b) :
    a = b := by
  have hread := utf8_eq_ok.mpr ha
  rwa [utf8_eq_ok.mpr hb, Except.ok.injEq, eq_comm] at hread

/-- An index stands for one class at most. -/
theorem NamesClass.unique {a b : String} (ha : pool.NamesClass i a) (hb : pool.NamesClass i b) :
    a = b := by
  have hread := className_eq_ok.mpr ha
  rwa [className_eq_ok.mpr hb, Except.ok.injEq, eq_comm] at hread

/-- An index stands for one member at most. -/
theorem NamesMember.unique {a b : MemberRef} (ha : pool.NamesMember i a)
    (hb : pool.NamesMember i b) : a = b := by
  have hread := memberRef_eq_ok.mpr ha
  rwa [memberRef_eq_ok.mpr hb, Except.ok.injEq, eq_comm] at hread

end Lookups

-- ---------------------------------------------------------------------------
-- Larger pools
-- ---------------------------------------------------------------------------

/-- Everything in one pool is in another one, under the same index. -/
def Within (pool larger : ConstantPool) : Prop := ∀ i c, pool.Holds i c → larger.Holds i c

theorem Within.refl (pool : ConstantPool) : pool.Within pool := fun _ _ h => h

/-- A pool within one that is within a third is within the third. -/
theorem Within.trans {a b c : ConstantPool} (hab : a.Within b) (hbc : b.Within c) : a.Within c :=
  fun i k h => hbc i k (hab i k h)

section Mono

variable {pool larger : ConstantPool} {i : UInt16}

/-- A text keeps its index in a larger pool. -/
theorem NamesText.mono {text : String} (h : pool.NamesText i text) (hw : pool.Within larger) :
    larger.NamesText i text := hw _ _ h

/-- A class keeps its index in a larger pool. -/
theorem NamesClass.mono {name : String} (h : pool.NamesClass i name) (hw : pool.Within larger) :
    larger.NamesClass i name := by
  obtain ⟨j, hi, hj⟩ := h
  exact ⟨j, hw _ _ hi, hj.mono hw⟩

/-- A signature keeps its index in a larger pool. -/
theorem NamesSignature.mono {name descriptor : String} (h : pool.NamesSignature i name descriptor)
    (hw : pool.Within larger) : larger.NamesSignature i name descriptor := by
  obtain ⟨j, k, hi, hj, hk⟩ := h
  exact ⟨j, k, hw _ _ hi, hj.mono hw, hk.mono hw⟩

/-- A member keeps its index in a larger pool. -/
theorem NamesMember.mono {m : MemberRef} (h : pool.NamesMember i m) (hw : pool.Within larger) :
    larger.NamesMember i m := by
  obtain ⟨j, k, hi, hj, hk⟩ := h
  exact ⟨j, k, hw _ _ hi, hj.mono hw, hk.mono hw⟩

/-- A method handle keeps its index in a larger pool. -/
theorem NamesHandle.mono {h : HandleRef} (hh : pool.NamesHandle i h) (hw : pool.Within larger) :
    larger.NamesHandle i h := by
  obtain ⟨j, hi, hj⟩ := hh
  exact ⟨j, hw _ _ hi, hj.mono hw⟩

/-- A method type keeps its index in a larger pool. -/
theorem NamesMethodType.mono {descriptor : String} (h : pool.NamesMethodType i descriptor)
    (hw : pool.Within larger) : larger.NamesMethodType i descriptor := by
  obtain ⟨j, hi, hj⟩ := h
  exact ⟨j, hw _ _ hi, hj.mono hw⟩

/-- A dynamic call site keeps its index in a larger pool. -/
theorem NamesCallSite.mono {s : CallSite} (h : pool.NamesCallSite i s) (hw : pool.Within larger) :
    larger.NamesCallSite i s := by
  obtain ⟨j, hi, hj⟩ := h
  exact ⟨j, hw _ _ hi, hj.mono hw⟩

end Mono

end Backref.ConstantPool
