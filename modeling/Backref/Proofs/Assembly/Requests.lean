import Backref.Proofs.Assembly.Pool
import Backref.Proofs.Constant.Slots

/-!
# What a pool builder has answered

A caller asks a builder for constants one after the other, and goes on where
a request fails. Whatever it has asked for, the pool that the builder writes
is read back as a pool in which every answer still resolves to what was asked
for. Two requests have the same answer only if they are the same request, and
the slot behind a `long` is never an answer.

Main results:

* `Request.interns` — one request keeps a builder sound, and its answer names
  what was asked for;
* `Request.faithful_runAll` — all requests of a run, from the empty builder.
-/

namespace Backref

open Reader

-- ---------------------------------------------------------------------------
-- Where a constant stands
-- ---------------------------------------------------------------------------

namespace ConstantPool

/-- No constant stands under two indices. -/
def Distinct (pool : ConstantPool) : Prop := ∀ i j k, pool.Holds i k → pool.Holds j k → i = j

section Distinct

variable {pool : ConstantPool} {i j : UInt16}

/-- A text is at one index at most. -/
theorem NamesText.index_unique (hd : pool.Distinct) {text : String} (hi : pool.NamesText i text)
    (hj : pool.NamesText j text) : i = j := hd i j _ hi hj

theorem NamesClass.index_unique (hd : pool.Distinct) {name : String} (hi : pool.NamesClass i name)
    (hj : pool.NamesClass j name) : i = j := by
  obtain ⟨a, hi, ha⟩ := hi
  obtain ⟨b, hj, hb⟩ := hj
  obtain rfl := NamesText.index_unique hd ha hb
  exact hd i j _ hi hj

theorem NamesSignature.index_unique (hd : pool.Distinct) {name descriptor : String}
    (hi : pool.NamesSignature i name descriptor) (hj : pool.NamesSignature j name descriptor) :
    i = j := by
  obtain ⟨a, a', hi, ha, ha'⟩ := hi
  obtain ⟨b, b', hj, hb, hb'⟩ := hj
  obtain rfl := NamesText.index_unique hd ha hb
  obtain rfl := NamesText.index_unique hd ha' hb'
  exact hd i j _ hi hj

/-- A member is at one index at most, as its parts are. -/
theorem NamesMember.index_unique (hd : pool.Distinct) {m : MemberRef} (hi : pool.NamesMember i m)
    (hj : pool.NamesMember j m) : i = j := by
  obtain ⟨a, a', hi, ha, ha'⟩ := hi
  obtain ⟨b, b', hj, hb, hb'⟩ := hj
  obtain rfl := NamesClass.index_unique hd ha hb
  obtain rfl := NamesSignature.index_unique hd ha' hb'
  exact hd i j _ hi hj

theorem NamesMethodType.index_unique (hd : pool.Distinct) {descriptor : String}
    (hi : pool.NamesMethodType i descriptor) (hj : pool.NamesMethodType j descriptor) : i = j := by
  obtain ⟨a, hi, ha⟩ := hi
  obtain ⟨b, hj, hb⟩ := hj
  obtain rfl := NamesText.index_unique hd ha hb
  exact hd i j _ hi hj

theorem NamesCallSite.index_unique (hd : pool.Distinct) {s : CallSite}
    (hi : pool.NamesCallSite i s) (hj : pool.NamesCallSite j s) : i = j := by
  obtain ⟨a, hi, ha⟩ := hi
  obtain ⟨b, hj, hb⟩ := hj
  obtain rfl := NamesSignature.index_unique hd ha hb
  exact hd i j _ hi hj

end Distinct

/-! ### The slot behind a wide constant -/

/-- The slot behind a wide constant is there, and it is empty. -/
theorem Filled.behind_wide {pool : ConstantPool} {ks : List Constant} {i : UInt16} {k : Constant}
    (h : pool.Filled ks) (hi : pool.Holds i k) (hwide : k.kind.isWide = true) :
    pool.slots[i.toNat + 1]? = some none := by
  unfold Holds at hi
  rw [← Array.getElem?_toList, h.slots] at hi ⊢
  cases hnat : i.toNat with
  | zero =>
    rw [hnat] at hi
    cases hi
  | succ n =>
    rw [hnat] at hi
    exact Constant.getElem?_filled_eq_none.mpr ⟨n, k, rfl, hi, hwide⟩

/-- The index behind a wide constant holds nothing. -/
theorem Filled.not_holds_behind {pool : ConstantPool} {ks : List Constant} {i : UInt16}
    {k : Constant} (h : pool.Filled ks) (hi : pool.Holds i k) (hwide : k.kind.isWide = true) :
    i.toNat + 1 < pool.size ∧ ∀ c, ¬ pool.Holds (i + 1) c := by
  have hslot := h.behind_wide hi hwide
  have hlt : i.toNat + 1 < pool.size := (Array.getElem?_eq_some_iff.mp hslot).1
  have hle := h.size_le
  have hnext : (i + 1).toNat = i.toNat + 1 := by
    unfold countLimit at hle
    have hone : (1 : UInt16).toNat = 1 := rfl
    rw [UInt16.toNat_add, hone]
    exact Nat.mod_eq_of_lt (by omega)
  refine ⟨hlt, fun c hc => ?_⟩
  rw [Holds, hnext, hslot] at hc
  cases hc

end ConstantPool

/-- A sound pool has no constant twice, as it finds each before it puts it in. -/
theorem PoolBuilder.Sound.distinct {b : PoolBuilder} (h : b.Sound) : b.pool.Distinct := by
  intro i j k hi hj
  have hfound := (h.indices k i).mpr hi
  rw [(h.indices k j).mpr hj] at hfound
  exact (Option.some.inj hfound).symm

-- ---------------------------------------------------------------------------
-- Requests
-- ---------------------------------------------------------------------------

/-- What a caller asks a pool builder for. -/
inductive Request
  | utf8 (text : String)
  | integer (value : Int32)
  | long (value : Int64)
  | classInfo (name : String)
  | string (text : String)
  | nameAndType (name descriptor : String)
  | memberRef (kind : MemberKind) (m : Member)
  | methodHandle (kind : UInt8) (member : UInt16)
  | methodType (descriptor : String)
  | invokeDynamic (bootstrap : UInt16) (name descriptor : String)
  deriving DecidableEq, Repr

namespace Request

/-- The index that a builder answers. -/
def run : Request → Interning UInt16
  | utf8 text => PoolBuilder.utf8 text
  | integer value => PoolBuilder.integer value
  | long value => PoolBuilder.long value
  | classInfo name => PoolBuilder.classInfo name
  | string text => PoolBuilder.string text
  | nameAndType name descriptor => PoolBuilder.nameAndType name descriptor
  | memberRef kind m => PoolBuilder.memberRef kind m
  | methodHandle kind member => PoolBuilder.methodHandle kind member
  | methodType descriptor => PoolBuilder.methodType descriptor
  | invokeDynamic bootstrap name descriptor => PoolBuilder.invokeDynamic bootstrap name descriptor

/-- What the lookups of a pool find at an index is what was asked for: the
constant there is of the kind that was asked for, and the lookup for this kind
finds the parts that were asked for. -/
def ResolvesAt (pool : ConstantPool) (i : UInt16) : Request → Prop
  | utf8 text => pool.get i = .ok (.utf8 text) ∧ pool.utf8 i = .ok text
  | integer value => pool.get i = .ok (.integer value)
  | long value => pool.get i = .ok (.long value)
  | classInfo name => (∃ j, pool.get i = .ok (.classInfo j)) ∧ pool.className i = .ok name
  | string text => ∃ j, pool.get i = .ok (.string j) ∧ pool.utf8 j = .ok text
  | nameAndType name descriptor =>
    (∃ j k, pool.get i = .ok (.nameAndType j k)) ∧ pool.nameAndType i = .ok (name, descriptor)
  | memberRef kind m =>
    (∃ j k, pool.get i = .ok (.memberRef kind j k)) ∧ pool.memberRef i = .ok ⟨m, kind⟩
  | methodHandle kind member => pool.get i = .ok (.methodHandle kind member)
  | methodType descriptor =>
    (∃ j, pool.get i = .ok (.methodType j)) ∧ pool.methodType i = .ok descriptor
  | invokeDynamic bootstrap name descriptor =>
    (∃ j, pool.get i = .ok (.invokeDynamic bootstrap j)) ∧
      pool.callSite i = .ok ⟨bootstrap, name, descriptor⟩

/-- The requests of a run that succeed, with their answers, and the builder
that is left. A request that fails leaves what it has added on the way. -/
def runAll : List Request → PoolBuilder → List (Request × UInt16) × PoolBuilder
  | [], b => ([], b)
  | r :: rs, b =>
    match r.run b with
    | .ok i b' => ((r, i) :: (runAll rs b').1, (runAll rs b').2)
    | .error _ b' => runAll rs b'

/-- The answers of a builder are what the pool that it writes says: the pool
is read back with the builder's count, and all answers resolve in it; the same
answer was given for the same request only; and a `long` has a second slot,
which is no answer. -/
structure Faithful (b : PoolBuilder) (answers : List (Request × UInt16)) : Prop where
  count_le : b.count ≤ countLimit
  read : ∃ pool : ConstantPool, Reads ConstantPool.read
      (FixedWidth.encode (UInt16.ofNat b.count) ++ b.pool.encodeConstants) pool ∧
    pool.size = b.count ∧ ∀ r i, (r, i) ∈ answers → r.ResolvesAt pool i
  eq_iff : ∀ r i r' i', (r, i) ∈ answers → (r', i') ∈ answers → (i = i' ↔ r = r')
  long : ∀ value i, (.long value, i) ∈ answers → i.toNat + 1 < b.count ∧
    ∀ r j, (r, j) ∈ answers → j ≠ i + 1

-- ---------------------------------------------------------------------------
-- One request
-- ---------------------------------------------------------------------------

/-- An index stands for what was asked for. -/
def NamedAt (pool : ConstantPool) (i : UInt16) : Request → Prop
  | utf8 text => pool.NamesText i text
  | integer value => pool.Holds i (.integer value)
  | long value => pool.Holds i (.long value)
  | classInfo name => pool.NamesClass i name
  | string text => ∃ j, pool.Holds i (.string j) ∧ pool.NamesText j text
  | nameAndType name descriptor => pool.NamesSignature i name descriptor
  | memberRef kind m => pool.NamesMember i ⟨m, kind⟩
  | methodHandle kind member => pool.Holds i (.methodHandle kind member)
  | methodType descriptor => pool.NamesMethodType i descriptor
  | invokeDynamic bootstrap name descriptor => pool.NamesCallSite i ⟨bootstrap, name, descriptor⟩

/-- A request keeps a builder sound, and its answer stands for what was asked for. -/
theorem interns (r : Request) : PoolBuilder.Interns r.run fun pool i => r.NamedAt pool i := by
  cases r with
  | utf8 text => exact PoolBuilder.interns_utf8 text
  | integer value => exact PoolBuilder.interns_integer value
  | long value => exact PoolBuilder.interns_intern (k := .long value) trivial
  | classInfo name => exact PoolBuilder.interns_classInfo name
  | string text => exact PoolBuilder.interns_string text
  | nameAndType name descriptor => exact PoolBuilder.interns_nameAndType name descriptor
  | memberRef kind m => exact PoolBuilder.interns_memberRef kind m
  | methodHandle kind member =>
    exact PoolBuilder.interns_intern (k := .methodHandle kind member) trivial
  | methodType descriptor => exact PoolBuilder.interns_methodType descriptor
  | invokeDynamic bootstrap name descriptor =>
    exact PoolBuilder.interns_invokeDynamic bootstrap name descriptor

section NamedAt

variable {pool larger : ConstantPool} {i j : UInt16} {r r' : Request}

theorem NamedAt.mono (h : r.NamedAt pool i) (hw : pool.Within larger) : r.NamedAt larger i := by
  cases r with
  | utf8 text => exact ConstantPool.NamesText.mono h hw
  | integer value => exact hw _ _ h
  | long value => exact hw _ _ h
  | classInfo name => exact ConstantPool.NamesClass.mono h hw
  | string text =>
    obtain ⟨j, hi, hj⟩ := h
    exact ⟨j, hw _ _ hi, hj.mono hw⟩
  | nameAndType name descriptor => exact ConstantPool.NamesSignature.mono h hw
  | memberRef kind m => exact ConstantPool.NamesMember.mono h hw
  | methodHandle kind member => exact hw _ _ h
  | methodType descriptor => exact ConstantPool.NamesMethodType.mono h hw
  | invokeDynamic bootstrap name descriptor => exact ConstantPool.NamesCallSite.mono h hw

/-- Whatever an index stands for, it holds a constant. -/
theorem NamedAt.holds (h : r.NamedAt pool i) : ∃ k, pool.Holds i k := by
  -- whatever has been asked for, the index holds a constant of that kind
  cases r with
  | utf8 text => exact ⟨_, h⟩
  | integer value => exact ⟨_, h⟩
  | long value => exact ⟨_, h⟩
  | methodHandle kind member => exact ⟨_, h⟩
  | classInfo name =>
    obtain ⟨j, hi, -⟩ := h
    exact ⟨_, hi⟩
  | string text =>
    obtain ⟨j, hi, -⟩ := h
    exact ⟨_, hi⟩
  | nameAndType name descriptor =>
    obtain ⟨j, k, hi, -⟩ := h
    exact ⟨_, hi⟩
  | memberRef kind m =>
    obtain ⟨j, k, hi, -⟩ := h
    exact ⟨_, hi⟩
  | methodType descriptor =>
    obtain ⟨j, hi, -⟩ := h
    exact ⟨_, hi⟩
  | invokeDynamic bootstrap name descriptor =>
    obtain ⟨j, hi, -⟩ := h
    exact ⟨_, hi⟩

/-- The lookups find what an index stands for. -/
theorem NamedAt.resolvesAt (h : r.NamedAt pool i) : r.ResolvesAt pool i := by
  open ConstantPool in
  cases r with
  | utf8 text => exact ⟨get_eq_ok.mpr h, utf8_eq_ok.mpr h⟩
  | integer value => exact get_eq_ok.mpr h
  | long value => exact get_eq_ok.mpr h
  | classInfo name =>
    have hname := className_eq_ok.mpr h
    obtain ⟨j, hi, -⟩ := h
    exact ⟨⟨j, get_eq_ok.mpr hi⟩, hname⟩
  | string text =>
    obtain ⟨j, hi, hj⟩ := h
    exact ⟨j, get_eq_ok.mpr hi, utf8_eq_ok.mpr hj⟩
  | nameAndType name descriptor =>
    have hsignature := nameAndType_eq_ok.mpr h
    obtain ⟨j, k, hi, -⟩ := h
    exact ⟨⟨j, k, get_eq_ok.mpr hi⟩, hsignature⟩
  | memberRef kind m =>
    have hmember := memberRef_eq_ok.mpr h
    obtain ⟨j, k, hi, -⟩ := h
    exact ⟨⟨j, k, get_eq_ok.mpr hi⟩, hmember⟩
  | methodHandle kind member => exact get_eq_ok.mpr h
  | methodType descriptor =>
    have htype := methodType_eq_ok.mpr h
    obtain ⟨j, hi, -⟩ := h
    exact ⟨⟨j, get_eq_ok.mpr hi⟩, htype⟩
  | invokeDynamic bootstrap name descriptor =>
    have hsite := callSite_eq_ok.mpr h
    obtain ⟨j, hi, -⟩ := h
    exact ⟨⟨j, get_eq_ok.mpr hi⟩, hsite⟩

/-- What the lookups find an index stands for. -/
theorem ResolvesAt.namedAt (h : r.ResolvesAt pool i) : r.NamedAt pool i := by
  open ConstantPool in
  cases r with
  | utf8 text => exact utf8_eq_ok.mp h.2
  | integer value => exact get_eq_ok.mp h
  | long value => exact get_eq_ok.mp h
  | classInfo name => exact className_eq_ok.mp h.2
  | string text =>
    obtain ⟨j, hi, hj⟩ := h
    exact ⟨j, get_eq_ok.mp hi, utf8_eq_ok.mp hj⟩
  | nameAndType name descriptor => exact nameAndType_eq_ok.mp h.2
  | memberRef kind m => exact memberRef_eq_ok.mp h.2
  | methodHandle kind member => exact get_eq_ok.mp h
  | methodType descriptor => exact methodType_eq_ok.mp h.2
  | invokeDynamic bootstrap name descriptor => exact callSite_eq_ok.mp h.2

/-- What an index resolves to it resolves to when there are more constants. -/
theorem ResolvesAt.mono (h : r.ResolvesAt pool i) (hw : pool.Within larger) :
    r.ResolvesAt larger i :=
  (h.namedAt.mono hw).resolvesAt

/-- What was asked for stands in one place only. -/
theorem NamedAt.index_unique (hd : pool.Distinct) (hi : r.NamedAt pool i)
    (hj : r.NamedAt pool j) : i = j := by
  -- a constant that points to others is found by way of them
  cases r with
  | utf8 text => exact ConstantPool.NamesText.index_unique hd hi hj
  | integer value => exact hd i j _ hi hj
  | long value => exact hd i j _ hi hj
  | classInfo name => exact ConstantPool.NamesClass.index_unique hd hi hj
  | string text =>
    obtain ⟨a, hi, ha⟩ := hi
    obtain ⟨b, hj, hb⟩ := hj
    obtain rfl := ConstantPool.NamesText.index_unique hd ha hb
    exact hd i j _ hi hj
  | nameAndType name descriptor => exact ConstantPool.NamesSignature.index_unique hd hi hj
  | memberRef kind m => exact ConstantPool.NamesMember.index_unique hd hi hj
  | methodHandle kind member => exact hd i j _ hi hj
  | methodType descriptor => exact ConstantPool.NamesMethodType.index_unique hd hi hj
  | invokeDynamic bootstrap name descriptor =>
    exact ConstantPool.NamesCallSite.index_unique hd hi hj

end NamedAt

/-- The request that an index answers, read from the constant there. -/
def answeredBy? (pool : ConstantPool) (i : UInt16) : Option Request :=
  match pool.get i with
  | .ok (.utf8 text) => some (.utf8 text)
  | .ok (.integer value) => some (.integer value)
  | .ok (.long value) => some (.long value)
  | .ok (.classInfo _) => (pool.className i).toOption.map .classInfo
  | .ok (.string j) => (pool.utf8 j).toOption.map .string
  | .ok (.nameAndType _ _) => (pool.nameAndType i).toOption.map fun p => .nameAndType p.1 p.2
  | .ok (.memberRef _ _ _) =>
    (pool.memberRef i).toOption.map fun m => .memberRef m.kind m.toMember
  | .ok (.methodHandle kind member) => some (.methodHandle kind member)
  | .ok (.methodType _) => (pool.methodType i).toOption.map .methodType
  | .ok (.invokeDynamic _ _) =>
    (pool.callSite i).toOption.map fun s => .invokeDynamic s.bootstrap s.name s.descriptor
  | _ => none

/-- What an index resolves to is the only answer that can have been given there. -/
theorem ResolvesAt.answeredBy? {pool : ConstantPool} {i : UInt16} {r : Request}
    (h : r.ResolvesAt pool i) : answeredBy? pool i = some r := by
  unfold Request.answeredBy?
  -- the kind of the constant tells what has been asked for
  cases r with
  | utf8 text => rw [h.1]
  | integer value => rw [show pool.get i = _ from h]
  | long value => rw [show pool.get i = _ from h]
  | classInfo name =>
    obtain ⟨⟨j, hget⟩, hname⟩ := h
    simp only [hget, hname]
    rfl
  | string text =>
    obtain ⟨j, hget, htext⟩ := h
    simp only [hget, htext]
    rfl
  | nameAndType name descriptor =>
    obtain ⟨⟨j, k, hget⟩, hsignature⟩ := h
    simp only [hget, hsignature]
    rfl
  | memberRef kind m =>
    obtain ⟨⟨j, k, hget⟩, hmember⟩ := h
    simp only [hget, hmember]
    rfl
  | methodHandle kind member => rw [show pool.get i = _ from h]
  | methodType descriptor =>
    obtain ⟨⟨j, hget⟩, htype⟩ := h
    simp only [hget, htype]
    rfl
  | invokeDynamic bootstrap name descriptor =>
    obtain ⟨⟨j, hget⟩, hsite⟩ := h
    simp only [hget, hsite]
    rfl

/-- An index answers one request only. -/
theorem ResolvesAt.unique {pool : ConstantPool} {i : UInt16} {r r' : Request}
    (h : r.ResolvesAt pool i) (h' : r'.ResolvesAt pool i) : r = r' := by
  have hanswered := h.answeredBy?
  rw [h'.answeredBy?] at hanswered
  exact (Option.some.inj hanswered).symm

-- ---------------------------------------------------------------------------
-- All requests of a run
-- ---------------------------------------------------------------------------

/-- A run keeps a builder sound, and what an answer stood for when it was given
it stands for in the end. -/
theorem runAll_named (rs : List Request) {b : PoolBuilder} (hb : b.Sound) :
    (runAll rs b).2.Sound ∧ b.pool.Within (runAll rs b).2.pool ∧
      ∀ r i, (r, i) ∈ (runAll rs b).1 → r.NamedAt (runAll rs b).2.pool i := by
  induction rs generalizing b with
  | nil => exact ⟨hb, .refl _, fun r i h => nomatch h⟩
  | cons r rs ih =>
    have hr := r.interns b hb
    unfold runAll
    -- a request that fails gives no answer; the others go on
    cases hrun : r.run b with
    | error fault b' =>
      rw [hrun] at hr
      obtain ⟨hsound, hwithin⟩ := hr
      obtain ⟨hlast, hwithin', hnamed⟩ := ih hsound
      exact ⟨hlast, hwithin.trans hwithin', hnamed⟩
    | ok i b' =>
      rw [hrun] at hr
      obtain ⟨hsound, hwithin, hi⟩ := hr
      obtain ⟨hlast, hwithin', hnamed⟩ := ih hsound
      refine ⟨hlast, hwithin.trans hwithin', fun r' i' hmem => ?_⟩
      rcases List.mem_cons.mp hmem with heq | hlater
      · obtain ⟨rfl, rfl⟩ := Prod.mk.inj heq
        exact hi.mono hwithin'
      · exact hnamed r' i' hlater

/-- Answers that stand for what was asked for, in the pool of a sound builder,
are what the written pool says. -/
theorem faithful_of_named {b : PoolBuilder} {answers : List (Request × UInt16)} (hb : b.Sound)
    (hnamed : ∀ r i, (r, i) ∈ answers → r.NamedAt b.pool i) : Faithful b answers := by
  obtain ⟨ks, hfilled⟩ := hb.filled
  -- the pool that is read back, the sharing of indices, and the slots behind longs
  refine ⟨hfilled.size_le, ?_, ?_, ?_⟩
  · exact ⟨b.pool, hfilled.reads, rfl, fun r i h => (hnamed r i h).resolvesAt⟩
  · intro r i r' i' h h'
    have hi := hnamed r i h
    have hi' := hnamed r' i' h'
    constructor
    · rintro rfl
      exact hi.resolvesAt.unique hi'.resolvesAt
    · rintro rfl
      exact hi.index_unique hb.distinct hi'
  · intro value i h
    obtain ⟨hlt, hnothing⟩ := hfilled.not_holds_behind (hnamed _ i h) rfl
    refine ⟨hlt, ?_⟩
    rintro r j hj rfl
    -- an answer resolves to some constant, and there is none at this index
    obtain ⟨k, hk⟩ := (hnamed r _ hj).holds
    exact hnothing k hk

/-- Whatever a builder has been asked for, from the start and with failures on
the way, its answers are what the pool that it writes says. -/
theorem faithful_runAll (rs : List Request) :
    Faithful (runAll rs .empty).2 (runAll rs .empty).1 := by
  obtain ⟨hsound, -, hnamed⟩ := runAll_named rs PoolBuilder.sound_empty
  exact faithful_of_named hsound hnamed

end Request

end Backref
