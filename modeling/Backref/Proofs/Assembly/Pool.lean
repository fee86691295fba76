import Backref.Assembly.Class
import Backref.Proofs.Constant.Links
import Backref.Proofs.Constant.Written
import Mathlib.Data.List.Forall2
import Mathlib.Data.List.Induction

/-!
# What a pool builder hands out

A builder's table of indices says where the constants of its pool stand. A
request keeps this so, whether it succeeds or not, and never moves a constant
that is already there; so what an index stands for when it is handed out, it
stands for in every later pool.

Main results:

* `PoolBuilder.Sound.intern` — one constant;
* `PoolBuilder.interns_memberRef` and its companions — what the index that a
  request answers stands for.
-/

namespace Backref

namespace ConstantPool

/-- A constant that is added takes the first free index, and nothing else changes. -/
theorem holds_push {pool : ConstantPool} {k k' : Constant} {i : UInt16}
    (hroom : pool.size + k.slots ≤ countLimit) :
    (pool.push k).Holds i k' ↔ pool.Holds i k' ∨ i = UInt16.ofNat pool.size ∧ k' = k := by
  have hslots : 1 ≤ k.slots := by
    unfold Constant.slots
    split <;> omega
  have hnew : i = UInt16.ofNat pool.size ↔ i.toNat = pool.slots.size := by
    rw [← UInt16.toNat_inj, UInt16.toNat_ofNat']
    unfold countLimit at hroom
    unfold size at hroom ⊢
    omega
  rw [hnew]
  unfold push Holds
  -- a wide constant pushes two slots, any other constant one
  by_cases hwide : k.kind.isWide = true
  · rw [if_pos hwide, Array.getElem?_push, Array.getElem?_push, Array.size_push]
    by_cases hbehind : i.toNat = pool.slots.size + 1
    · -- the slot behind a wide constant holds nothing, before and after
      have hnone : pool.slots[i.toNat]? = none := Array.getElem?_eq_none (by omega)
      rw [if_pos hbehind, hnone]
      simp [hbehind]
    · rw [if_neg hbehind]
      by_cases hi : i.toNat = pool.slots.size
      · simp [hi, eq_comm]
      · simp [hi]
  · rw [if_neg hwide, Array.getElem?_push]
    by_cases hi : i.toNat = pool.slots.size
    · simp [hi, eq_comm]
    · simp [hi]

/-- A constant takes as many slots as its kind says. -/
theorem size_push (pool : ConstantPool) (k : Constant) :
    (pool.push k).size = pool.size + k.slots := by
  unfold push size Constant.slots
  split
  · rw [Array.size_push, Array.size_push]
  · rw [Array.size_push]

/-- Pushing a constant hides none of those before it. -/
theorem within_push {pool : ConstantPool} {k : Constant}
    (hroom : pool.size + k.slots ≤ countLimit) : pool.Within (pool.push k) :=
  fun _ _ h => (holds_push hroom).mpr (.inl h)

/-- A pool that is filled stays so when a constant that fits is pushed. -/
theorem Filled.push {pool : ConstantPool} {ks : List Constant} {k : Constant}
    (h : pool.Filled ks) (hfits : k.Fits) (hroom : pool.size + k.slots ≤ countLimit) :
    (pool.push k).Filled (ks ++ [k]) := by
  have hslots : (pool.push k).slots.toList = pool.slots.toList ++ k.filled := by
    unfold ConstantPool.push Constant.filled
    split <;> simp
  refine ⟨?_, ?_, ?_⟩
  · rw [hslots, h.slots]
    simp
  · rw [size_push]
    exact hroom
  · intro k' hk'
    rcases List.mem_append.mp hk' with hold | hnew
    · exact h.fits k' hold
    · rw [List.mem_singleton.mp hnew]
      exact hfits

/-- What a pool holds can be written. -/
theorem Filled.fits_of_holds {pool : ConstantPool} {ks : List Constant} {k : Constant}
    {i : UInt16} (h : pool.Filled ks) (hi : pool.Holds i k) : k.Fits := by
  unfold Holds at hi
  rw [← Array.getElem?_toList, h.slots] at hi
  rcases List.mem_cons.mp (List.mem_of_getElem? hi) with hnone | hmem
  · cases hnone
  · obtain ⟨k', hk', hfilled⟩ := List.mem_flatMap.mp hmem
    obtain rfl : k = k' := by
      unfold Constant.filled at hfilled
      split at hfilled <;> simpa using hfilled
    exact h.fits k hk'

/-- Index 0 holds nothing. -/
theorem Filled.index_ne_zero {pool : ConstantPool} {ks : List Constant} {k : Constant} {i : UInt16}
    (h : pool.Filled ks) (hi : pool.Holds i k) : i ≠ 0 := by
  rintro rfl
  unfold Holds at hi
  rw [← Array.getElem?_toList, h.slots] at hi
  cases hi

/-- What a pool holds has one of 65534 indices. -/
theorem Filled.index_mem_range {pool : ConstantPool} {ks : List Constant} {k : Constant}
    {i : UInt16} (h : pool.Filled ks) (hi : pool.Holds i k) : 0 < i.toNat ∧ i.toNat < 65535 := by
  have hzero := h.index_ne_zero hi
  have hlt : i.toNat < pool.size := (Array.getElem?_eq_some_iff.mp hi).1
  have hle := h.size_le
  rw [countLimit] at hle
  rw [ne_eq, ← UInt16.toNat_inj, UInt16.toNat_zero] at hzero
  omega

end ConstantPool

namespace PoolBuilder

/-- A builder whose pool consists of constants in order, and whose table says
where each of them stands. -/
structure Sound (b : PoolBuilder) : Prop where
  filled : ∃ ks, b.pool.Filled ks
  indices : ∀ k i, b.indices[k]? = some i ↔ b.pool.Holds i k

/-- A pool that nothing has been put in is sound. -/
theorem sound_empty : empty.Sound := by
  refine ⟨⟨[], rfl, by decide, by simp⟩, fun k i => ?_⟩
  have hnone : ∀ n : Nat, (#[none] : Array (Option Constant))[n]? ≠ some (some k) := by
    intro n hn
    cases n with
    | zero => simp at hn
    | succ n => simp at hn
  constructor
  · intro h
    simp [empty] at h
  · intro h
    exact absurd h (hnone i.toNat)

/-- A request keeps a builder sound and the constants in it where they are,
whether it succeeds or not. If it succeeds, its answer and the pool that it
leaves are as a predicate says. -/
def Interns {α : Type} (x : Interning α) (Q : ConstantPool → α → Prop) : Prop :=
  ∀ b : PoolBuilder, b.Sound → match x b with
    | .ok a b' => b'.Sound ∧ b.pool.Within b'.pool ∧ Q b'.pool a
    | .error _ b' => b'.Sound ∧ b.pool.Within b'.pool

namespace Interns

variable {α β : Type} {x : Interning α} {P Q : ConstantPool → α → Prop}

theorem imp (h : Interns x P) (himp : ∀ pool a, P pool a → Q pool a) : Interns x Q := by
  intro b hb
  have hx := h b hb
  cases hresult : x b with
  | ok a b' =>
    rw [hresult] at hx
    exact ⟨hx.1, hx.2.1, himp _ _ hx.2.2⟩
  | error fault b' =>
    rw [hresult] at hx
    exact hx

theorem pure {a : α} (h : ∀ pool, Q pool a) : Interns (pure a) Q :=
  fun _ hb => ⟨hb, .refl _, h _⟩

theorem throw {fault : Fault} : Interns (throw fault) Q :=
  fun _ hb => ⟨hb, .refl _⟩

/-- What holds of the first answer still holds when the second one is given. -/
theorem bind {f : α → Interning β} {R : α → ConstantPool → β → Prop} (hx : Interns x P)
    (hmono : ∀ {pool larger a}, P pool a → pool.Within larger → P larger a)
    (hf : ∀ a, Interns (f a) (R a)) :
    Interns (x >>= f) fun pool b => ∃ a, P pool a ∧ R a pool b := by
  intro b hb
  have hx := hx b hb
  show match EStateM.bind x f b with
    | .ok a b' => _
    | .error _ b' => _
  unfold EStateM.bind
  -- either step may fail, and what has been put in by then stays
  cases hresult : x b with
  | error fault b₁ =>
    rw [hresult] at hx
    exact hx
  | ok a b₁ =>
    rw [hresult] at hx
    obtain ⟨hb₁, hwithin, hP⟩ := hx
    have hfa := hf a b₁ hb₁
    simp only
    cases hnext : f a b₁ with
    | error fault b₂ =>
      rw [hnext] at hfa
      exact ⟨hfa.1, hwithin.trans hfa.2⟩
    | ok c b₂ =>
      rw [hnext] at hfa
      exact ⟨hfa.1, hwithin.trans hfa.2.1, a, hmono hP hfa.2.1, hfa.2.2⟩

/-- What a successful request leaves behind. -/
theorem of_ok {b b' : PoolBuilder} {a : α} (h : Interns x Q) (hb : b.Sound)
    (hok : x b = .ok a b') : b'.Sound ∧ b.pool.Within b'.pool ∧ Q b'.pool a := by
  have hx := h b hb
  rw [hok] at hx
  exact hx

end Interns

-- ---------------------------------------------------------------------------
-- One constant
-- ---------------------------------------------------------------------------

/-- A constant that is interned is at the index that comes back, whether or not
it was there before. -/
theorem interns_intern {k : Constant} (hfits : k.Fits) :
    Interns (intern k) fun pool i => pool.Holds i k := by
  rintro ⟨pool, indices⟩ hb
  unfold intern
  simp only
  -- a constant that is there already is not put in again
  cases hfound : indices[k]? with
  | some i => exact ⟨hb, .refl _, (hb.indices k i).mp hfound⟩
  | none =>
    simp only
    split
    · rename_i hok
      split at hok
      · rename_i hroom
        cases hok
        obtain ⟨ks, hfilled⟩ := hb.filled
        refine ⟨⟨⟨_, hfilled.push hfits hroom⟩, fun k' i => ?_⟩,
          ConstantPool.within_push hroom, (ConstantPool.holds_push hroom).mpr (.inr ⟨rfl, rfl⟩)⟩
        rw [ConstantPool.holds_push hroom, Std.HashMap.getElem?_insert]
        by_cases hk : k = k'
        · -- the new constant was nowhere in the pool before
          subst hk
          have hnew : ¬ pool.Holds i k := by
            rw [← hb.indices k i]
            simp [hfound]
          simp [hnew, eq_comm]
        · have hindices : indices[k']? = some i ↔ pool.Holds i k' := hb.indices k' i
          have hne : ¬ k' = k := fun h => hk h.symm
          simp [hk, hne, hindices]
      · cases hok
    · rename_i herror
      split at herror
      · cases herror
      · cases herror
        exact ⟨hb, .refl _⟩

-- ---------------------------------------------------------------------------
-- Linked constants
-- ---------------------------------------------------------------------------

/-- A text is at the index that comes back. -/
theorem interns_utf8 (text : String) : Interns (utf8 text) fun pool i => pool.NamesText i text := by
  unfold utf8
  simp only
  split
  · rename_i hfits
    exact interns_intern hfits
  · exact .throw

theorem interns_integer (value : Int32) :
    Interns (integer value) fun pool i => pool.Holds i (.integer value) :=
  interns_intern trivial

/-- A class is at the index that comes back, and its name is in the pool. -/
theorem interns_classInfo (name : String) :
    Interns (classInfo name) fun pool i => pool.NamesClass i name :=
  ((interns_utf8 name).bind ConstantPool.NamesText.mono fun j =>
    interns_intern (k := .classInfo j) trivial).imp fun _ _ ⟨j, hj, hi⟩ => ⟨j, hi, hj⟩

theorem interns_string (text : String) :
    Interns (string text) fun pool i => ∃ j, pool.Holds i (.string j) ∧ pool.NamesText j text :=
  ((interns_utf8 text).bind ConstantPool.NamesText.mono fun j =>
    interns_intern (k := .string j) trivial).imp fun _ _ ⟨j, hj, hi⟩ => ⟨j, hi, hj⟩

theorem interns_nameAndType (name descriptor : String) :
    Interns (nameAndType name descriptor) fun pool i => pool.NamesSignature i name descriptor :=
  ((interns_utf8 name).bind ConstantPool.NamesText.mono fun j =>
    (interns_utf8 descriptor).bind ConstantPool.NamesText.mono fun k =>
      interns_intern (k := .nameAndType j k) trivial).imp
    fun _ _ ⟨j, hj, k, hk, hi⟩ => ⟨j, k, hi, hj, hk⟩

/-- A member is at the index that comes back, with its owner and its signature. -/
theorem interns_memberRef (kind : MemberKind) (m : Member) :
    Interns (memberRef kind m) fun pool i => pool.NamesMember i ⟨m, kind⟩ :=
  ((interns_classInfo m.owner).bind ConstantPool.NamesClass.mono fun j =>
    (interns_nameAndType m.name m.descriptor).bind ConstantPool.NamesSignature.mono fun k =>
      interns_intern (k := .memberRef kind j k) trivial).imp
    fun _ _ ⟨j, hj, k, hk, hi⟩ => ⟨j, k, hi, hj, hk⟩

theorem interns_methodType (descriptor : String) :
    Interns (methodType descriptor) fun pool i => pool.NamesMethodType i descriptor :=
  ((interns_utf8 descriptor).bind ConstantPool.NamesText.mono fun j =>
    interns_intern (k := .methodType j) trivial).imp fun _ _ ⟨j, hj, hi⟩ => ⟨j, hi, hj⟩

theorem interns_invokeDynamic (bootstrap : UInt16) (name descriptor : String) :
    Interns (invokeDynamic bootstrap name descriptor) fun pool i =>
      pool.NamesCallSite i ⟨bootstrap, name, descriptor⟩ :=
  ((interns_nameAndType name descriptor).bind ConstantPool.NamesSignature.mono fun j =>
    interns_intern (k := .invokeDynamic bootstrap j) trivial).imp
    fun _ _ ⟨j, hj, hi⟩ => ⟨j, hi, hj⟩

/-- Constants that are asked for one after the other are answered one by one. -/
theorem interns_internAllOnto {α β : Type} {intern : α → Interning β}
    {Q : α → ConstantPool → β → Prop} (hintern : ∀ a, Interns (intern a) (Q a))
    (hmono : ∀ {a pool larger b}, Q a pool b → pool.Within larger → Q a larger b) (as : List α)
    (seen : Array β) :
    Interns (Assembler.internAllOnto intern as seen) fun pool bs =>
      ∃ more, bs.toList = seen.toList ++ more ∧ List.Forall₂ (fun a b => Q a pool b) as more := by
  induction as generalizing seen with
  | nil => exact .pure fun pool => ⟨[], by simp, .nil⟩
  | cons a as ih =>
    refine ((hintern a).bind hmono fun b => ih (seen.push b)).imp ?_
    rintro pool bs ⟨b, hb, more, hbs, hmore⟩
    exact ⟨b :: more, by simp [hbs], .cons hb hmore⟩

/-- Entries are interned in order, and each keeps its meaning while the others follow. -/
theorem interns_internAll {α β : Type} {intern : α → Interning β}
    {Q : α → ConstantPool → β → Prop} (hintern : ∀ a, Interns (intern a) (Q a))
    (hmono : ∀ {a pool larger b}, Q a pool b → pool.Within larger → Q a larger b) (as : List α) :
    Interns (Assembler.internAll intern as) fun pool bs =>
      List.Forall₂ (fun a b => Q a pool b) as bs.toList :=
  (interns_internAllOnto hintern hmono as #[]).imp fun _ _ ⟨more, hbs, hmore⟩ => by
    rw [hbs]
    exact hmore

-- ---------------------------------------------------------------------------
-- Constants that are there already
-- ---------------------------------------------------------------------------

/-- A request for what a pool has already is answered by where it is, and adds nothing. -/
def Recalls {α : Type} (x : Interning α) (Q : ConstantPool → α → Prop) : Prop :=
  ∀ b : PoolBuilder, b.Sound → ∀ a, Q b.pool a → x b = .ok a b

/-- A constant that is in the pool is found where it is. -/
theorem recalls_intern (k : Constant) : Recalls (intern k) fun pool i => pool.Holds i k := by
  intro b hb i hi
  unfold intern
  simp only [(hb.indices k i).mpr hi]

theorem recalls_utf8 (text : String) : Recalls (utf8 text) fun pool i => pool.NamesText i text := by
  intro b hb i hi
  obtain ⟨ks, hfilled⟩ := hb.filled
  have hutf8 : utf8 text = intern (.utf8 text) := if_pos (hfilled.fits_of_holds hi)
  rw [hutf8]
  exact recalls_intern _ b hb i hi

theorem recalls_classInfo (name : String) :
    Recalls (classInfo name) fun pool i => pool.NamesClass i name := by
  rintro b hb i ⟨j, hi, hj⟩
  exact bind_eq_ok.mpr ⟨j, b, recalls_utf8 name b hb j hj, recalls_intern _ b hb i hi⟩

theorem recalls_nameAndType (name descriptor : String) :
    Recalls (nameAndType name descriptor) fun pool i => pool.NamesSignature i name descriptor := by
  rintro b hb i ⟨j, k, hi, hj, hk⟩
  exact bind_eq_ok.mpr ⟨j, b, recalls_utf8 name b hb j hj,
    bind_eq_ok.mpr ⟨k, b, recalls_utf8 descriptor b hb k hk, recalls_intern _ b hb i hi⟩⟩

theorem recalls_memberRef (kind : MemberKind) (m : Member) :
    Recalls (memberRef kind m) fun pool i => pool.NamesMember i ⟨m, kind⟩ := by
  rintro b hb i ⟨j, k, hi, hj, hk⟩
  exact bind_eq_ok.mpr ⟨j, b, recalls_classInfo m.owner b hb j hj,
    bind_eq_ok.mpr ⟨k, b, recalls_nameAndType m.name m.descriptor b hb k hk,
      recalls_intern _ b hb i hi⟩⟩

-- ---------------------------------------------------------------------------
-- Room
-- ---------------------------------------------------------------------------

/-- A request succeeds wherever there is room for so many slots, and takes no more of them. -/
def NeedsAtMost {α : Type} (x : Interning α) (slots : Nat) : Prop :=
  ∀ b : PoolBuilder, b.count + slots ≤ countLimit →
    ∃ a b', x b = .ok a b' ∧ b'.count ≤ b.count + slots

namespace NeedsAtMost

variable {α β : Type} {x : Interning α} {f : α → Interning β} {m n : Nat}

/-- What two requests need adds up. -/
theorem bind (hx : NeedsAtMost x m) (hf : ∀ a, NeedsAtMost (f a) n) :
    NeedsAtMost (x >>= f) (m + n) := by
  intro b hroom
  obtain ⟨a, between, hfirst, hcount⟩ := hx b (by omega)
  obtain ⟨c, b', hrest, hcount'⟩ := hf a between (by omega)
  exact ⟨c, b', bind_eq_ok.mpr ⟨a, between, hfirst, hrest⟩, by omega⟩

/-- A constant needs its own slots at most. -/
theorem intern (k : Constant) : NeedsAtMost (intern k) k.slots := by
  intro b hroom
  unfold PoolBuilder.intern
  cases hfound : b.indices[k]? with
  | some index => exact ⟨index, b, by simp only [hfound], Nat.le_add_right _ _⟩
  | none =>
    have hroom : b.pool.size + k.slots ≤ countLimit := hroom
    let index := UInt16.ofNat b.pool.size
    exact ⟨index, ⟨b.pool.push k, b.indices.insert k index⟩,
      by simp only [hfound, if_pos hroom, index], Nat.le_of_eq (ConstantPool.size_push b.pool k)⟩

/-- A text that is short enough needs one slot at most. -/
theorem utf8 {text : String} (h : (Modified.encode text).length ≤ countLimit) :
    NeedsAtMost (utf8 text) 1 := by
  have hutf8 : PoolBuilder.utf8 text = PoolBuilder.intern (.utf8 text) := if_pos h
  rw [hutf8]
  exact intern (.utf8 text)

theorem classInfo {name : String} (h : (Modified.encode name).length ≤ countLimit) :
    NeedsAtMost (classInfo name) 2 :=
  (utf8 h).bind fun index => intern (.classInfo index)

theorem nameAndType {name descriptor : String}
    (hname : (Modified.encode name).length ≤ countLimit)
    (hdescriptor : (Modified.encode descriptor).length ≤ countLimit) :
    NeedsAtMost (nameAndType name descriptor) 3 :=
  (utf8 hname).bind fun i => (utf8 hdescriptor).bind fun j => intern (.nameAndType i j)

/-- A reference to a member takes a slot, behind two for its class and three for its signature. -/
theorem memberRef {kind : MemberKind} {m : Member}
    (howner : (Modified.encode m.owner).length ≤ countLimit)
    (hname : (Modified.encode m.name).length ≤ countLimit)
    (hdescriptor : (Modified.encode m.descriptor).length ≤ countLimit) :
    NeedsAtMost (memberRef kind m) 6 := by
  have hlast : ∀ i j, NeedsAtMost (PoolBuilder.intern (.memberRef kind i j)) 1 := by
    intro i j
    have hslots : (Constant.memberRef kind i j).slots = 1 := by cases kind <;> rfl
    exact hslots ▸ intern (.memberRef kind i j)
  exact (classInfo howner).bind fun i => (nameAndType hname hdescriptor).bind fun j => hlast i j

end NeedsAtMost

-- ---------------------------------------------------------------------------
-- New constants
-- ---------------------------------------------------------------------------

/-- The builder that has been asked for constants one after the other, each of
them new. -/
def ofConstants (ks : List Constant) : PoolBuilder :=
  ks.foldl (fun b k => ⟨b.pool.push k, b.indices.insert k (UInt16.ofNat b.pool.size)⟩) empty

/-- The last of some constants is pushed behind the others. -/
theorem ofConstants_append_one (ks : List Constant) (k : Constant) :
    ofConstants (ks ++ [k]) = ⟨(ofConstants ks).pool.push k,
      (ofConstants ks).indices.insert k (UInt16.ofNat (ofConstants ks).pool.size)⟩ := by
  unfold ofConstants
  rw [List.foldl_append, List.foldl_cons, List.foldl_nil]

/-- A constant that was not asked for has no index. -/
theorem getElem?_ofConstants {ks : List Constant} {k : Constant} (hnew : k ∉ ks) :
    (ofConstants ks).indices[k]? = none := by
  induction ks using List.reverseRecOn with
  | nil =>
    show (∅ : Std.HashMap Constant UInt16)[k]? = none
    exact Std.HashMap.getElem?_empty
  | append_singleton ks last ih =>
    rw [List.mem_append, List.mem_singleton, not_or] at hnew
    have hne : (last == k) = false := beq_false_of_ne (Ne.symm hnew.2)
    rw [ofConstants_append_one, Std.HashMap.getElem?_insert, hne]
    exact ih hnew.1

/-- A request for one more new constant. -/
theorem intern_ofConstants {ks : List Constant} {k : Constant}
    (h : k ∉ ks ∧ (ofConstants ks).pool.size + k.slots ≤ countLimit) :
    intern k (ofConstants ks) =
      .ok (UInt16.ofNat (ofConstants ks).pool.size) (ofConstants (ks ++ [k])) := by
  have hnone := getElem?_ofConstants h.1
  rw [ofConstants_append_one]
  unfold intern
  simp only [hnone]
  rw [if_pos h.2]

/-- A request for one more new text. -/
theorem utf8_ofConstants {ks : List Constant} {text : String}
    (h : (Modified.encode text).length ≤ countLimit ∧ .utf8 text ∉ ks ∧
      (ofConstants ks).pool.size < countLimit) :
    utf8 text (ofConstants ks) =
      .ok (UInt16.ofNat (ofConstants ks).pool.size) (ofConstants (ks ++ [.utf8 text])) := by
  have hutf8 : utf8 text = intern (.utf8 text) := if_pos h.1
  rw [hutf8]
  exact intern_ofConstants h.2

/-- Of several new constants, a request for the one after the first `n`. -/
theorem intern_take {ks : List Constant} {n : Nat} {k : Constant} (hk : ks[n]? = some k)
    (h : k ∉ ks.take n ∧ (ofConstants (ks.take n)).pool.size + k.slots ≤ countLimit) :
    intern k (ofConstants (ks.take n)) =
      .ok (UInt16.ofNat (ofConstants (ks.take n)).pool.size) (ofConstants (ks.take (n + 1))) := by
  rw [List.take_add_one, hk, Option.toList_some]
  exact intern_ofConstants h

/-- The next of some constants is put in as a new text. -/
theorem utf8_take {ks : List Constant} {n : Nat} {text : String}
    (hk : ks[n]? = some (.utf8 text))
    (h : (Modified.encode text).length ≤ countLimit ∧ .utf8 text ∉ ks.take n ∧
      (ofConstants (ks.take n)).pool.size < countLimit) :
    utf8 text (ofConstants (ks.take n)) =
      .ok (UInt16.ofNat (ofConstants (ks.take n)).pool.size) (ofConstants (ks.take (n + 1))) := by
  rw [List.take_add_one, hk, Option.toList_some]
  exact utf8_ofConstants h

/-- New constants that can be written make up a sound builder. -/
theorem sound_ofConstants {ks : List Constant} (hnew : ks.Nodup) (hfits : ∀ k ∈ ks, k.Fits)
    (hroom : (ofConstants ks).pool.size ≤ countLimit) : (ofConstants ks).Sound := by
  induction ks using List.reverseRecOn with
  | nil => exact sound_empty
  | append_singleton ks k ih =>
    have hsize : (ofConstants (ks ++ [k])).pool.size = (ofConstants ks).pool.size + k.slots := by
      rw [ofConstants_append_one]
      exact ConstantPool.size_push _ k
    obtain ⟨hks, -, hk⟩ := List.nodup_append.mp hnew
    have hlast : k ∉ ks := fun hmem => hk k hmem k (List.mem_singleton.mpr rfl) rfl
    have hsound := ih hks (fun k' hk' => hfits k' (List.mem_append_left _ hk')) (by omega)
    have hstep := intern_ofConstants ⟨hlast, by omega⟩
    exact ((interns_intern (hfits k (by simp))).of_ok hsound hstep).1

end PoolBuilder

-- ---------------------------------------------------------------------------
-- Handles and static arguments
-- ---------------------------------------------------------------------------

namespace HandleSpec

/-- The handle that is spelled out, with the kind of reference that its member needs. -/
def target (h : HandleSpec) : HandleRef := ⟨h.kind, ⟨h.member, h.memberKind⟩⟩

/-- A handle is at the index that comes back, with its member. -/
theorem interns (h : HandleSpec) :
    PoolBuilder.Interns h.intern fun pool i => pool.NamesHandle i h.target :=
  ((PoolBuilder.interns_memberRef h.memberKind h.member).bind ConstantPool.NamesMember.mono fun j =>
    PoolBuilder.interns_intern (k := .methodHandle h.kind j) trivial).imp
    fun _ _ ⟨j, hj, hi⟩ => ⟨j, hi, hj⟩

theorem recalls (h : HandleSpec) :
    PoolBuilder.Recalls h.intern fun pool i => pool.NamesHandle i h.target := by
  rintro b hb i ⟨j, hi, hj⟩
  exact bind_eq_ok.mpr ⟨j, b, PoolBuilder.recalls_memberRef h.memberKind h.member b hb j hj,
    PoolBuilder.recalls_intern _ b hb i hi⟩

end HandleSpec

namespace StaticArgument

/-- An index stands for a static argument. -/
def NamedAt (pool : ConstantPool) (i : UInt16) : StaticArgument → Prop
  | methodType descriptor => pool.NamesMethodType i descriptor
  | handle h => pool.NamesHandle i h.target
  | ofClass name => pool.NamesClass i name
  | string text => ∃ j, pool.Holds i (.string j) ∧ pool.NamesText j text
  | int value => pool.Holds i (.integer value)

theorem NamedAt.mono {pool larger : ConstantPool} {i : UInt16} {a : StaticArgument}
    (h : a.NamedAt pool i) (hw : pool.Within larger) : a.NamedAt larger i := by
  cases a with
  | methodType descriptor => exact ConstantPool.NamesMethodType.mono h hw
  | handle h' => exact ConstantPool.NamesHandle.mono h hw
  | ofClass name => exact ConstantPool.NamesClass.mono h hw
  | string text =>
    obtain ⟨j, hi, hj⟩ := h
    exact ⟨j, hw _ _ hi, hj.mono hw⟩
  | int value => exact hw _ _ h

theorem interns (a : StaticArgument) :
    PoolBuilder.Interns a.intern fun pool i => a.NamedAt pool i := by
  cases a with
  | methodType descriptor => exact PoolBuilder.interns_methodType descriptor
  | handle h => exact h.interns
  | ofClass name => exact PoolBuilder.interns_classInfo name
  | string text => exact PoolBuilder.interns_string text
  | int value => exact PoolBuilder.interns_integer value

/-- Arguments are interned one after the other, as any entries are. -/
theorem internAll_eq (as : List StaticArgument) (seen : Array UInt16) :
    internAll as seen = Assembler.internAllOnto intern as seen := by
  induction as generalizing seen with
  | nil => rfl
  | cons a as ih => simp only [internAll, Assembler.internAllOnto, ih]

/-- Static arguments are answered one by one. -/
theorem interns_internAll (as : List StaticArgument) :
    PoolBuilder.Interns (internAll as #[]) fun pool is =>
      List.Forall₂ (fun a i => a.NamedAt pool i) as is.toList := by
  rw [internAll_eq]
  exact PoolBuilder.interns_internAll interns NamedAt.mono as

end StaticArgument

end Backref
