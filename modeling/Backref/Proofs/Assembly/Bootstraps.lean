import Backref.Proofs.Assembly.DynamicCalls
import Mathlib.Data.Fintype.Card

/-!
# The bootstrap methods of a class

The rows of a class are looked up by what their indices are, and shared by the
dynamic calls of all its methods. Nothing counts the rows. But each row came
with a dynamic call, which has a constant with the number of the row in the
pool, and these constants are all different: so there are fewer rows than a
pool has indices, as long as every call succeeds.

Main results:

* `Tabled.callsSite`, `Emission.exists_course`, `ClassBuilder.exists_course` —
  the pool and the rows fit together after one dynamic call, after a body, and
  after the calls that declare a class;
* `Tabled.size_lt` — how many rows there can be;
* `ClassBuilder.bootstraps_at_every_point` — the rows at every point of an
  assembly whose calls succeed.
-/

namespace Backref

open FixedWidth

-- ---------------------------------------------------------------------------
-- The rows and the pool
-- ---------------------------------------------------------------------------

/-- The dynamic calls that have been emitted, with the indices in their instructions. -/
abbrev EmittedCalls := List (DynamicCall × UInt16)

/-- The rows of a class are what its dynamic calls need: no row is there twice,
each call that has been emitted selects the row of its handle and its
arguments, and two calls select the same row exactly if these are the same. -/
structure FaithfulRows (pool : ConstantPool) (rows : Array BootstrapMethod)
    (emitted : EmittedCalls) : Prop where
  nodup : rows.toList.Nodup
  size_lt : rows.size < 65535
  selects : ∀ call index, (call, index) ∈ emitted →
    ∃ number, DynamicCall.Selects call pool rows index number
  shared : ∀ call index call' index' number number', (call, index) ∈ emitted →
    (call', index') ∈ emitted → DynamicCall.Selects call pool rows index number →
    DynamicCall.Selects call' pool rows index' number' →
    (number = number' ↔ call.bootstrap = call'.bootstrap ∧ call.arguments = call'.arguments)

/-- Rows that are what the calls need in one pool are so in a larger one. -/
theorem FaithfulRows.mono {pool larger : ConstantPool} {rows : Array BootstrapMethod}
    {emitted : EmittedCalls} (h : FaithfulRows pool rows emitted) (hw : pool.Within larger) :
    FaithfulRows larger rows emitted where
  nodup := h.nodup
  size_lt := h.size_lt
  selects call index hcall := by
    obtain ⟨number, hselects⟩ := h.selects call index hcall
    exact ⟨number, hselects.mono ⟨hw, List.prefix_refl _⟩⟩
  shared := by
    intro call index call' index' number number' hcall hcall' hselects hselects'
    obtain ⟨n, hn⟩ := h.selects call index hcall
    obtain ⟨n', hn'⟩ := h.selects call' index' hcall'
    -- an index that resolves to a call site resolves to it in the larger pool, too
    obtain rfl := (hn.mono ⟨hw, List.prefix_refl _⟩).unique hselects
    obtain rfl := (hn'.mono ⟨hw, List.prefix_refl _⟩).unique hselects'
    exact h.shared call index call' index' n n' hcall hcall' hn hn'

/-- The rows and the pool of a builder fit together: beside what the calls
need, there is a constant for each row that has the number of the row. -/
structure Tabled (b : PoolBuilder) (rows : Array BootstrapMethod) (emitted : EmittedCalls) :
    Prop where
  sound : b.Sound
  nodup : rows.toList.Nodup
  numbered : ∀ n < rows.size, ∃ i j, b.pool.Holds i (.invokeDynamic (UInt16.ofNat n) j)
  selects : ∀ call index, (call, index) ∈ emitted →
    ∃ number, DynamicCall.Selects call b.pool rows index number

theorem tabled_empty : Tabled .empty #[] [] :=
  ⟨PoolBuilder.sound_empty, .nil, fun _ hn => absurd hn (Nat.not_lt_zero _),
    fun _ _ h => nomatch h⟩

namespace Tabled

variable {b b' : PoolBuilder} {rows : Array BootstrapMethod} {emitted : EmittedCalls}

/-- Other constants change nothing about the rows. -/
theorem grow (h : Tabled b rows emitted) (hsound : b'.Sound) (hwithin : b.pool.Within b'.pool) :
    Tabled b' rows emitted where
  sound := hsound
  nodup := h.nodup
  numbered n hn := by
    obtain ⟨i, j, hi⟩ := h.numbered n hn
    exact ⟨i, j, hwithin _ _ hi⟩
  selects call index hcall := by
    obtain ⟨number, hselects⟩ := h.selects call index hcall
    exact ⟨number, hselects.mono ⟨hwithin, List.prefix_refl _⟩⟩

/-- There are fewer rows than a 16-bit count holds: the constants with their
numbers all stand at different indices of the pool, and not at index 0. -/
theorem size_lt (h : Tabled b rows emitted) : rows.size < 65535 := by
  -- every row is numbered by a constant of its own, and there are 65534 places for constants
  by_contra hmany
  obtain ⟨ks, hfilled⟩ := h.sound.filled
  choose index link hindex using fun n : Fin 65535 => h.numbered n (by omega)
  have hrange := fun n => hfilled.index_mem_range (hindex n)
  let place : Fin 65535 → Fin 65534 := fun n =>
    ⟨(index n).toNat - 1, by have hn := hrange n; omega⟩
  -- two rows at one place would have one number
  have hinjective : Function.Injective place := by
    intro n m hnm
    have hsame : (index n).toNat - 1 = (index m).toNat - 1 := congrArg Fin.val hnm
    have hn := hrange n
    have hm := hrange m
    have hholds := hindex m
    rw [← UInt16.toNat_inj.mp (show (index n).toNat = (index m).toNat by omega)] at hholds
    have hnumber := (Constant.invokeDynamic.inj ((hindex n).unique hholds)).1
    have hnat := congrArg UInt16.toNat hnumber
    rw [toNat_ofNat_count n.isLt.le, toNat_ofNat_count m.isLt.le] at hnat
    exact Fin.ext hnat
  have hcard := Fintype.card_le_of_injective place hinjective
  rw [Fintype.card_fin, Fintype.card_fin] at hcard
  omega

/-- What holds of the tables between calls makes the rows faithful to what has been emitted. -/
theorem faithful (h : Tabled b rows emitted) : FaithfulRows b.pool rows emitted where
  nodup := h.nodup
  size_lt := h.size_lt
  selects := h.selects
  shared := by
    intro call index call' index' number number' _ _ hselects hselects'
    constructor
    · rintro rfl
      exact hselects.same hselects'
    · rintro ⟨hbootstrap, harguments⟩
      exact hselects.number_eq h.sound.distinct h.nodup hselects' hbootstrap harguments

end Tabled

-- ---------------------------------------------------------------------------
-- One call
-- ---------------------------------------------------------------------------

namespace Encoder.CallsSite

variable {s t : Encoder} {call : DynamicCall} {index : UInt16} {number : Nat}
  {row : BootstrapMethod}

theorem grows (h : CallsSite s t call index number row) : s.Grows t := by
  refine ⟨h.within, ?_⟩
  rcases h.rows with ⟨-, hrows⟩ | ⟨-, -, hrows⟩
  · rw [hrows]
  · rw [hrows, Array.toList_push]
    exact List.prefix_append _ _

/-- A dynamic call selects the row that it has found or added. -/
theorem selects (h : CallsSite s t call index number row) :
    call.Selects t.pool.pool t.bootstraps index (UInt16.ofNat number) := by
  have hrow : t.bootstraps[number]? = some row := by
    rcases h.rows with ⟨hrow, hrows⟩ | ⟨-, rfl, hrows⟩
    · rw [hrows]
      exact hrow
    · rw [hrows]
      simp
  refine DynamicCall.selects_iff.mpr ⟨row, h.site, ?_, h.handle, h.arguments⟩
  rw [toNat_ofNat_count h.fits]
  exact hrow

end Encoder.CallsSite

/-- After a dynamic call the rows and the pool still fit together: if the row
is new, the constant of the call has its number. -/
theorem Tabled.callsSite {s t : Encoder} {call : DynamicCall} {index : UInt16} {number : Nat}
    {row : BootstrapMethod} {emitted : EmittedCalls} (h : Tabled s.pool s.bootstraps emitted)
    (hcall : Encoder.CallsSite s t call index number row) :
    Tabled t.pool t.bootstraps (emitted ++ [(call, index)]) where
  sound := hcall.sound
  nodup := by
    rcases hcall.rows with ⟨-, hrows⟩ | ⟨hnew, -, hrows⟩
    · rw [hrows]
      exact h.nodup
    · rw [hrows, Array.toList_push]
      refine h.nodup.append (List.nodup_singleton row) ?_
      rw [List.disjoint_singleton]
      simpa using hnew
  numbered n hn := by
    -- the rows that were there are numbered as before
    have hold : n < s.bootstraps.size →
        ∃ i j, t.pool.pool.Holds i (.invokeDynamic (UInt16.ofNat n) j) := by
      intro hlt
      obtain ⟨i, j, hi⟩ := h.numbered n hlt
      exact ⟨i, j, hcall.within _ _ hi⟩
    rcases hcall.rows with ⟨-, hrows⟩ | ⟨-, hlast, hrows⟩
    · rw [hrows] at hn
      exact hold hn
    · rw [hrows, Array.size_push] at hn
      by_cases hlt : n < s.bootstraps.size
      · exact hold hlt
      · -- the new row is the last one
        obtain rfl : n = number := by omega
        obtain ⟨j, hindex, -⟩ := hcall.site
        exact ⟨index, j, hindex⟩
  selects call' index' hmem := by
    rcases List.mem_append.mp hmem with hold | hlast
    · obtain ⟨number', hselects⟩ := h.selects call' index' hold
      exact ⟨number', hselects.mono hcall.grows⟩
    · obtain ⟨rfl, rfl⟩ := Prod.mk.inj (List.mem_singleton.mp hlast)
      exact ⟨_, hcall.selects⟩

-- ---------------------------------------------------------------------------
-- Bodies
-- ---------------------------------------------------------------------------

namespace Emission

/-- The calls of a body lead from one state to another, and emit dynamic calls
on the way, each with the index in the instruction that it appends. -/
inductive Course : List Emission → Encoder → EmittedCalls → Encoder → Prop
  | nil (s : Encoder) : Course [] s [] s
  | dynamic {e : Emission} {es : List Emission} {s t u : Encoder} {call : DynamicCall}
      {index : UInt16} {emitted : EmittedCalls} (isCall : e.dynamicCall? = some call)
      (run : e.run s = .ok () t)
      (written : t.code.toList =
        s.code.toList ++ Opcode.invokeDynamic :: (encode index ++ [0, 0]))
      (others : Course es t emitted u) : Course (e :: es) s ((call, index) :: emitted) u
  | other {e : Emission} {es : List Emission} {s t u : Encoder} {emitted : EmittedCalls}
      (noCall : e.dynamicCall? = none) (run : e.run s = .ok () t)
      (others : Course es t emitted u) : Course (e :: es) s emitted u

/-- Calls that succeed keep the rows and the pool together, and what they emit
is on their course. -/
theorem exists_course {es : List Emission} {s u : Encoder} {emitted : EmittedCalls}
    (hs : Tabled s.pool s.bootstraps emitted) (h : runAll es s = .ok () u) :
    ∃ more, Course es s more u ∧ Tabled u.pool u.bootstraps (emitted ++ more) := by
  induction es generalizing s emitted with
  | nil =>
    obtain ⟨-, rfl⟩ := pure_eq_ok.mp h
    refine ⟨[], .nil s, ?_⟩
    rw [List.append_nil]
    exact hs
  | cons e es ih =>
    obtain ⟨_, t, hrun, hrest⟩ := bind_eq_ok.mp h
    -- a call site may add a row; any other call leaves the rows alone
    cases hcall : e.dynamicCall? with
    | some call =>
      have hsite := hrun
      rw [run_of_dynamicCall? hcall] at hsite
      obtain ⟨index, number, row, hsite⟩ := Encoder.exists_callsSite hs.sound hsite
      obtain ⟨more, hcourse, htabled⟩ := ih (hs.callsSite hsite) hrest
      refine ⟨(call, index) :: more, .dynamic hcall hrun hsite.written hcourse, ?_⟩
      rw [List.append_cons]
      exact htabled
    | none =>
      have hrows : t.bootstraps = s.bootstraps := by
        have hkept := bootstraps_run hcall s
        rwa [Encoder.after, hrun] at hkept
      obtain ⟨hsound, hgrows, -⟩ := (Encoder.emits_run e).of_ok hs.sound hrun
      have ht := hs.grow hsound hgrows.pool
      rw [← hrows] at ht
      obtain ⟨more, hcourse, htabled⟩ := ih ht hrest
      exact ⟨more, .other hcall hrun hcourse, htabled⟩

/-- Calls of a body that succeed only add to the class. -/
theorem runAll_grows {es : List Emission} {s s' : Encoder} (hs : s.pool.Sound)
    (h : runAll es s = .ok () s') : s.Grows s' := by
  rw [← Attempt.runAll_map_ofEmission] at h
  exact (Attempt.runAll_sound hs h).2

end Emission

/-- Where the first calls of a body succeed, the body goes on with the others. -/
theorem Attempt.runAll_drop {es : List Emission} {ts : List Attempt} {s₀ s s' : Encoder}
    (hes : es <+: ts.map Attempt.emission) (h : Emission.runAll es s₀ = .ok () s)
    (hall : runAll ts s₀ = .ok () s') : runAll (ts.drop es.length) s = .ok () s' := by
  induction es generalizing ts s₀ with
  | nil =>
    obtain ⟨-, rfl⟩ := pure_eq_ok.mp h
    exact hall
  | cons e es ih =>
    obtain ⟨_, between, hrun, hrest⟩ := bind_eq_ok.mp h
    cases ts with
    | nil => exact absurd (List.prefix_nil.mp hes) (List.cons_ne_nil e es)
    | cons t ts =>
      obtain ⟨rfl, hrestPrefix⟩ := List.cons_prefix_cons.mp hes
      obtain ⟨_, between', hrun', hrest'⟩ := bind_eq_ok.mp hall
      -- an emission that succeeds alone succeeds as an attempt, with the same state
      have hsame : t.run s₀ = .ok () between := by
        unfold Attempt.run
        rw [hrun]
      obtain ⟨-, rfl⟩ := EStateM.Result.ok.inj (hsame.symm.trans hrun')
      exact ih hrestPrefix hrest hrest'

-- ---------------------------------------------------------------------------
-- Classes
-- ---------------------------------------------------------------------------

/-- Every call in the body of a method succeeds. -/
def MethodCall.Succeeds (m : MethodCall) (a : Assembler) : Prop :=
  ∀ ts, m.body = some ts → ∀ slots, MethodType.argumentSlots m.descriptor = .ok slots →
    ∃ s, Emission.runAll (ts.map Attempt.emission) (a.encoder m.spec slots) = .ok () s

namespace ClassBuilder

open Assembler

/-- Every call in the bodies of all methods succeeds. -/
def Succeeds : List ClassCall → ClassBuilder → Prop
  | [], _ => True
  | call :: calls, b => (∀ m, call = .method m → m.Succeeds b.state) ∧
    ∀ b', call.perform b = .ok b' → Succeeds calls b'

/-- The calls that declare a class lead from one builder to another, and emit
the dynamic calls of the bodies on the way. -/
inductive Course : List ClassCall → ClassBuilder → EmittedCalls → ClassBuilder → Prop
  | nil (b : ClassBuilder) : Course [] b [] b
  | body {m : MethodCall} {ts : List Attempt} {slots : Nat} {calls : List ClassCall}
      {b b' b'' : ClassBuilder} {s : Encoder} {emitted more : EmittedCalls}
      (hasBody : m.body = some ts) (parsed : MethodType.argumentSlots m.descriptor = .ok slots)
      (run : Emission.Course (ts.map Attempt.emission) (b.state.encoder m.spec slots) emitted s)
      (perform : (ClassCall.method m).perform b = .ok b') (others : Course calls b' more b'') :
      Course (.method m :: calls) b (emitted ++ more) b''
  | other {call : ClassCall} {calls : List ClassCall} {b b' b'' : ClassBuilder}
      {emitted : EmittedCalls} (noBody : ∀ m, call = .method m → m.body = none)
      (perform : call.perform b = .ok b') (others : Course calls b' emitted b'') :
      Course (call :: calls) b emitted b''

variable {name : String} {calls : List ClassCall} {b b' : ClassBuilder} {emitted : EmittedCalls}

/-- A call without a body adds no constant and no row. -/
theorem perform_of_no_body {call : ClassCall} (hnone : ∀ m, call = .method m → m.body = none)
    (h : call.perform b = .ok b') :
    b'.state.pool = b.state.pool ∧ b'.state.bootstraps = b.state.bootstraps := by
  have hadd := (perform_eq_ok.mp h).1
  cases call with
  | method m =>
    rw [ClassCall.add, MethodCall.add, hnone m rfl] at hadd
    obtain ⟨-, hstate⟩ := EStateM.Result.ok.inj hadd
    rw [← hstate]
    exact ⟨rfl, rfl⟩
  | _ =>
    obtain ⟨-, hstate⟩ := pure_eq_ok.mp hadd
    rw [← hstate]
    exact ⟨rfl, rfl⟩

/-- Calls that declare a class, with bodies whose calls succeed, keep the rows
and the pool together. -/
theorem exists_course (hb : Tabled b.state.pool b.state.bootstraps emitted)
    (hsucceeds : Succeeds calls b) (h : performAll calls b = .ok b') :
    ∃ more, Course calls b more b' ∧
      Tabled b'.state.pool b'.state.bootstraps (emitted ++ more) := by
  induction calls generalizing b emitted with
  | nil =>
    obtain rfl := Except.ok.inj h
    refine ⟨[], .nil b, ?_⟩
    rw [List.append_nil]
    exact hb
  | cons call calls ih =>
    obtain ⟨between, hcall, hrest⟩ := performAll_cons_eq_ok.mp h
    obtain ⟨hfirst, hothers⟩ := hsucceeds
    -- only a method with a body emits anything
    by_cases hbody : ∃ m ts, call = .method m ∧ m.body = some ts
    · obtain ⟨m, ts, rfl, hbody⟩ := hbody
      obtain ⟨slots, s, hslots, hrun, -, hstate⟩ :=
        (MethodCall.add_eq_ok hbody).mp (perform_eq_ok.mp hcall).1
      obtain ⟨s', hrun'⟩ := hfirst m rfl ts hbody slots hslots
      -- a body whose calls succeed is run by them alone
      have hend := Attempt.runAll_drop (List.prefix_refl _) hrun' hrun
      rw [List.length_map, List.drop_length] at hend
      obtain ⟨-, rfl⟩ := pure_eq_ok.mp hend
      obtain ⟨now, hcourse, htabled⟩ :=
        Emission.exists_course (s := b.state.encoder m.spec slots) hb hrun'
      have hbetween : Tabled between.state.pool between.state.bootstraps (emitted ++ now) := by
        rw [hstate]
        exact htabled
      obtain ⟨more, hcourse', htabled'⟩ := ih hbetween (hothers between hcall) hrest
      refine ⟨now ++ more, .body hbody hslots hcourse hcall hcourse', ?_⟩
      rw [← List.append_assoc]
      exact htabled'
    · have hnone : ∀ m, call = .method m → m.body = none := by
        intro m hm
        rw [Option.eq_none_iff_forall_not_mem]
        exact fun ts hts => hbody ⟨m, ts, hm, hts⟩
      obtain ⟨hpool, hrows⟩ := perform_of_no_body hnone hcall
      have hbetween : Tabled between.state.pool between.state.bootstraps emitted := by
        rw [hpool, hrows]
        exact hb
      obtain ⟨more, hcourse, htabled⟩ := ih hbetween (hothers between hcall) hrest
      exact ⟨more, .other hnone hcall hcourse, htabled⟩

-- ---------------------------------------------------------------------------
-- Every point
-- ---------------------------------------------------------------------------

/-- What is true of the rows at a point in the body of a method: they are what
the dynamic calls need, more calls only append to them, and no dynamic call
fails because there are too many. -/
structure RowsInBody (s : Encoder) (emitted : EmittedCalls) : Prop where
  faithful : FaithfulRows s.pool.pool s.bootstraps emitted
  appends : ∀ es s', Emission.runAll es s = .ok () s' →
    s.bootstraps.toList <+: s'.bootstraps.toList
  fits : ∀ e call s', Emission.dynamicCall? e = some call →
    e.run s ≠ .error (.malformed .tooManyBootstrapMethods) s'

/-- What is true of the rows between the calls that declare a class: beside
the same as in a body, the class is not turned down because there are too
many, and if it is written, they are still what the dynamic calls need in the
class file that is read back. -/
structure RowsBetween (b : ClassBuilder) (emitted : EmittedCalls) : Prop where
  faithful : FaithfulRows b.state.pool.pool b.state.bootstraps emitted
  appends : ∀ calls b', performAll calls b = .ok b' →
    b.state.bootstraps.toList <+: b'.state.bootstraps.toList
  fits : b.finish ≠ .error (.malformed .tooManyBootstrapMethods)
  written : ∀ bytes, b.finish = .ok bytes → ∃ c, ClassFile.ofBytes bytes = .ok c ∧
    c.bootstrapMethods = b.state.bootstraps ∧ FaithfulRows c.pool c.bootstrapMethods emitted

/-- The rows are faithful to the calls so far at every point inside a body. -/
theorem rowsInBody {s : Encoder} (h : Tabled s.pool s.bootstraps emitted) :
    RowsInBody s emitted where
  faithful := h.faithful
  appends _ _ hrun := (Emission.runAll_grows h.sound hrun).rows
  fits e call s' hcall hfault := by
    rw [Emission.run_of_dynamicCall? hcall] at hfault
    have hmany := Encoder.callSite_fault hfault
    have hfew := h.size_lt
    rw [countLimit] at hmany
    omega

/-- The rows are faithful to the calls so far between two calls to the builder,
and in the file it writes. -/
theorem rowsBetween (hcalls : performAll calls (.new name) = .ok b)
    (h : Tabled b.state.pool b.state.bootstraps emitted) : RowsBetween b emitted where
  faithful := h.faithful
  appends _ _ hperform := (performAll_bodies h.sound hperform).2.1.rows
  fits hfault := by
    have hmany := Assembler.finish_fault hfault
    have hfew := h.size_lt
    rw [countLimit] at hmany
    omega
  written bytes hbytes := by
    obtain ⟨l, pool, hread, -, hwithin, -⟩ := exists_classFile hcalls hbytes
    exact ⟨_, hread, rfl, h.faithful.mono hwithin⟩

/-- The rows at every point of an assembly whose calls succeed. -/
theorem bootstraps_at_every_point (hcalls : performAll calls (.new name) = .ok b)
    (hsucceeds : Succeeds calls (.new name)) :
    ∃ before, Course calls (.new name) before b ∧ RowsBetween b before ∧
      ∀ m ts slots es s, MethodCall.body m = some ts → es <+: ts.map Attempt.emission →
        MethodType.argumentSlots m.descriptor = .ok slots →
        Emission.runAll es (b.state.encoder m.spec slots) = .ok () s →
        ∃ now, Emission.Course es (b.state.encoder m.spec slots) now s ∧
          RowsInBody s (before ++ now) ∧ b.state.bootstraps.toList <+: s.bootstraps.toList ∧
          ∀ b', (ClassCall.method m).perform b = .ok b' →
            s.bootstraps.toList <+: b'.state.bootstraps.toList := by
  -- a new builder has emitted nothing, which is where the invariant starts
  have hnone : Tabled (new name).state.pool (new name).state.bootstraps [] := tabled_empty
  obtain ⟨before, hcourse, htabled⟩ := exists_course hnone hsucceeds hcalls
  rw [List.nil_append] at htabled
  refine ⟨before, hcourse, rowsBetween hcalls htabled, ?_⟩
  intro m ts slots es s hbody hes hslots hrun
  obtain ⟨now, hnow, hs⟩ :=
    Emission.exists_course (s := b.state.encoder m.spec slots) htabled hrun
  have hgrows := Emission.runAll_grows (s := b.state.encoder m.spec slots) htabled.sound hrun
  refine ⟨now, hnow, rowsInBody hs, hgrows.rows, fun b' hperform => ?_⟩
  -- the method goes on from this point to its end
  obtain ⟨slots', s', hslots', hall, -, hstate⟩ :=
    (MethodCall.add_eq_ok hbody).mp (perform_eq_ok.mp hperform).1
  obtain rfl : slots = slots' := Except.ok.inj (hslots.symm.trans hslots')
  rw [hstate]
  exact (Attempt.runAll_sound hs.sound (Attempt.runAll_drop hes hrun hall)).2.rows

/-! ### Two calls with one handle -/

/-- A handle of the static method `A.f`. -/
def sharedHandle : HandleSpec := ⟨HandleKind.invokeStatic.tag, ⟨"A", "f", "()V"⟩⟩

/-- The bootstrap method that has this handle, and no arguments. -/
def sharedRow : BootstrapMethod := ⟨7, #[]⟩

/-- A method that makes a dynamic call. -/
def callingMethod (site : String) : MethodCall :=
  ⟨⟨0⟩, "m", "()V", some [.ofEmission (.callSite site "()V" sharedHandle [])]⟩

/-- The constants of two calls: those of the handle, then those of the call
sites, of which the first one has the name and the descriptor of the handle. -/
def callingConstants : List Constant :=
  [.utf8 "A", .classInfo 1, .utf8 "f", .utf8 "()V", .nameAndType 3 4, .memberRef .method 2 5,
    .methodHandle 6 6, .invokeDynamic 0 5, .utf8 "g", .nameAndType 9 4, .invokeDynamic 0 10]

/-- The first constants of the two calls. -/
def callingPool (count : Nat) : PoolBuilder := .ofConstants (callingConstants.take count)

/-- Every state that the pool of the example passes through is sound. -/
theorem sound_callingPool (count : Nat) (hcount : count < 12) : (callingPool count).Sound := by
  have hnew : callingConstants.Nodup := by decide +kernel
  have hfits : ∀ k ∈ callingConstants, k.Fits := by decide +kernel
  have hroom : ∀ count < 12, (callingPool count).pool.size ≤ countLimit := by decide +kernel
  exact PoolBuilder.sound_ofConstants (hnew.sublist (List.take_sublist _ _))
    (fun k hk => hfits k (List.mem_of_mem_take hk)) (hroom count hcount)

/-- The encoder of a method at a point where the constants and the rows of its class are known. -/
def callingEncoder (count : Nat) (rows : Array BootstrapMethod) (code : Array UInt8) : Encoder :=
  ⟨callingPool count, rows, #[], code, 8, 1⟩

/-- A call goes through if its handle, its row and its call site are had. -/
theorem run_call {site : String} {before known after : Nat} {rows : Array BootstrapMethod}
    {index : UInt16}
    (hhandle : sharedHandle.intern (callingPool before) = .ok 7 (callingPool known))
    (hrow : Encoder.bootstrapNumber sharedRow (callingEncoder known rows #[]) =
      .ok 0 (callingEncoder known #[sharedRow] #[]))
    (hsite : PoolBuilder.invokeDynamic 0 site "()V" (callingPool known) =
      .ok index (callingPool after)) :
    (Emission.callSite site "()V" sharedHandle []).run (callingEncoder before rows #[]) =
      .ok () (callingEncoder after #[sharedRow]
        (#[Opcode.invokeDynamic] ++ (encode index ++ [0, 0]))) := by
  refine bind_eq_ok.mpr ⟨7, callingEncoder known rows #[],
    Encoder.onPool_eq_ok.mpr ⟨_, hhandle, rfl⟩, bind_eq_ok.mpr ⟨#[], _, rfl, ?_⟩⟩
  refine bind_eq_ok.mpr ⟨0, callingEncoder known #[sharedRow] #[], hrow, ?_⟩
  exact bind_eq_ok.mpr ⟨index, callingEncoder after #[sharedRow] #[],
    Encoder.onPool_eq_ok.mpr ⟨_, hsite, rfl⟩, rfl⟩

/-- The first call adds its handle and a row. -/
theorem run_firstCall :
    (Emission.callSite "f" "()V" sharedHandle []).run (callingEncoder 0 #[] #[]) =
      .ok () (callingEncoder 8 #[sharedRow] #[0xBA, 0, 8, 0, 0]) := by
  -- the pool is empty, so every entry is a new one
  have hclass : PoolBuilder.classInfo "A" (callingPool 0) = .ok 2 (callingPool 2) :=
    bind_eq_ok.mpr ⟨1, _, PoolBuilder.utf8_take rfl (by decide +kernel),
      PoolBuilder.intern_take rfl (by decide +kernel)⟩
  have hsignature : PoolBuilder.nameAndType "f" "()V" (callingPool 2) = .ok 5 (callingPool 5) :=
    bind_eq_ok.mpr ⟨3, _, PoolBuilder.utf8_take rfl (by decide +kernel),
      bind_eq_ok.mpr ⟨4, _, PoolBuilder.utf8_take rfl (by decide +kernel),
        PoolBuilder.intern_take rfl (by decide +kernel)⟩⟩
  have hmember : PoolBuilder.memberRef .method ⟨"A", "f", "()V"⟩ (callingPool 0) =
      .ok 6 (callingPool 6) :=
    bind_eq_ok.mpr ⟨2, _, hclass, bind_eq_ok.mpr ⟨5, _, hsignature,
      PoolBuilder.intern_take rfl (by decide +kernel)⟩⟩
  have hhandle : sharedHandle.intern (callingPool 0) = .ok 7 (callingPool 7) :=
    bind_eq_ok.mpr ⟨6, _, hmember, PoolBuilder.intern_take rfl (by decide +kernel)⟩
  have hsite : PoolBuilder.invokeDynamic 0 "f" "()V" (callingPool 7) = .ok 8 (callingPool 8) := by
    have hnamed : (callingPool 7).pool.nameAndType 5 = .ok ("f", "()V") := by decide +kernel
    have hknown := PoolBuilder.recalls_nameAndType "f" "()V" _ (sound_callingPool 7 (by decide)) 5
      (ConstantPool.nameAndType_eq_ok.mp hnamed)
    exact bind_eq_ok.mpr ⟨5, _, hknown, PoolBuilder.intern_take rfl (by decide +kernel)⟩
  have hnew : Encoder.bootstrapNumber sharedRow (callingEncoder 7 #[] #[]) =
      .ok 0 (callingEncoder 7 #[sharedRow] #[]) := by
    simp [Encoder.bootstrapNumber, callingEncoder]
  exact run_call hhandle hnew hsite

/-- The second call finds its handle and the row. -/
theorem run_secondCall :
    (Emission.callSite "g" "()V" sharedHandle []).run (callingEncoder 8 #[sharedRow] #[]) =
      .ok () (callingEncoder 11 #[sharedRow] #[0xBA, 0, 11, 0, 0]) := by
  -- the handle and the type are in the pool; the name and the site are new
  have hhandle : sharedHandle.intern (callingPool 8) = .ok 7 (callingPool 8) := by
    have hnamed : (callingPool 8).pool.methodHandle 7 = .ok sharedHandle.target := by
      decide +kernel
    exact sharedHandle.recalls _ (sound_callingPool 8 (by decide)) 7
      (ConstantPool.methodHandle_eq_ok.mp hnamed)
  have htype : PoolBuilder.utf8 "()V" (callingPool 9) = .ok 4 (callingPool 9) := by
    have hnamed : (callingPool 9).pool.utf8 4 = .ok "()V" := by decide +kernel
    exact PoolBuilder.recalls_utf8 "()V" _ (sound_callingPool 9 (by decide)) 4
      (ConstantPool.utf8_eq_ok.mp hnamed)
  have hsignature : PoolBuilder.nameAndType "g" "()V" (callingPool 8) = .ok 10 (callingPool 10) :=
    bind_eq_ok.mpr ⟨9, _, PoolBuilder.utf8_take rfl (by decide +kernel),
      bind_eq_ok.mpr ⟨4, _, htype, PoolBuilder.intern_take rfl (by decide +kernel)⟩⟩
  have hsite : PoolBuilder.invokeDynamic 0 "g" "()V" (callingPool 8) =
      .ok 11 (callingPool 11) :=
    bind_eq_ok.mpr ⟨10, _, hsignature, PoolBuilder.intern_take rfl (by decide +kernel)⟩
  have hfound : Encoder.bootstrapNumber sharedRow (callingEncoder 8 #[sharedRow] #[]) =
      .ok 0 (callingEncoder 8 #[sharedRow] #[]) := by
    simp [Encoder.bootstrapNumber, callingEncoder]
  exact run_call hhandle hfound hsite

/-- The class after the method that makes the first call. -/
def callingBuilder : ClassBuilder :=
  ⟨(ClassCall.method (callingMethod "f")).declare { name := "C" },
    ⟨callingPool 8, #[sharedRow], #[], #[some ⟨8, 1, [0xBA, 0, 8, 0, 0], #[]⟩]⟩⟩

theorem argumentSlots_calling : MethodType.argumentSlots "()V" = .ok 0 := by decide +kernel

/-- The first method puts in the row that the second is going to share. -/
theorem performAll_firstCall :
    performAll [.method (callingMethod "f")] (.new "C") = .ok callingBuilder := by
  have hall := Attempt.runAll_one run_firstCall
  exact performAll_method (m := callingMethod "f") (s := callingEncoder 8 #[sharedRow] _) rfl
    argumentSlots_calling hall rfl

theorem succeeds_firstCall : Succeeds [.method (callingMethod "f")] (.new "C") := by
  refine ⟨?_, fun _ _ => trivial⟩
  intro m hm ts hts slots hslots
  obtain rfl := ClassCall.method.inj hm
  obtain rfl := Option.some.inj hts
  obtain rfl : slots = 0 := Except.ok.inj (hslots.symm.trans argumentSlots_calling)
  exact ⟨_, Emission.runAll_one run_firstCall⟩

/-- In the body of a second method the same handle finds its row. -/
theorem bootstraps_at_every_point_callingBuilder :
    ∃ before now s, Course [.method (callingMethod "f")] (.new "C") before callingBuilder ∧
      RowsBetween callingBuilder before ∧ s.bootstraps = #[sharedRow] ∧
      Emission.Course [.callSite "g" "()V" sharedHandle []]
        (callingBuilder.state.encoder (callingMethod "g").spec 0) now s ∧
      RowsInBody s (before ++ now) := by
  obtain ⟨before, hcourse, hbetween, hbodies⟩ :=
    bootstraps_at_every_point performAll_firstCall succeeds_firstCall
  obtain ⟨now, hnow, hinBody, -⟩ := hbodies (callingMethod "g") _ 0 _ _ rfl (List.prefix_refl _)
    argumentSlots_calling (Emission.runAll_one run_secondCall)
  exact ⟨before, now, _, hcourse, hbetween, rfl, hnow, hinBody⟩

end ClassBuilder

end Backref
