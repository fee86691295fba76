import Backref.Proofs.Assembly.Decoding
import Backref.Proofs.Assembly.Faults
import Backref.Proofs.Assembly.Requests

/-!
# Dynamic calls

A dynamic call interns its handle and its arguments, looks the two up among
the bootstrap methods, and refers to the row that it has found by its number.
A row that is not there yet goes behind the others; no other emission touches
the rows.

Main results:

* `Encoder.exists_callsSite` — all that a dynamic call that succeeds has done;
* `Encoder.callSite_fault` — it fails for its number only if there are more
  rows than a 16-bit count holds;
* `Emission.bootstraps_run` — what is no dynamic call leaves the rows alone;
* `DynamicCall.Selects.unique`, `DynamicCall.Selects.number_eq` — which calls
  select the same row.
-/

namespace Backref

open FixedWidth

/-- What a dynamic call is made of: the name and the descriptor of the call
site, the handle of the bootstrap method, and its static arguments. -/
structure DynamicCall where
  name : String
  descriptor : String
  bootstrap : HandleSpec
  arguments : List StaticArgument
  deriving DecidableEq, Repr

namespace Emission

/-- The dynamic call that an emission is. -/
def dynamicCall? : Emission → Option DynamicCall
  | callSite name descriptor bootstrap arguments => some ⟨name, descriptor, bootstrap, arguments⟩
  | lambda l => some ⟨l.name, l.descriptor, LambdaSpec.bootstrap Lambda.plain, l.arguments⟩
  | flaggedLambda l flags =>
    some ⟨l.name, l.descriptor, LambdaSpec.bootstrap Lambda.flagged, l.arguments ++ [.int flags]⟩
  | _ => none

variable {e : Emission} {call : DynamicCall}

/-- A dynamic call is run by appending its call site. -/
theorem run_of_dynamicCall? (h : e.dynamicCall? = some call) :
    e.run = Encoder.appendCallSite call.name call.descriptor call.bootstrap call.arguments := by
  cases e with
  | callSite name descriptor bootstrap arguments =>
    cases h
    rfl
  | lambda l =>
    cases h
    rfl
  | flaggedLambda l flags =>
    cases h
    rfl
  | _ => cases h

/-- What is no dynamic call leaves the rows alone. -/
theorem bootstraps_run (h : e.dynamicCall? = none) : Encoder.Keeps Encoder.bootstraps e.run := by
  have hplain : ∀ e : Emission, e.IsPlain → Encoder.Keeps Encoder.bootstraps e.run :=
    fun _ he => he.keeps Encoder.apart_bootstraps
  cases e with
  | callSite | lambda | flaggedLambda => cases h
  | maxStack | maxLocals | mark => exact fun _ => rfl
  | _ =>
    refine hplain _ ?_
    exact trivial

end Emission

-- ---------------------------------------------------------------------------
-- The steps of a dynamic call
-- ---------------------------------------------------------------------------

namespace Encoder

variable {α : Type} {s t : Encoder}

/-- A request to the pool succeeds as on the pool alone, and touches nothing else. -/
theorem onPool_eq_ok {x : Interning α} {a : α} :
    onPool x s = .ok a t ↔ ∃ pool, x s.pool = .ok a pool ∧ t = { s with pool := pool } := by
  unfold onPool
  simp only
  cases x s.pool with
  | ok a' pool =>
    simp only [EStateM.Result.ok.injEq]
    constructor
    · rintro ⟨rfl, rfl⟩
      exact ⟨pool, ⟨rfl, rfl⟩, rfl⟩
    · rintro ⟨_, ⟨rfl, rfl⟩, rfl⟩
      exact ⟨rfl, rfl⟩
  | error fault pool => simp

/-- An instruction is appended as long as the code stays within the limit. -/
theorem append_eq_ok {opcode : UInt8} {operands : Bytes} {u : Unit} :
    append opcode operands s = .ok u t ↔
      s.code.size + 1 + operands.length ≤ countLimit ∧
        t = { s with code := s.code.push opcode ++ operands } := by
  unfold append
  simp only
  split
  · rename_i hroom
    rw [EStateM.Result.ok.injEq]
    simp [hroom, eq_comm]
  · rename_i hroom
    simp [hroom]

/-- A row that is there is found, and any other one is put last. -/
theorem bootstrapNumber_eq_ok {row : BootstrapMethod} {number : Nat}
    (h : bootstrapNumber row s = .ok number t) : t.pool = s.pool ∧ t.code = s.code ∧
      ((s.bootstraps[number]? = some row ∧ t.bootstraps = s.bootstraps) ∨
        (row ∉ s.bootstraps ∧ number = s.bootstraps.size ∧
          t.bootstraps = s.bootstraps.push row)) := by
  obtain ⟨number', t', hrun, hrows⟩ := exists_bootstrapNumber row s
  obtain ⟨rfl, rfl⟩ := EStateM.Result.ok.inj (hrun.symm.trans h)
  rcases hrows with ⟨hrow, rfl⟩ | ⟨hnew, hlast, rfl⟩
  · exact ⟨rfl, rfl, .inl ⟨hrow, rfl⟩⟩
  · exact ⟨rfl, rfl, .inr ⟨hnew, hlast, rfl⟩⟩

/-- All that a dynamic call that succeeds has done: it has appended an
instruction whose index stands for a call site with the number of a row, which
has the handle and the arguments of the call, and which was there before or is
the one new row behind the others. -/
structure CallsSite (s t : Encoder) (call : DynamicCall) (index : UInt16) (number : Nat)
    (row : BootstrapMethod) : Prop where
  sound : t.pool.Sound
  within : s.pool.pool.Within t.pool.pool
  rows : (s.bootstraps[number]? = some row ∧ t.bootstraps = s.bootstraps) ∨
    (row ∉ s.bootstraps ∧ number = s.bootstraps.size ∧ t.bootstraps = s.bootstraps.push row)
  fits : number ≤ countLimit
  site : t.pool.pool.NamesCallSite index ⟨UInt16.ofNat number, call.name, call.descriptor⟩
  handle : t.pool.pool.NamesHandle row.handle call.bootstrap.target
  arguments : List.Forall₂ (fun a i => a.NamedAt t.pool.pool i) call.arguments
    row.arguments.toList
  written : t.code.toList = s.code.toList ++ Opcode.invokeDynamic :: (encode index ++ [0, 0])

/-- A call site that has been appended is in the pool, selects its row and is at
the end of the code. -/
theorem exists_callsSite {call : DynamicCall} (hs : s.pool.Sound)
    (h : appendCallSite call.name call.descriptor call.bootstrap call.arguments s = .ok () t) :
    ∃ index number row, CallsSite s t call index number row := by
  obtain ⟨handle, s₁, hfirst, h⟩ := bind_eq_ok.mp h
  obtain ⟨b₁, hanswer, rfl⟩ := onPool_eq_ok.mp hfirst
  obtain ⟨hsound₁, hwithin₁, hhandle⟩ := call.bootstrap.interns.of_ok hs hanswer
  obtain ⟨is, s₂, hsecond, h⟩ := bind_eq_ok.mp h
  obtain ⟨b₂, hanswers, rfl⟩ := onPool_eq_ok.mp hsecond
  obtain ⟨hsound₂, hwithin₂, his⟩ :=
    (StaticArgument.interns_internAll call.arguments).of_ok hsound₁ hanswers
  obtain ⟨number, s₃, hnumber, h⟩ := bind_eq_ok.mp h
  obtain ⟨hpool, hcode, hrows⟩ := bootstrapNumber_eq_ok hnumber
  -- a number that does not fit two bytes is refused
  by_cases hfits : number ≤ countLimit
  · rw [if_pos hfits] at h
    obtain ⟨index, s₄, hlast, h⟩ := bind_eq_ok.mp h
    obtain ⟨b₄, hindex, rfl⟩ := onPool_eq_ok.mp hlast
    obtain ⟨-, rfl⟩ := append_eq_ok.mp h
    rw [hpool] at hindex
    obtain ⟨hsound, hwithin, hsite⟩ :=
      (PoolBuilder.interns_invokeDynamic _ call.name call.descriptor).of_ok hsound₂ hindex
    refine ⟨index, number, ⟨handle, is⟩, hsound, ?_, hrows, hfits, hsite, ?_, ?_, ?_⟩
    · exact hwithin₁.trans (hwithin₂.trans hwithin)
    · exact (hhandle.mono hwithin₂).mono hwithin
    · exact his.imp fun _ _ hi => hi.mono hwithin
    · simp [hcode]
  · rw [if_neg hfits] at h
    exact absurd h throw_ne_ok

/-- A dynamic call fails for its number only if there are too many rows. -/
theorem callSite_fault {call : DynamicCall}
    (h : appendCallSite call.name call.descriptor call.bootstrap call.arguments s =
      .error (.malformed .tooManyBootstrapMethods) t) : countLimit < s.bootstraps.size := by
  -- no request to the pool fails with this fault
  have hpool : ∀ {β : Type} {x : Interning β} {s t : Encoder}, FailsWith PoolFault x →
      onPool x s ≠ .error (.malformed .tooManyBootstrapMethods) t := by
    intro β x s t hx herror
    rcases failsWith_onPool hx s t _ herror with hfull | ⟨length, hlong⟩
    · cases hfull
    · cases hlong
  rcases bind_eq_error.mp h with hfault | ⟨handle, s₁, hhandle, h⟩
  · exact absurd hfault (hpool call.bootstrap.failsWith_intern)
  obtain ⟨b₁, -, rfl⟩ := onPool_eq_ok.mp hhandle
  rcases bind_eq_error.mp h with hfault | ⟨is, s₂, his, h⟩
  · exact absurd hfault (hpool (StaticArgument.failsWith_internAll _ _))
  obtain ⟨b₂, -, rfl⟩ := onPool_eq_ok.mp his
  rcases bind_eq_error.mp h with hfault | ⟨number, s₃, hnumber, h⟩
  · obtain ⟨_, _, hrun, -⟩ := exists_bootstrapNumber ⟨handle, is⟩ _
    cases hrun.symm.trans hfault
  -- a row is found among those that are there or put behind them
  have hle : number ≤ s.bootstraps.size := by
    rcases (bootstrapNumber_eq_ok hnumber).2.2 with ⟨hrow, -⟩ | ⟨-, rfl, -⟩
    · exact Nat.le_of_lt (Array.getElem?_eq_some_iff.mp hrow).1
    · exact Nat.le_refl _
  by_cases hfits : number ≤ countLimit
  · rw [if_pos hfits] at h
    rcases bind_eq_error.mp h with hfault | ⟨index, s₄, -, hfault⟩
    · exact absurd hfault (hpool (PoolBuilder.failsWith_invokeDynamic _ _ _))
    · cases failsWith_append _ _ _ _ _ hfault
  · exact Nat.lt_of_lt_of_le (Nat.lt_of_not_le hfits) hle

end Encoder

-- ---------------------------------------------------------------------------
-- Rows by what they stand for
-- ---------------------------------------------------------------------------

namespace ConstantPool

variable {pool : ConstantPool} {i j : UInt16}

/-- A handle is at one index only, where all constants are distinct. -/
theorem NamesHandle.index_unique (hd : pool.Distinct) {h : HandleRef} (hi : pool.NamesHandle i h)
    (hj : pool.NamesHandle j h) : i = j := by
  obtain ⟨a, hi, ha⟩ := hi
  obtain ⟨b, hj, hb⟩ := hj
  obtain rfl := NamesMember.index_unique hd ha hb
  exact hd i j _ hi hj

theorem NamesHandle.unique {h h' : HandleRef} (hi : pool.NamesHandle i h)
    (hi' : pool.NamesHandle i h') : h = h' := by
  have hread := methodHandle_eq_ok.mpr hi
  rwa [methodHandle_eq_ok.mpr hi', Except.ok.injEq, eq_comm] at hread

theorem NamesMethodType.unique {a b : String} (ha : pool.NamesMethodType i a)
    (hb : pool.NamesMethodType i b) : a = b := by
  have hread := methodType_eq_ok.mpr ha
  rwa [methodType_eq_ok.mpr hb, Except.ok.injEq, eq_comm] at hread

theorem NamesCallSite.unique {a b : CallSite} (ha : pool.NamesCallSite i a)
    (hb : pool.NamesCallSite i b) : a = b := by
  have hread := callSite_eq_ok.mpr ha
  rwa [callSite_eq_ok.mpr hb, Except.ok.injEq, eq_comm] at hread

end ConstantPool

/-- A handle is known from what it spells out: its kind says which kind of
reference its member needs. -/
theorem HandleSpec.target_inj {h h' : HandleSpec} (heq : h.target = h'.target) : h = h' := by
  obtain ⟨kind, m⟩ := h
  obtain ⟨kind', m'⟩ := h'
  obtain ⟨rfl, hmember⟩ := HandleRef.mk.inj heq
  obtain ⟨rfl, -⟩ := MemberRef.mk.inj hmember
  rfl

namespace StaticArgument

/-- The kind of constant that a static argument is. -/
def kind : StaticArgument → Constant.Kind
  | methodType _ => .methodType
  | handle _ => .methodHandle
  | ofClass _ => .classInfo
  | string _ => .string
  | int _ => .integer

variable {pool : ConstantPool} {i j : UInt16} {a a' : StaticArgument}

theorem NamedAt.holds (h : a.NamedAt pool i) : ∃ k, pool.Holds i k ∧ k.kind = a.kind := by
  cases a with
  | int value => exact ⟨_, h, rfl⟩
  | _ =>
    obtain ⟨j, hi, -⟩ := h
    exact ⟨_, hi, rfl⟩

/-- An index stands for one static argument only. -/
theorem NamedAt.unique (h : a.NamedAt pool i) (h' : a'.NamedAt pool i) : a = a' := by
  -- arguments of different kinds have different constants
  have hkind : a.kind = a'.kind := by
    obtain ⟨k, hk, hkind⟩ := h.holds
    obtain ⟨k', hk', hkind'⟩ := h'.holds
    obtain rfl := hk.unique hk'
    exact hkind.symm.trans hkind'
  cases a with
  | methodType descriptor =>
    cases a' with
    | methodType descriptor' => rw [ConstantPool.NamesMethodType.unique h h']
    | _ => cases hkind
  | handle spec =>
    cases a' with
    | handle spec' => rw [HandleSpec.target_inj (ConstantPool.NamesHandle.unique h h')]
    | _ => cases hkind
  | ofClass name =>
    cases a' with
    | ofClass name' => rw [ConstantPool.NamesClass.unique h h']
    | _ => cases hkind
  | string text =>
    cases a' with
    | string text' =>
      obtain ⟨j, hi, hj⟩ := h
      obtain ⟨j', hi', hj'⟩ := h'
      obtain rfl := Constant.string.inj (hi.unique hi')
      rw [hj.unique hj']
    | _ => cases hkind
  | int value =>
    cases a' with
    | int value' => rw [Constant.integer.inj (ConstantPool.Holds.unique h h')]
    | _ => cases hkind

/-- A static argument stands in one place only. -/
theorem NamedAt.index_unique (hd : pool.Distinct) (hi : a.NamedAt pool i)
    (hj : a.NamedAt pool j) : i = j := by
  cases a with
  | methodType descriptor => exact ConstantPool.NamesMethodType.index_unique hd hi hj
  | handle spec => exact ConstantPool.NamesHandle.index_unique hd hi hj
  | ofClass name => exact ConstantPool.NamesClass.index_unique hd hi hj
  | string text =>
    obtain ⟨k, hi, hk⟩ := hi
    obtain ⟨l, hj, hl⟩ := hj
    obtain rfl := ConstantPool.NamesText.index_unique hd hk hl
    exact hd i j _ hi hj
  | int value => exact hd i j _ hi hj

/-- Looking an argument up finds it exactly where it is named. -/
theorem resolvesAt_iff : a.ResolvesAt pool i ↔ a.NamedAt pool i := by
  open ConstantPool in
  cases a with
  | methodType descriptor => exact methodType_eq_ok
  | handle spec => exact methodHandle_eq_ok
  | ofClass name => exact className_eq_ok
  | string text => exact exists_congr fun j => and_congr get_eq_ok utf8_eq_ok
  | int value => exact get_eq_ok

end StaticArgument

namespace DynamicCall

variable {call call' : DynamicCall} {pool : ConstantPool} {rows : Array BootstrapMethod}
  {index index' number number' : UInt16}

/-- An index resolves to the call site of a dynamic call, and the number of
the call site selects the row that is made of the handle and the arguments of
the call, in order. -/
def Selects (call : DynamicCall) (pool : ConstantPool) (rows : Array BootstrapMethod)
    (index number : UInt16) : Prop :=
  ∃ row, pool.callSite index = .ok ⟨number, call.name, call.descriptor⟩ ∧
    rows[number.toNat]? = some row ∧ pool.methodHandle row.handle = .ok call.bootstrap.target ∧
    List.Forall₂ (fun a i => a.ResolvesAt pool i) call.arguments row.arguments.toList

/-- A call selects a row that says what the call says. -/
theorem selects_iff : call.Selects pool rows index number ↔
    ∃ row, pool.NamesCallSite index ⟨number, call.name, call.descriptor⟩ ∧
      rows[number.toNat]? = some row ∧ pool.NamesHandle row.handle call.bootstrap.target ∧
      List.Forall₂ (fun a i => a.NamedAt pool i) call.arguments row.arguments.toList := by
  simp only [Selects, ConstantPool.callSite_eq_ok, ConstantPool.methodHandle_eq_ok,
    StaticArgument.resolvesAt_iff]

theorem Selects.mono {larger : ConstantPool} {rows' : Array BootstrapMethod}
    (h : call.Selects pool rows index number) (hgrown : Extends pool rows larger rows') :
    call.Selects larger rows' index number := by
  obtain ⟨row, hsite, hrow, hhandle, harguments⟩ := selects_iff.mp h
  exact selects_iff.mpr ⟨row, hsite.mono hgrown.pool, hgrown.row hrow, hhandle.mono hgrown.pool,
    harguments.imp fun _ _ hi => hi.mono hgrown.pool⟩

/-- An index selects one row only. -/
theorem Selects.unique (h : call.Selects pool rows index number)
    (h' : call'.Selects pool rows index number') : number = number' := by
  obtain ⟨_, hsite, -⟩ := selects_iff.mp h
  obtain ⟨_, hsite', -⟩ := selects_iff.mp h'
  exact (CallSite.mk.inj (hsite.unique hsite')).1

/-- Calls that select the same row have the same handle and the same arguments. -/
theorem Selects.same (h : call.Selects pool rows index number)
    (h' : call'.Selects pool rows index' number) :
    call.bootstrap = call'.bootstrap ∧ call.arguments = call'.arguments := by
  obtain ⟨row, -, hrow, hhandle, harguments⟩ := selects_iff.mp h
  obtain ⟨row', -, hrow', hhandle', harguments'⟩ := selects_iff.mp h'
  obtain rfl : row = row' := Option.some.inj (hrow.symm.trans hrow')
  refine ⟨HandleSpec.target_inj (hhandle.unique hhandle'), ?_⟩
  exact List.left_unique_forall₂' (fun _ _ _ hi hi' => hi.unique hi') harguments harguments'

/-- Calls with the same handle and the same arguments select the same row, if
no row is there twice. -/
theorem Selects.number_eq (hd : pool.Distinct) (hrows : rows.toList.Nodup)
    (h : call.Selects pool rows index number) (h' : call'.Selects pool rows index' number')
    (hbootstrap : call.bootstrap = call'.bootstrap)
    (harguments : call.arguments = call'.arguments) : number = number' := by
  obtain ⟨⟨handle, is⟩, -, hrow, hhandle, his⟩ := selects_iff.mp h
  obtain ⟨⟨handle', is'⟩, -, hrow', hhandle', his'⟩ := selects_iff.mp h'
  rw [← hbootstrap] at hhandle'
  rw [← harguments] at his'
  -- equal handles and arguments are at equal indices, so the rows are equal
  obtain rfl : handle = handle' := hhandle.index_unique hd hhandle'
  obtain rfl : is = is' := Array.ext' <|
    List.right_unique_forall₂' (fun _ _ _ hi hi' => hi.index_unique hd hi') his his'
  rw [← Array.getElem?_toList] at hrow hrow'
  have hlt := (List.getElem?_eq_some_iff.mp hrow).1
  exact UInt16.toNat_inj.mp ((List.getElem?_inj hlt hrows).mp (hrow.trans hrow'.symm))

end DynamicCall

end Backref
