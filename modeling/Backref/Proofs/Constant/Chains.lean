import Backref.Proofs.Constant.Links

/-!
# Where chains of constants break

A lookup wants a constant of some kind at an index and goes on to the indices
that this constant links to, where it wants constants of other kinds. So the
pool says at which indices a lookup stops, and in which order: first at the
index itself, and behind each stop at those that the constant there links to. A
pool may hold anything: constants may be missing, and may link to themselves or
in circles. A chain ends all the same, because each link leads to where a
constant with fewer links ahead is wanted.

Main results:

* `ConstantPool.chain_eq`, `ConstantPool.chain_memberRef` — the stops in order;
* `ConstantPool.decidedBy_memberRef` and its companions — a lookup fails at the
  first stop that lacks what is wanted there, and succeeds if there is none;
* `ConstantPool.lookups_follow_chains` — what this means for each lookup.
-/

namespace Backref

-- ---------------------------------------------------------------------------
-- Links
-- ---------------------------------------------------------------------------

/-- How many links a chain can have at most, by what is wanted where it starts. -/
def PoolRole.depth : PoolRole → Nat
  | utf8 => 0
  | classInfo | nameAndType | methodType => 1
  | memberRef | invokeDynamic => 2
  | methodHandle => 3

namespace ConstantPool

/-- A stop of a lookup: an index, and what is wanted there. -/
structure Stop where
  index : UInt16
  wanted : PoolRole
  deriving DecidableEq, Repr

end ConstantPool

namespace Constant

/-- What a constant is wanted as, if lookups want it at all. -/
def role? : Constant → Option PoolRole
  | utf8 _ => some .utf8
  | classInfo _ => some .classInfo
  | nameAndType _ _ => some .nameAndType
  | memberRef _ _ _ => some .memberRef
  | methodHandle _ _ => some .methodHandle
  | methodType _ => some .methodType
  | invokeDynamic _ _ => some .invokeDynamic
  | integer _ | float _ | long _ | double _ | string _ | dynamic _ _ | moduleInfo _
  | packageInfo _ => none

/-- Where a lookup goes on from a constant, in order. -/
def links : Constant → List ConstantPool.Stop
  | classInfo name => [⟨name, .utf8⟩]
  | nameAndType name descriptor => [⟨name, .utf8⟩, ⟨descriptor, .utf8⟩]
  | memberRef _ owner signature => [⟨owner, .classInfo⟩, ⟨signature, .nameAndType⟩]
  | methodHandle _ member => [⟨member, .memberRef⟩]
  | methodType descriptor => [⟨descriptor, .utf8⟩]
  | invokeDynamic _ signature => [⟨signature, .nameAndType⟩]
  | utf8 _ | integer _ | float _ | long _ | double _ | string _ | dynamic _ _ | moduleInfo _
  | packageInfo _ => []

/-- A link leads to where fewer links are ahead. -/
theorem depth_lt_of_mem_links {c : Constant} {role : PoolRole} (hrole : c.role? = some role) :
    ∀ t ∈ c.links, t.wanted.depth < role.depth := by
  cases c <;> cases hrole <;> simp [links, PoolRole.depth]

end Constant

-- ---------------------------------------------------------------------------
-- Chains
-- ---------------------------------------------------------------------------

namespace ConstantPool

/-- The constant at a stop, if it is one that is wanted there. -/
def found? (pool : ConstantPool) (s : Stop) : Option Constant :=
  match pool.slots[s.index.toNat]? with
  | some (some c) => if c.role? = some s.wanted then some c else none
  | _ => none

/-- There is a constant at a stop, and it is one that is wanted there. -/
def Met (pool : ConstantPool) (s : Stop) : Prop :=
  ∃ c, pool.Holds s.index c ∧ c.role? = some s.wanted

/-- The fault of a lookup that breaks off at a stop. -/
def faultAt (pool : ConstantPool) (s : Stop) : Fault :=
  match pool.slots[s.index.toNat]? with
  | some (some c) => .malformed (.wrongConstant s.index s.wanted c)
  | _ => .malformed (.noConstant s.index pool.size)

/-- The stops right behind a stop. -/
def next (pool : ConstantPool) (s : Stop) : List Stop := (pool.found? s).elim [] Constant.links

variable {pool : ConstantPool} {s t : Stop} {c : Constant}

/-- A stop finds the constant at its index if that has the role it wants. -/
theorem found?_eq_some : pool.found? s = some c ↔
    pool.Holds s.index c ∧ c.role? = some s.wanted := by
  unfold found? Holds
  rcases pool.slots[s.index.toNat]? with _ | _ | found
  · simp
  · simp
  · simp only [Option.ite_none_right_eq_some, Option.some.injEq]
    constructor
    · rintro ⟨hrole, rfl⟩
      exact ⟨rfl, hrole⟩
    · rintro ⟨rfl, hrole⟩
      exact ⟨hrole, rfl⟩

theorem next_eq (hfound : pool.found? s = some c) : pool.next s = c.links := by
  rw [next, hfound]
  rfl

/-- Every link leads to a role of less depth. -/
theorem depth_lt_of_mem_next (ht : t ∈ pool.next s) : t.wanted.depth < s.wanted.depth := by
  cases hfound : pool.found? s with
  | none =>
    rw [next, hfound] at ht
    cases ht
  | some c =>
    rw [next_eq hfound] at ht
    exact Constant.depth_lt_of_mem_links (found?_eq_some.mp hfound).2 t ht

/-- The stops of a chain in order: the first one, and then the chains behind it.
A chain goes on behind every stop that is met, also when another one is not. -/
def chain (pool : ConstantPool) (s : Stop) : List Stop :=
  s :: (pool.next s).attach.flatMap fun ⟨t, _⟩ => pool.chain t
termination_by s.wanted.depth
decreasing_by exact depth_lt_of_mem_next ‹_›

/-- A chain is its first stop and the chains of the next ones. -/
theorem chain_eq (pool : ConstantPool) (s : Stop) :
    pool.chain s = s :: (pool.next s).flatMap pool.chain := by
  rw [chain, List.flatMap_subtype (fun _ _ => rfl), List.unattach_attach]

/-- A chain goes on through a constant that is there in the role that is wanted. -/
theorem chain_of_holds (hholds : pool.Holds s.index c) (hrole : c.role? = some s.wanted) :
    pool.chain s = s :: c.links.flatMap pool.chain := by
  rw [chain_eq, next_eq (found?_eq_some.mpr ⟨hholds, hrole⟩)]

/-- A chain ends at a text. -/
theorem chain_utf8 (pool : ConstantPool) (i : UInt16) :
    pool.chain ⟨i, .utf8⟩ = [⟨i, .utf8⟩] := by
  have hnext : pool.next ⟨i, .utf8⟩ = [] := List.eq_nil_iff_forall_not_mem.mpr fun t ht =>
    Nat.not_lt_zero _ (depth_lt_of_mem_next ht)
  rw [chain_eq, hnext]
  rfl

/-- The first stop that is not met. -/
def firstBreak (pool : ConstantPool) (stops : List Stop) : Option Stop :=
  stops.find? fun s => (pool.found? s).isNone

theorem isNone_found? : (pool.found? s).isNone = true ↔ ¬ pool.Met s := by
  rw [Option.isNone_iff_eq_none, Option.eq_none_iff_forall_ne_some, Met, not_exists]
  exact forall_congr' fun c => not_congr found?_eq_some

/-- A chain has no break when all its stops are met. -/
theorem firstBreak_eq_none {stops : List Stop} :
    pool.firstBreak stops = none ↔ ∀ t ∈ stops, pool.Met t := by
  rw [firstBreak, List.find?_eq_none]
  simp only [isNone_found?, Classical.not_not]

/-- The first break of two chains is that of the first, if it has one. -/
theorem firstBreak_append (ss ts : List Stop) :
    pool.firstBreak (ss ++ ts) = (pool.firstBreak ss).or (pool.firstBreak ts) :=
  List.find?_append

-- ---------------------------------------------------------------------------
-- Outcomes
-- ---------------------------------------------------------------------------

section Outcomes

variable {α β : Type} {ss ts : List Stop}

/-- Stops decide an outcome: there is a value if all of them are met, and
otherwise the fault of the first one that is not. -/
def DecidedBy (pool : ConstantPool) (stops : List Stop) (outcome : Except Fault α) : Prop :=
  match pool.firstBreak stops with
  | none => ∃ a, outcome = .ok a
  | some broken => outcome = .error (pool.faultAt broken)

/-- What decides an outcome is the first break and nothing else. -/
theorem decidedBy_congr {outcome : Except Fault α} (h : pool.firstBreak ss = pool.firstBreak ts) :
    pool.DecidedBy ss outcome ↔ pool.DecidedBy ts outcome := by
  rw [DecidedBy, DecidedBy, h]

/-- A chain without a break decides for success. -/
theorem decidedBy_of_none {outcome : Except Fault α} (h : pool.firstBreak ss = none) :
    pool.DecidedBy ss outcome ↔ ∃ a, outcome = .ok a := by
  rw [DecidedBy, h]

/-- A chain that breaks decides for the fault of its first break. -/
theorem decidedBy_of_some {outcome : Except Fault α} (h : pool.firstBreak ss = some t) :
    pool.DecidedBy ss outcome ↔ outcome = .error (pool.faultAt t) := by
  rw [DecidedBy, h]

theorem DecidedBy.ok (a : α) : pool.DecidedBy [] (.ok a) := ⟨a, rfl⟩

/-- Two lookups one after the other are decided by their stops in that order. -/
theorem DecidedBy.bind {x : Except Fault α} {f : α → Except Fault β} (hx : pool.DecidedBy ss x)
    (hf : ∀ a, pool.DecidedBy ts (f a)) : pool.DecidedBy (ss ++ ts) (x >>= f) := by
  have happend : pool.firstBreak (ss ++ ts) = (pool.firstBreak ss).or (pool.firstBreak ts) :=
    firstBreak_append ss ts
  cases hbreak : pool.firstBreak ss with
  | none =>
    obtain ⟨a, rfl⟩ := (decidedBy_of_none hbreak).mp hx
    rw [hbreak, Option.none_or] at happend
    exact (decidedBy_congr happend).mpr (hf a)
  | some broken =>
    rw [hbreak, Option.some_or] at happend
    rw [decidedBy_of_some happend, (decidedBy_of_some hbreak).mp hx]
    rfl

/-- Behind a single link there is one chain. -/
theorem DecidedBy.link {x : Except Fault α} (hx : pool.DecidedBy (pool.chain t) x) :
    pool.DecidedBy ([t].flatMap pool.chain) x := by
  rwa [List.flatMap_singleton]

/-- At a stop that is not met there is no constant, or another one than is wanted. -/
theorem get_of_not_found (h : pool.found? s = none) :
    pool.get s.index = .error (pool.faultAt s) ∨
      ∃ c, pool.get s.index = .ok c ∧ c.role? ≠ some s.wanted ∧
        pool.faultAt s = wrong s.index s.wanted c := by
  unfold found? at h
  unfold get faultAt
  cases hslot : pool.slots[s.index.toNat]? with
  | none => exact .inl rfl
  | some slot =>
    cases slot with
    | none => exact .inl rfl
    | some c =>
      rw [hslot] at h
      exact .inr ⟨c, rfl, fun hrole => by simp [hrole] at h, rfl⟩

/-- A lookup that gets a constant, goes on behind its links if it is one that
is wanted, and refuses it otherwise. -/
theorem decidedBy_get {rest : Constant → Except Fault α}
    (hmet : ∀ c, c.role? = some s.wanted → pool.DecidedBy (c.links.flatMap pool.chain) (rest c))
    (hwrong : ∀ c, c.role? ≠ some s.wanted → rest c = .error (wrong s.index s.wanted c)) :
    pool.DecidedBy (pool.chain s) (pool.get s.index >>= rest) := by
  rw [chain_eq]
  -- either the first stop is met, and the rest decides, or it is the break
  cases hfound : pool.found? s with
  | some c =>
    obtain ⟨hholds, hrole⟩ := found?_eq_some.mp hfound
    have hskip : pool.firstBreak (s :: c.links.flatMap pool.chain) =
        pool.firstBreak (c.links.flatMap pool.chain) :=
      List.find?_cons_of_neg (by simp [hfound])
    rw [next_eq hfound, get_eq_ok.mpr hholds]
    exact (decidedBy_congr hskip).mpr (hmet c hrole)
  | none =>
    have hhere : pool.firstBreak (s :: (pool.next s).flatMap pool.chain) = some s :=
      List.find?_cons_of_pos (by simp [hfound])
    rw [decidedBy_of_some hhere]
    -- nothing valid is at the index, or a constant of another role
    rcases get_of_not_found hfound with hget | ⟨c, hget, hrole, hfault⟩
    · rw [hget]
      rfl
    · rw [hget, hfault]
      exact hwrong c hrole

end Outcomes

-- ---------------------------------------------------------------------------
-- Lookups
-- ---------------------------------------------------------------------------

section Lookups

variable (i : UInt16)

theorem decidedBy_utf8 : pool.DecidedBy (pool.chain ⟨i, .utf8⟩) (pool.utf8 i) := by
  refine decidedBy_get (fun c hc => ?_) fun c hc => ?_
  · cases c with
    | utf8 text => exact .ok text
    | _ => cases hc
  · split
    · exact absurd rfl hc
    · rfl

theorem decidedBy_className :
    pool.DecidedBy (pool.chain ⟨i, .classInfo⟩) (pool.className i) := by
  refine decidedBy_get (fun c hc => ?_) fun c hc => ?_
  · cases c with
    | classInfo name => exact (decidedBy_utf8 name).link
    | _ => cases hc
  · split
    · exact absurd rfl hc
    · rfl

theorem decidedBy_nameAndType :
    pool.DecidedBy (pool.chain ⟨i, .nameAndType⟩) (pool.nameAndType i) := by
  refine decidedBy_get (fun c hc => ?_) fun c hc => ?_
  · cases c with
    | nameAndType name descriptor =>
      exact (decidedBy_utf8 name).bind fun _ => (decidedBy_utf8 descriptor).bind fun _ => .ok _
    | _ => cases hc
  · split
    · exact absurd rfl hc
    · rfl

theorem decidedBy_memberRef :
    pool.DecidedBy (pool.chain ⟨i, .memberRef⟩) (pool.memberRef i) := by
  refine decidedBy_get (fun c hc => ?_) fun c hc => ?_
  · cases c with
    | memberRef kind owner signature =>
      exact (decidedBy_className owner).bind fun _ =>
        (decidedBy_nameAndType signature).bind fun _ => .ok _
    | _ => cases hc
  · split
    · exact absurd rfl hc
    · rfl

theorem decidedBy_methodHandle :
    pool.DecidedBy (pool.chain ⟨i, .methodHandle⟩) (pool.methodHandle i) := by
  refine decidedBy_get (fun c hc => ?_) fun c hc => ?_
  · cases c with
    | methodHandle kind member => exact (decidedBy_memberRef member).bind fun _ => .ok _
    | _ => cases hc
  · split
    · exact absurd rfl hc
    · rfl

theorem decidedBy_methodType :
    pool.DecidedBy (pool.chain ⟨i, .methodType⟩) (pool.methodType i) := by
  refine decidedBy_get (fun c hc => ?_) fun c hc => ?_
  · cases c with
    | methodType descriptor => exact (decidedBy_utf8 descriptor).link
    | _ => cases hc
  · split
    · exact absurd rfl hc
    · rfl

theorem decidedBy_callSite :
    pool.DecidedBy (pool.chain ⟨i, .invokeDynamic⟩) (pool.callSite i) := by
  refine decidedBy_get (fun c hc => ?_) fun c hc => ?_
  · cases c with
    | invokeDynamic bootstrap signature =>
      exact (decidedBy_nameAndType signature).bind fun _ => .ok _
    | _ => cases hc
  · split
    · exact absurd rfl hc
    · rfl

end Lookups

-- ---------------------------------------------------------------------------
-- What lookups come to
-- ---------------------------------------------------------------------------

/-- A lookup follows the chain of a stop to what the index stands for. -/
structure FollowsChain {α : Type} (pool : ConstantPool) (s : Stop) (outcome : Except Fault α)
    (Names : α → Prop) : Prop where
  /-- It yields what the index stands for. -/
  yields : ∀ a, outcome = .ok a ↔ Names a
  /-- It yields something exactly if all stops are met. -/
  succeeds : (∃ a, outcome = .ok a) ↔ ∀ t ∈ pool.chain s, pool.Met t
  /-- It fails for the first stop that is not met, and in no other way. -/
  fails : ∀ f, outcome = .error f ↔
    ∃ t, pool.firstBreak (pool.chain s) = some t ∧ f = pool.faultAt t

/-- A lookup that a chain decides follows that chain. -/
theorem DecidedBy.follows {α : Type} {outcome : Except Fault α} {Names : α → Prop}
    (h : pool.DecidedBy (pool.chain s) outcome) (hyields : ∀ a, outcome = .ok a ↔ Names a) :
    pool.FollowsChain s outcome Names where
  yields := hyields
  succeeds := by
    rw [← firstBreak_eq_none]
    cases hbreak : pool.firstBreak (pool.chain s) with
    | none => exact iff_of_true ((decidedBy_of_none hbreak).mp h) rfl
    | some t => simp [(decidedBy_of_some hbreak).mp h]
  fails f := by
    cases hbreak : pool.firstBreak (pool.chain s) with
    | none =>
      obtain ⟨a, rfl⟩ := (decidedBy_of_none hbreak).mp h
      simp
    | some t => simp [(decidedBy_of_some hbreak).mp h, eq_comm]

/-- The stops of a member reference, as far as its class and its signature are
found: itself, its class with the name, and its signature with name and descriptor. -/
theorem chain_memberRef {i j k l m n : UInt16} {kind : MemberKind}
    (hi : pool.Holds i (.memberRef kind j k)) (hj : pool.Holds j (.classInfo l))
    (hk : pool.Holds k (.nameAndType m n)) :
    pool.chain ⟨i, .memberRef⟩ =
      [⟨i, .memberRef⟩, ⟨j, .classInfo⟩, ⟨l, .utf8⟩, ⟨k, .nameAndType⟩, ⟨m, .utf8⟩,
        ⟨n, .utf8⟩] := by
  have howner : pool.chain ⟨j, .classInfo⟩ = [⟨j, .classInfo⟩, ⟨l, .utf8⟩] := by
    rw [chain_of_holds hj rfl]
    simp [Constant.links, chain_utf8]
  have hsignature : pool.chain ⟨k, .nameAndType⟩ =
      [⟨k, .nameAndType⟩, ⟨m, .utf8⟩, ⟨n, .utf8⟩] := by
    rw [chain_of_holds hk rfl]
    simp [Constant.links, chain_utf8]
  rw [chain_of_holds hi rfl]
  simp [Constant.links, howner, hsignature]

/-- Whatever a pool holds, each lookup at each index follows the chain that
starts there, and a member reference has its stops in this order: itself, the class, its
name, the signature, the name and the descriptor. -/
theorem lookups_follow_chains (pool : ConstantPool) (i : UInt16) :
    pool.FollowsChain ⟨i, .classInfo⟩ (pool.className i) (pool.NamesClass i) ∧
    pool.FollowsChain ⟨i, .nameAndType⟩ (pool.nameAndType i)
      (fun (name, descriptor) => pool.NamesSignature i name descriptor) ∧
    pool.FollowsChain ⟨i, .memberRef⟩ (pool.memberRef i) (pool.NamesMember i) ∧
    pool.FollowsChain ⟨i, .methodHandle⟩ (pool.methodHandle i) (pool.NamesHandle i) ∧
    pool.FollowsChain ⟨i, .methodType⟩ (pool.methodType i) (pool.NamesMethodType i) ∧
    pool.FollowsChain ⟨i, .invokeDynamic⟩ (pool.callSite i) (pool.NamesCallSite i) ∧
    ∀ (kind : MemberKind) (j k l m n : UInt16), pool.Holds i (.memberRef kind j k) →
      pool.Holds j (.classInfo l) → pool.Holds k (.nameAndType m n) →
      pool.chain ⟨i, .memberRef⟩ =
        [⟨i, .memberRef⟩, ⟨j, .classInfo⟩, ⟨l, .utf8⟩, ⟨k, .nameAndType⟩, ⟨m, .utf8⟩,
          ⟨n, .utf8⟩] :=
  ⟨(decidedBy_className i).follows fun _ => className_eq_ok,
    (decidedBy_nameAndType i).follows fun _ => nameAndType_eq_ok,
    (decidedBy_memberRef i).follows fun _ => memberRef_eq_ok,
    (decidedBy_methodHandle i).follows fun _ => methodHandle_eq_ok,
    (decidedBy_methodType i).follows fun _ => methodType_eq_ok,
    (decidedBy_callSite i).follows fun _ => callSite_eq_ok,
    fun _ _ _ _ _ _ => chain_memberRef⟩

/-- A method reference whose class names itself, and whose signature has a number for a
descriptor: of the two the class comes first. -/
theorem lookups_follow_chains_selfNamed :
    let pool : ConstantPool :=
      ⟨#[none, some (.memberRef .method 2 3), some (.classInfo 2), some (.nameAndType 4 5),
        some (.utf8 "m"), some (.long 42), none]⟩
    pool.Holds 1 (.memberRef .method 2 3) ∧ pool.Holds 2 (.classInfo 2) ∧
      pool.Holds 3 (.nameAndType 4 5) ∧
      pool.memberRef 1 = .error (.malformed (.wrongConstant 2 .utf8 (.classInfo 2))) := by
  intro pool
  obtain ⟨-, -, hmember, -, -, -, hchain⟩ := lookups_follow_chains pool 1
  have hstops := hchain .method 2 3 2 4 5 rfl rfl rfl
  have hbreak : pool.firstBreak (pool.chain ⟨1, .memberRef⟩) = some ⟨2, .utf8⟩ := by
    rw [hstops]
    rfl
  exact ⟨rfl, rfl, rfl, (hmember.fails _).mpr ⟨_, hbreak, rfl⟩⟩

end ConstantPool

end Backref
