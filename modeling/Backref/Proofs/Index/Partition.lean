import Backref.Proofs.Index.Grouping

/-!
# Groups as a partition

The groups of a set of usage strings split what is read of the set: each string
that is read as a symbol lies in one group, that of the class of the symbol. No
group is empty, so there is one such splitting only. This is why it makes no
difference in which order the strings of a set are visited, nor in which order
they came into it.

Main results:

* `UsageTable.Splits.unique` — a set is split in one way only;
* `Index.splits_foldl_groupOne` — grouping strings in any order splits their set;
* `Index.partition_usersByClass` — the groups of an index, after any run.
-/

namespace Backref

-- ---------------------------------------------------------------------------
-- Splittings
-- ---------------------------------------------------------------------------

namespace UsageTable

/-- Where every key has a user, tables with the same users are equal. -/
theorem Inhabited.ext {t t' : UsageTable} (h : t.Inhabited) (h' : t'.Inhabited)
    (husers : ∀ k, t.users k = t'.users k) : t = t' := by
  apply Std.ExtTreeMap.ext_getElem?
  intro k
  apply Option.ext
  intro s
  rw [h.getElem?_eq_some, h'.getElem?_eq_some, husers]

/-- Groups of usage strings, by classes, that split what is read of a set. -/
structure Splits (groups : UsageTable) (us : UsageSet) : Prop where
  /-- No group is empty. -/
  inhabited : groups.Inhabited
  disjoint : ∀ g h u, g ≠ h → u ∈ groups.users g → u ∉ groups.users h
  union : ∀ u, (∃ g, u ∈ groups.users g) ↔ u ∈ us ∧ ∃ s, Symbol.parse u = .ok s
  /-- A string lies in the group of the class that it is read with. -/
  home : ∀ u ∈ us, ∀ s, Symbol.parse u = .ok s → u ∈ groups.users s.ownerClass

namespace Splits

variable {groups groups' : UsageTable} {us : UsageSet}

/-- What a group has: the home of a string is the only group that it is in. -/
theorem mem_users_iff (h : groups.Splits us) {g u : String} :
    u ∈ groups.users g ↔ u ∈ us ∧ ∃ s, Symbol.parse u = .ok s ∧ s.ownerClass = g := by
  constructor
  · intro hu
    obtain ⟨huser, s, hs⟩ := (h.union u).mp ⟨g, hu⟩
    have hhome := h.home u huser s hs
    refine ⟨huser, s, hs, Classical.byContradiction fun hne => ?_⟩
    exact h.disjoint _ _ u hne hhome hu
  · rintro ⟨huser, s, hs, rfl⟩
    exact h.home u huser s hs

/-- A set is split in one way only. -/
theorem unique (h : groups.Splits us) (h' : groups'.Splits us) : groups = groups' := by
  refine h.inhabited.ext h'.inhabited fun g => ?_
  apply Std.ExtTreeSet.ext_mem
  intro u
  rw [h.mem_users_iff, h'.mem_users_iff]

end Splits

end UsageTable

-- ---------------------------------------------------------------------------
-- The groups of an index
-- ---------------------------------------------------------------------------

namespace Index

/-- Grouping the strings of a set splits it, in whatever order they are visited. -/
theorem splits_foldl_groupOne {usages : List String} {us : UsageSet}
    (h : ∀ u, u ∈ usages ↔ u ∈ us) : UsageTable.Splits (usages.foldl groupOne ∅) us := by
  -- a usage is in the group of the class that it is read to
  have hmem : ∀ u g, u ∈ UsageTable.users (usages.foldl groupOne ∅) g ↔
      u ∈ us ∧ ∃ s, Symbol.parse u = .ok s ∧ s.ownerClass = g := by
    intro u g
    rw [mem_users_foldl_groupOne, h]
    simp [UsageTable.users]
  refine ⟨inhabited_foldl_groupOne UsageTable.inhabited_empty, ?_, ?_, ?_⟩
  · -- a string is read as one symbol, which has one class
    intro g g' u hne hu hu'
    obtain ⟨-, s, hs, rfl⟩ := (hmem u g).mp hu
    obtain ⟨-, t, ht, rfl⟩ := (hmem u g').mp hu'
    rw [hs] at ht
    cases ht
    exact hne rfl
  · intro u
    constructor
    · rintro ⟨g, hg⟩
      obtain ⟨hu, s, hs, -⟩ := (hmem u g).mp hg
      exact ⟨hu, s, hs⟩
    · rintro ⟨hu, s, hs⟩
      exact ⟨s.ownerClass, (hmem u _).mpr ⟨hu, s, hs, rfl⟩⟩
  · intro u hu s hs
    exact (hmem u _).mpr ⟨hu, s, hs, rfl⟩

/-- The groups under a key after any run. They split what is read of the users
under the key. Visiting these users in another order, or some of them twice, comes
to the same groups, and so does every run that reports the same users under the
key, in whatever order. -/
theorem partition_usersByClass (config : IndexConfig) (calls : List Call) (k : String) :
    let i := (empty config).performAll calls
    (i.usersByClass k).Splits (i.users k) ∧
    (∀ usages : List String, (∀ u, u ∈ usages ↔ u ∈ i.users k) →
      usages.foldl groupOne ∅ = i.usersByClass k) ∧
    ∀ others, (∀ u, (k, u) ∈ log config.lambdas others ↔ (k, u) ∈ log config.lambdas calls) →
      ((empty config).performAll others).usersByClass k = i.usersByClass k := by
  intro i
  have hsplits : ∀ j : Index, (j.usersByClass k).Splits (j.users k) :=
    fun j => splits_foldl_groupOne fun u => Std.ExtTreeSet.mem_toList
  -- a partition into these groups is unique, so no order can make another
  refine ⟨hsplits i, ?_, ?_⟩
  · intro usages husages
    exact (splits_foldl_groupOne husages).unique (hsplits i)
  · intro others hothers
    have husers : ((empty config).performAll others).users k = i.users k := by
      apply Std.ExtTreeSet.ext_mem
      intro u
      rw [mem_users_performAll, mem_users_performAll, hothers]
    have hsame := hsplits ((empty config).performAll others)
    rw [husers] at hsame
    exact hsame.unique (hsplits i)

/-- Calls that report four users of the class `A`, one of them by a text that is
read as no symbol. -/
def sampleCalls : List Call :=
  [.add "s:A" "m:B:m:()V", .add "s:A" "text", .add "s:A" "f:C:x:LA;", .add "s:A" "f:B:x:LA;"]

/-- The users that the calls report, in another order and one of them twice. -/
def sampleUsers : List String := ["text", "f:B:x:LA;", "f:C:x:LA;", "m:B:m:()V", "text"]

/-- The sample has a group of the class `B` with two users and one of `C` with
the third, and the same groups if its calls are made in reverse. -/
theorem partition_sampleCalls :
    (∀ u, ("s:A", u) ∈ log true sampleCalls.reverse ↔ ("s:A", u) ∈ log true sampleCalls) ∧
    let i := (empty ⟨.unfiltered, true⟩).performAll sampleCalls
    (∀ u, u ∈ sampleUsers ↔ u ∈ i.users "s:A") ∧
    sampleUsers.foldl groupOne ∅ = i.usersByClass "s:A" ∧
    ((empty ⟨.unfiltered, true⟩).performAll sampleCalls.reverse).usersByClass "s:A" =
      i.usersByClass "s:A" ∧
    "m:B:m:()V" ∈ (i.usersByClass "s:A").users "B" ∧
    "f:B:x:LA;" ∈ (i.usersByClass "s:A").users "B" ∧
    "f:C:x:LA;" ∈ (i.usersByClass "s:A").users "C" ∧
    ∀ g, "text" ∉ (i.usersByClass "s:A").users g := by
  have hlog : ∀ u, ("s:A", u) ∈ log true sampleCalls.reverse ↔
      ("s:A", u) ∈ log true sampleCalls := by simp [log]
  obtain ⟨hsplits, hvisits, hothers⟩ :=
    partition_usersByClass ⟨.unfiltered, true⟩ sampleCalls "s:A"
  have husers : ∀ u, u ∈ sampleUsers ↔
      u ∈ ((empty ⟨.unfiltered, true⟩).performAll sampleCalls).users "s:A" := by
    intro u
    rw [mem_users_performAll, and_iff_right (accepts_unfiltered _)]
    grind [log, sampleCalls, Call.reports, sampleUsers]
  have hunread : ∀ s, Symbol.parse "text" ≠ .ok s := by
    intro s hs
    cases hs
  -- three usages are at home in two classes, and the text is in none
  refine ⟨hlog, husers, hvisits _ husers, hothers _ hlog, ?_, ?_, ?_, ?_⟩
  · exact hsplits.home _ ((husers _).mp (by decide)) (.method ⟨"B", "m", "()V"⟩) rfl
  · exact hsplits.home _ ((husers _).mp (by decide)) (.field ⟨"B", "x", "LA;"⟩) rfl
  · exact hsplits.home _ ((husers _).mp (by decide)) (.field ⟨"C", "x", "LA;"⟩) rfl
  · intro g hg
    obtain ⟨-, s, hs⟩ := (hsplits.union "text").mp ⟨g, hg⟩
    exact hunread s hs

end Index

end Backref
