import Backref.Index.Shared

/-!
# Filing

What filing one user does to a table of users, seen through the two questions
that a table answers: which users are under a key, and which keys there are.
Filing forgets the order in which users came, so two filings commute; since
tables with the same contents are equal, so do whole runs of them.

Main results:

* `UsageTable.mem_users_file`, `UsageTable.mem_file` — the two questions after
  a filing;
* `UsageTable.file_comm` — the order of two filings does not matter.
-/

namespace Backref

namespace UsageTable

-- ---------------------------------------------------------------------------
-- One filing
-- ---------------------------------------------------------------------------

/-- Filing a usage changes the set under its key and no other. -/
theorem getElem?_file (t : UsageTable) (key user k : String) :
    (t.file key user)[k]? = if key = k then some ((t.users key).insert user) else t[k]? := by
  rw [file, Std.ExtTreeMap.getElem?_alter]
  by_cases h : key = k
  · subst h
    simp [users]
  · simp [h]

theorem users_file (t : UsageTable) (key user k : String) :
    (t.file key user).users k = if key = k then (t.users key).insert user else t.users k := by
  rw [users, getElem?_file]
  split
  · rfl
  · rfl

/-- A user is under a key if it has just been filed there or was there before. -/
theorem mem_users_file {t : UsageTable} {key user k u : String} :
    u ∈ (t.file key user).users k ↔ (key = k ∧ user = u) ∨ u ∈ t.users k := by
  rw [users_file]
  by_cases h : key = k
  · subst h
    simp [Std.ExtTreeSet.mem_insert]
  · simp [h]

/-- The keys are those that users have been filed under. -/
theorem mem_file {t : UsageTable} {key user k : String} :
    k ∈ t.file key user ↔ key = k ∨ k ∈ t := by
  rw [file, Std.ExtTreeMap.mem_alter]
  by_cases h : key = k
  · simp [h]
  · simp [h]

theorem exists_mem_of_ne_empty {s : UsageSet} (h : s ≠ ∅) : ∃ u, u ∈ s :=
  Classical.byContradiction fun hnone =>
    h (Std.ExtTreeSet.eq_empty_iff_forall_not_mem.mpr fun u hu => hnone ⟨u, hu⟩)

/-- There is a user under every key. -/
def Inhabited (t : UsageTable) : Prop := ∀ k : String, t[k]? ≠ some ∅

/-- A table without keys has no empty set. -/
theorem inhabited_empty : Inhabited ∅ := by
  intro k
  simp

/-- Filing a user leaves no key without one. -/
theorem Inhabited.file {t : UsageTable} (h : t.Inhabited) (key user : String) :
    (t.file key user).Inhabited := by
  intro k
  rw [getElem?_file]
  split
  · intro hempty
    have hu : user ∈ (t.users key).insert user := Std.ExtTreeSet.mem_insert_self
    rw [Option.some.inj hempty] at hu
    exact Std.ExtTreeSet.not_mem_empty hu
  · exact h k

/-- The users of a key are the set that is stored there. -/
theorem users_of_getElem? {t : UsageTable} {k : String} {s : UsageSet} (h : t[k]? = some s) :
    t.users k = s := by
  rw [users, h]
  rfl

/-- Where every key has a user, a key that has been filed is one with users. -/
theorem Inhabited.getElem?_eq_some {t : UsageTable} (h : t.Inhabited) {k : String} {s : UsageSet} :
    t[k]? = some s ↔ s ≠ ∅ ∧ t.users k = s := by
  constructor
  · intro hs
    exact ⟨fun hempty => h k (hempty ▸ hs), users_of_getElem? hs⟩
  · rintro ⟨hne, rfl⟩
    unfold users at hne ⊢
    cases hk : t[k]? with
    | none => exact absurd (by rw [hk]; rfl) hne
    | some s => rfl

/-- A user that has been filed is under its key. -/
theorem mem_of_mem_users {t : UsageTable} {k u : String} (h : u ∈ t.users k) : k ∈ t := by
  rw [Std.ExtTreeMap.mem_iff_isSome_getElem?]
  cases hk : t[k]? with
  | some s => rfl
  | none =>
    rw [users, hk] at h
    exact absurd h Std.ExtTreeSet.not_mem_empty

-- ---------------------------------------------------------------------------
-- Two filings
-- ---------------------------------------------------------------------------

theorem insert_comm (s : UsageSet) (u v : String) :
    (s.insert u).insert v = (s.insert v).insert u := by
  apply Std.ExtTreeSet.ext_mem
  intro w
  rw [Std.ExtTreeSet.mem_insert, Std.ExtTreeSet.mem_insert, Std.ExtTreeSet.mem_insert,
    Std.ExtTreeSet.mem_insert]
  exact or_left_comm

theorem insert_of_mem {s : UsageSet} {u : String} (h : u ∈ s) : s.insert u = s := by
  apply Std.ExtTreeSet.ext_mem
  intro w
  rw [Std.ExtTreeSet.mem_insert]
  constructor
  · rintro (hw | hw)
    · rw [← Std.LawfulEqCmp.eq_of_compare hw]
      exact h
    · exact hw
  · exact Or.inr

/-- The order of two filings does not matter. -/
theorem file_comm (t : UsageTable) (key user key' user' : String) :
    (t.file key user).file key' user' = (t.file key' user').file key user := by
  apply Std.ExtTreeMap.ext_getElem?
  intro k
  rw [getElem?_file, getElem?_file, getElem?_file, getElem?_file, users_file, users_file]
  by_cases h : key = key'
  · subst h
    by_cases hk : key = k
    · simp [hk, insert_comm]
    · simp [hk]
  · by_cases hk : key = k
    · subst hk
      simp [Ne.symm h]
    · simp [hk, h]

/-- Filing a user under a key where it already is changes nothing. -/
theorem file_of_mem {t : UsageTable} {key user : String} (h : user ∈ t.users key) :
    t.file key user = t := by
  apply Std.ExtTreeMap.ext_getElem?
  intro k
  rw [getElem?_file]
  by_cases hk : key = k
  · subst hk
    rw [insert_of_mem h, if_pos rfl]
    obtain ⟨s, hs⟩ := Option.isSome_iff_exists.mp
      (Std.ExtTreeMap.mem_iff_isSome_getElem?.mp (mem_of_mem_users h))
    rw [hs, users_of_getElem? hs]
  · rw [if_neg hk]

end UsageTable

-- ---------------------------------------------------------------------------
-- Adding to an index
-- ---------------------------------------------------------------------------

namespace Index

/-- A key that is accepted is filed and counted. -/
theorem add_of_accepts {i : Index} {key : String} (user : String)
    (h : i.config.namespaces.accepts key = true) :
    i.add key user = { i with table := i.table.file key user, count := i.count + 1 } := if_pos h

/-- A key that is not accepted leaves the index as it is. -/
theorem add_of_not_accepts {i : Index} {key : String} (user : String)
    (h : ¬ i.config.namespaces.accepts key = true) : i.add key user = i := if_neg h

end Index

end Backref
