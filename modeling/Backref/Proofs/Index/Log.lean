import Backref.Proofs.Discovery.Search
import Backref.Proofs.Index.Filing
import Mathlib.Data.Finset.Card

/-!
# The log behind an index

Whatever callers do to an index, it holds what was reported to it and nothing
else. The *log* of a run is the sequence of pairs of a key and a user that the
run reports, whether by hand or by reading class files, and including what was
found in a class before a fault. An index is read in three ways (the users
under a key, the number of filings, the number of keys), and each of them is a
function of the log and of the namespaces that the index keeps.

Main results:

* `Index.Records.add` — adding one pair extends the log by that pair;
* `Index.mem_users_performAll` — the users under a key after a run;
* `Index.records_performAll` — a run from the empty index records its log, and
  reading a class file a second time repeats its outcome and its count but
  leaves the table alone.
-/

namespace Backref

namespace Index

/-- What a caller does to an index. -/
inductive Call
  /-- Files a user under a key. -/
  | add (key user : String)
  /-- Files the references in a class file. -/
  | ingest (bytes : Bytes)

/-- The index after a call. -/
def perform (i : Index) : Call → Index
  | .add key user => i.add key user
  | .ingest bytes => (i.ingest bytes).1

/-- The index after calls in order. -/
def performAll (i : Index) (calls : List Call) : Index := calls.foldl perform i

/-- What a call reports to an index that follows lambda expressions, or does not. -/
def Call.reports (lambdas : Bool) : Call → List Report
  | add key user => [(key, user)]
  | ingest bytes => (Findings.ofBytes lambdas bytes).reports

/-- What calls report, in order. -/
def log (lambdas : Bool) (calls : List Call) : List Report := calls.flatMap (Call.reports lambdas)

/-- The index after pairs have been added in order. -/
def addAll (i : Index) (log : List Report) : Index := log.foldl (fun i r => i.add r.1 r.2) i

/-- Whether an index keeps a pair. -/
def keeps (i : Index) (r : Report) : Bool := i.config.namespaces.accepts r.1

/-- An index holds what a log reports, as far as it keeps it. -/
structure Records (i : Index) (log : List Report) : Prop where
  mem_users : ∀ k u, u ∈ i.users k ↔ i.config.namespaces.accepts k = true ∧ (k, u) ∈ log
  count : i.count = log.countP i.keeps
  keyCount : i.keyCount = ((log.filter i.keeps).map Prod.fst).toFinset.card
  nonempty : ∀ k, i.users? k ≠ some ∅

-- ---------------------------------------------------------------------------
-- One pair
-- ---------------------------------------------------------------------------

@[simp] theorem config_add (i : Index) (key user : String) :
    (i.add key user).config = i.config := by
  unfold add
  split
  · rfl
  · rfl

theorem records_empty (config : IndexConfig) : (empty config).Records [] where
  mem_users k u := by simp [users, UsageTable.users, empty]
  count := rfl
  keyCount := by simp [keyCount, empty]
  nonempty k := by simp [users?, empty]

/-- The keys of an index are the kept keys of its log. -/
theorem Records.mem_table {i : Index} {log : List Report} (h : i.Records log) (k : String) :
    k ∈ i.table ↔ k ∈ (log.filter i.keeps).map Prod.fst := by
  constructor
  · intro hk
    obtain ⟨s, hs⟩ := Option.isSome_iff_exists.mp (Std.ExtTreeMap.mem_iff_isSome_getElem?.mp hk)
    -- the set under a key is never empty, so some pair of the log put the key there
    have hne : s ≠ ∅ := fun he => h.nonempty k (by rw [users?, hs, he])
    obtain ⟨u, hu⟩ := UsageTable.exists_mem_of_ne_empty hne
    rw [← UsageTable.users_of_getElem? hs] at hu
    obtain ⟨haccepts, hlog⟩ := (h.mem_users k u).mp hu
    exact List.mem_map.mpr ⟨(k, u), List.mem_filter.mpr ⟨hlog, haccepts⟩, rfl⟩
  · intro hk
    obtain ⟨⟨k', u⟩, hr, rfl⟩ := List.mem_map.mp hk
    obtain ⟨hlog, haccepts⟩ := List.mem_filter.mp hr
    exact UsageTable.mem_of_mem_users ((h.mem_users k' u).mpr ⟨haccepts, hlog⟩)

/-- An index with as many keys as its table has, whose keys are those of a
list, has as many keys as the list has different ones. -/
theorem keyCount_eq_card {i : Index} {keys : List String} (h : ∀ k, k ∈ i.table ↔ k ∈ keys) :
    i.keyCount = keys.toFinset.card := by
  have hkeys : i.table.keys.toFinset = keys.toFinset := by
    ext k
    rw [List.mem_toFinset, List.mem_toFinset, Std.ExtTreeMap.mem_keys, h]
  rw [keyCount, ← Std.ExtTreeMap.length_keys, ← hkeys,
    List.toFinset_card_of_nodup Std.ExtTreeMap.nodup_keys]

/-- Adding a usage does not change which pairs are kept. -/
theorem keeps_add (i : Index) (key user : String) : (i.add key user).keeps = i.keeps := by
  funext r
  rw [keeps, keeps, config_add]

/-- A pair that is accepted is recorded. -/
theorem Records.add_of_accepts {i : Index} {log : List Report} (h : i.Records log) {key : String}
    (user : String) (haccepts : i.config.namespaces.accepts key = true) :
    (i.add key user).Records (log ++ [(key, user)]) := by
  have hkeeps : i.keeps (key, user) = true := haccepts
  have htable : (i.add key user).table = i.table.file key user := by
    rw [Index.add_of_accepts user haccepts]
  -- the sets, the count, the number of keys, and no empty set
  refine ⟨?_, ?_, ?_, ?_⟩
  · intro k u
    rw [config_add, Index.users, htable, UsageTable.mem_users_file, ← Index.users, h.mem_users,
      List.mem_append, List.mem_singleton, Prod.mk.injEq]
    constructor
    · rintro (⟨rfl, rfl⟩ | ⟨hk, hlog⟩)
      · exact ⟨haccepts, Or.inr ⟨rfl, rfl⟩⟩
      · exact ⟨hk, Or.inl hlog⟩
    · rintro ⟨hk, hlog | ⟨rfl, rfl⟩⟩
      · exact Or.inr ⟨hk, hlog⟩
      · exact Or.inl ⟨rfl, rfl⟩
  · -- the pair is counted, whether it was there before or not
    rw [keeps_add, List.countP_append, ← h.count, Index.add_of_accepts user haccepts]
    simp [hkeeps]
  · apply keyCount_eq_card
    intro k
    rw [htable, UsageTable.mem_file, h.mem_table, keeps_add, List.filter_append, List.map_append,
      List.mem_append, List.filter_cons_of_pos hkeeps, List.filter_nil, List.map_singleton,
      List.mem_singleton, or_comm, @eq_comm _ k key]
  · intro k
    rw [users?, htable]
    exact UsageTable.Inhabited.file h.nonempty key user k

/-- A pair that is not accepted makes no difference to what is recorded. -/
theorem Records.add_of_not_accepts {i : Index} {log : List Report} (h : i.Records log)
    {key : String} (user : String) (haccepts : ¬ i.config.namespaces.accepts key = true) :
    (i.add key user).Records (log ++ [(key, user)]) := by
  have hkeeps : ¬ i.keeps (key, user) = true := haccepts
  rw [Index.add_of_not_accepts user haccepts]
  -- nothing changes, and the log has one more pair that is not kept
  refine ⟨?_, ?_, ?_, h.nonempty⟩
  · intro k u
    rw [h.mem_users, List.mem_append, List.mem_singleton, Prod.mk.injEq]
    constructor
    · intro ⟨hk, hlog⟩
      exact ⟨hk, Or.inl hlog⟩
    · rintro ⟨hk, hlog | ⟨rfl, -⟩⟩
      · exact ⟨hk, hlog⟩
      · exact absurd hk haccepts
  · rw [List.countP_append, ← h.count]
    simp [hkeeps]
  · rw [h.keyCount, List.filter_append]
    simp [hkeeps]

/-- Adding one pair extends the log by that pair. -/
theorem Records.add {i : Index} {log : List Report} (h : i.Records log) (key user : String) :
    (i.add key user).Records (log ++ [(key, user)]) := by
  by_cases haccepts : i.config.namespaces.accepts key = true
  · exact h.add_of_accepts user haccepts
  · exact h.add_of_not_accepts user haccepts

-- ---------------------------------------------------------------------------
-- Runs
-- ---------------------------------------------------------------------------

@[simp] theorem config_addAll (i : Index) (log : List Report) :
    (i.addAll log).config = i.config := by
  induction log generalizing i with
  | nil => rfl
  | cons r log ih =>
    rw [addAll, List.foldl_cons, ← addAll, ih, config_add]

/-- Pairs that are added one by one are recorded in order. -/
theorem Records.addAll {i : Index} {log : List Report} (h : i.Records log) (more : List Report) :
    (i.addAll more).Records (log ++ more) := by
  induction more generalizing i log with
  | nil => simpa [Index.addAll] using h
  | cons r more ih =>
    have hstep := ih (h.add r.1 r.2)
    rw [List.append_assoc] at hstep
    exact hstep

/-- Reading a class file adds what its search reports. -/
theorem fst_ingest (i : Index) (bytes : Bytes) :
    (i.ingest bytes).1 = i.addAll (Findings.ofBytes i.config.lambdas bytes).reports := by
  rw [ingest, addFindings, addAll, Findings.reports, List.foldl_map, ← Array.foldl_toList]
  rfl

/-- A call adds what it reports. -/
theorem perform_eq_addAll (i : Index) (c : Call) :
    i.perform c = i.addAll (c.reports i.config.lambdas) := by
  cases c with
  | add key user => rfl
  | ingest bytes => exact fst_ingest i bytes

theorem addAll_append (i : Index) (log more : List Report) :
    i.addAll (log ++ more) = (i.addAll log).addAll more := List.foldl_append

/-- A run adds its log. -/
theorem performAll_eq_addAll (i : Index) (calls : List Call) :
    i.performAll calls = i.addAll (log i.config.lambdas calls) := by
  induction calls generalizing i with
  | nil => rfl
  | cons c calls ih =>
    rw [performAll, List.foldl_cons, ← performAll, ih, perform_eq_addAll, config_addAll, log, log,
      List.flatMap_cons, addAll_append]

/-- The users under a key after a run are those that its log has under it. -/
theorem mem_users_performAll {config : IndexConfig} {calls : List Call} {k u : String} :
    u ∈ ((empty config).performAll calls).users k ↔
      config.namespaces.accepts k = true ∧ (k, u) ∈ log config.lambdas calls := by
  have hrecords := (records_empty config).addAll (log config.lambdas calls)
  have hmem := hrecords.mem_users k u
  rw [performAll_eq_addAll]
  rwa [config_addAll, List.nil_append] at hmem

-- ---------------------------------------------------------------------------
-- Reading a class file again
-- ---------------------------------------------------------------------------

/-- Pairs that an index holds already are counted but change no set. -/
theorem table_addAll_of_mem {i : Index} (log : List Report)
    (h : ∀ r ∈ log, i.keeps r = true → r.2 ∈ i.users r.1) : (i.addAll log).table = i.table := by
  induction log generalizing i with
  | nil => rfl
  | cons r log ih =>
    have htable : (i.add r.1 r.2).table = i.table := by
      by_cases haccepts : i.config.namespaces.accepts r.1 = true
      · rw [add_of_accepts r.2 haccepts]
        exact UsageTable.file_of_mem (h r List.mem_cons_self haccepts)
      · rw [add_of_not_accepts r.2 haccepts]
    rw [addAll, List.foldl_cons, ← addAll, ih, htable]
    intro r' hr' hkeeps
    rw [users, htable]
    rw [keeps, config_add] at hkeeps
    exact h r' (List.mem_cons_of_mem r hr') hkeeps

/-- Adding usages counts those that are kept, with multiplicity. -/
theorem count_addAll (i : Index) (log : List Report) :
    (i.addAll log).count = i.count + log.countP i.keeps := by
  induction log generalizing i with
  | nil => rfl
  | cons r log ih =>
    rw [addAll, List.foldl_cons, ← addAll, ih, keeps_add, List.countP_cons]
    by_cases haccepts : i.keeps r = true
    · rw [add_of_accepts r.2 haccepts, if_pos haccepts]
      show i.count + 1 + _ = _
      omega
    · rw [add_of_not_accepts r.2 haccepts, if_neg haccepts]
      omega

/-- A run from the empty index records its log. A class file that is read
again, at any later point of the run, has the outcome that it had before and
adds as much to the count, but leaves every set as it is. -/
theorem records_performAll (config : IndexConfig) (calls : List Call) :
    ((empty config).performAll calls).config = config ∧
    ((empty config).performAll calls).Records (log config.lambdas calls) ∧
    ∀ before bytes after,
      let first := (empty config).performAll before
      let later := (empty config).performAll (before ++ .ingest bytes :: after)
      (later.ingest bytes).1.table = later.table ∧
      (later.ingest bytes).2 = (first.ingest bytes).2 ∧
      (later.ingest bytes).1.count + first.count = later.count + (first.ingest bytes).1.count := by
  -- a run of calls adds the pairs of its log
  have hrecords : ∀ calls,
      ((empty config).performAll calls).Records (log config.lambdas calls) := by
    intro calls
    rw [performAll_eq_addAll]
    exact (records_empty config).addAll _
  have hconfig : ∀ calls, ((empty config).performAll calls).config = config := by
    intro calls
    rw [performAll_eq_addAll, config_addAll]
    rfl
  refine ⟨hconfig calls, hrecords calls, ?_⟩
  intro before bytes after
  have hfirst := hconfig before
  have hlater := hconfig (before ++ .ingest bytes :: after)
  have hlog := hrecords (before ++ .ingest bytes :: after)
  set first := (empty config).performAll before
  set later := (empty config).performAll (before ++ .ingest bytes :: after)
  refine ⟨?_, ?_, ?_⟩
  · -- every pair that the class reports is in the log already
    rw [fst_ingest]
    apply table_addAll_of_mem
    intro r hr hkeeps
    refine (hlog.mem_users r.1 r.2).mpr ⟨hkeeps, ?_⟩
    rw [hlater] at hr
    rw [log, List.flatMap_append, List.flatMap_cons]
    exact List.mem_append_right _ (List.mem_append_left _ hr)
  · rw [ingest, ingest, hfirst, hlater]
  · have hkeeps : later.keeps = first.keeps := by
      funext r
      rw [keeps, keeps, hfirst, hlater]
    rw [fst_ingest, fst_ingest, count_addAll, count_addAll, hkeeps, hfirst, hlater]
    omega

end Index

end Backref
