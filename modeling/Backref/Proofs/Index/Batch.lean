import Backref.Proofs.Index.Interleaving

/-!
# A batch and its report

A *batch* is a shared index with a worker for each class that is to be read
into it. When a worker has filed what it found, it counts its class as done,
announces the number that it got, and hands in its position with the fault of
its class. Between any two of these steps other workers may take theirs, so
numbers need not be announced in order, nor results handed in by position.

Every state that a batch can come to is compared with the end: what will have
been handed in and what will have been announced is, but for its order, the
same before and after every step.

Main results:

* `BatchReport.ofCompletions_perm` — a report does not depend on the order of
  the results, when they have different positions;
* `Batch.complete_or_advances`, `Batch.left_advance` — no schedule gets stuck
  and none goes on for ever;
* `Batch.results_advance`, `Batch.announcements_advance` — what a step keeps;
* `Batch.report_of_every_schedule` — the report of a complete batch is that of
  reading its classes one after the other.
-/

namespace Backref

-- Sums are those of the core library, whatever hierarchy of algebra is in scope.
attribute [local instance (high)] Zero.ofOfNat0

-- ---------------------------------------------------------------------------
-- Reports
-- ---------------------------------------------------------------------------

namespace BatchReport

/-- The fault of a result with its position, if there is one. -/
theorem mem_failures {completions : List (Nat × Option Fault)} {p : Nat} {fault : Fault} :
    (p, fault) ∈ (ofCompletions completions).failures ↔ (p, some fault) ∈ completions := by
  rw [ofCompletions, List.mem_mergeSort, List.mem_filterMap]
  constructor
  · rintro ⟨⟨q, outcome⟩, hmem, hfault⟩
    obtain ⟨f, rfl, hpair⟩ := Option.map_eq_some_iff.mp hfault
    cases hpair
    exact hmem
  · exact fun h => ⟨_, h, rfl⟩

/-- A result counts as indexed or as a failure. -/
theorem total_ofCompletions (completions : List (Nat × Option Fault)) :
    (ofCompletions completions).indexed + (ofCompletions completions).failures.length =
      completions.length := by
  rw [ofCompletions, List.length_mergeSort]
  exact Nat.sub_add_cancel (List.length_filterMap_le ..)

/-- Failures stand in order. -/
theorem failures_ordered (completions : List (Nat × Option Fault)) :
    (ofCompletions completions).failures.Pairwise fun a b => a.1 ≤ b.1 := by
  refine (List.pairwise_mergeSort ?_ ?_ _).imp of_decide_eq_true
  · intro a b c hab hbc
    exact decide_eq_true (Nat.le_trans (of_decide_eq_true hab) (of_decide_eq_true hbc))
  · intro a b
    simpa using Nat.le_total a.1 b.1

/-- No two failures have one position, when no two results have. -/
theorem failures_increasing {completions : List (Nat × Option Fault)}
    (h : (completions.map Prod.fst).Nodup) :
    (ofCompletions completions).failures.Pairwise fun a b => a.1 < b.1 := by
  have hapart : (ofCompletions completions).failures.Pairwise fun a b => a.1 ≠ b.1 := by
    rw [ofCompletions, (List.mergeSort_perm _ _).pairwise_iff (fun hne => hne.symm),
      List.pairwise_filterMap]
    refine (List.pairwise_map.mp h).imp ?_
    rintro ⟨p, outcome⟩ ⟨q, outcome'⟩ hne a ha b hb
    obtain ⟨f, -, rfl⟩ := Option.map_eq_some_iff.mp ha
    obtain ⟨g, -, rfl⟩ := Option.map_eq_some_iff.mp hb
    exact hne
  exact (failures_ordered completions).imp₂ (fun _ _ hle hne => by omega) hapart

/-- A report does not depend on the order in which results come in. -/
theorem ofCompletions_perm {completions completions' : List (Nat × Option Fault)}
    (hperm : completions.Perm completions') (h : (completions.map Prod.fst).Nodup) :
    ofCompletions completions = ofCompletions completions' := by
  have hfailures : (ofCompletions completions).failures =
      (ofCompletions completions').failures := by
    -- two sorted lists of the same failures are equal
    refine List.Perm.eq_of_pairwise ?_ (failures_increasing h)
      (failures_increasing ((hperm.map _).nodup_iff.mp h)) ?_
    · intro a b _ _ hab hba
      omega
    · exact (List.mergeSort_perm _ _).trans
        ((hperm.filterMap _).trans (List.mergeSort_perm _ _).symm)
  have htotal := total_ofCompletions completions
  have htotal' := total_ofCompletions completions'
  rw [hperm.length_eq, ← htotal', hfailures] at htotal
  have hindexed := Nat.add_right_cancel htotal
  cases hr : ofCompletions completions with
  | mk indexed failures =>
    cases hr' : ofCompletions completions' with
    | mk indexed' failures' => simp_all

end BatchReport

namespace SharedIndex

/-- A batch read one class after the other has a result for each position. -/
theorem results_ingestAll (s : SharedIndex) (batch : List Bytes) :
    (s.ingestAll batch).2 =
      batch.zipIdx.map fun (bytes, position) =>
        (position, (Findings.ofBytes s.config.lambdas bytes).fault) := by
  rw [ingestAll, List.zipIdx_map, List.map_map]
  rfl

/-- Every file of a batch is handed in at a position of its own. -/
theorem positions_ingestAll (s : SharedIndex) (batch : List Bytes) :
    ((s.ingestAll batch).2.map Prod.fst).Nodup := by
  rw [results_ingestAll, List.map_map]
  show (batch.zipIdx.map Prod.snd).Nodup
  rw [List.zipIdx_map_snd]
  exact List.nodup_range'

/-- The result of a position is that of the class there. -/
theorem mem_results_ingestAll {s : SharedIndex} {batch : List Bytes} {p : Nat}
    {outcome : Option Fault} :
    (p, outcome) ∈ (s.ingestAll batch).2 ↔
      ∃ bytes, batch[p]? = some bytes ∧
        (Findings.ofBytes s.config.lambdas bytes).fault = outcome := by
  rw [results_ingestAll, List.mem_map]
  constructor
  · rintro ⟨⟨bytes, q⟩, hmem, hpair⟩
    cases hpair
    exact ⟨bytes, List.mk_mem_zipIdx_iff_getElem?.mp hmem, rfl⟩
  · rintro ⟨bytes, hbytes, rfl⟩
    exact ⟨(bytes, p), List.mk_mem_zipIdx_iff_getElem?.mpr hbytes, rfl⟩

end SharedIndex

-- ---------------------------------------------------------------------------
-- Batches
-- ---------------------------------------------------------------------------

/-- How far a worker has come with its class. -/
inductive Batch.Stage
  /-- It files what the search of its class found. -/
  | filing (steps : List SharedIndex.Step)
  /-- Its class is counted as done, and it has to announce the number it got. -/
  | announcing (done : Nat)
  /-- It has to hand in its result. -/
  | handingIn
  | idle

/-- The worker of one class of a batch. -/
structure Batch.Worker where
  position : Nat
  bytes : Bytes
  stage : Batch.Stage

/-- A shared index, the workers that read a batch into it, and what they have
announced and handed in so far. -/
structure Batch where
  size : Nat
  index : SharedIndex
  /-- How many classes are counted as done. -/
  done : Nat
  /-- What has been announced: how many are done out of how many. -/
  calls : List (Nat × Nat)
  completions : List (Nat × Option Fault)
  workers : List Batch.Worker

namespace Batch

/-- What a worker hands in: its position and the fault of its class. -/
def Worker.result (config : IndexConfig) (position : Nat) (bytes : Bytes) : Nat × Option Fault :=
  (position, (Findings.ofBytes config.lambdas bytes).fault)

/-- A batch before any worker has taken a step. -/
def start (s : SharedIndex) (batch : List Bytes) : Batch :=
  { size := batch.length
    index := s
    done := 0
    calls := []
    completions := []
    workers := batch.zipIdx.map fun (bytes, position) =>
      ⟨position, bytes, .filing (SharedIndex.worker s.config bytes)⟩ }

/-- One worker, no matter which, takes its next step. Counting a class as done
and getting its number are one step; announcing the number is another. -/
inductive Advances : Batch → Batch → Prop
  | file {size : Nat} {index : SharedIndex} {done : Nat} {calls : List (Nat × Nat)}
      {completions : List (Nat × Option Fault)} {p : Nat} {bytes : Bytes}
      (before after : List Worker) (step : SharedIndex.Step) (rest : List SharedIndex.Step) :
      Advances
        ⟨size, index, done, calls, completions,
          before ++ ⟨p, bytes, .filing (step :: rest)⟩ :: after⟩
        ⟨size, index.step step, done, calls, completions,
          before ++ ⟨p, bytes, .filing rest⟩ :: after⟩
  | count {size : Nat} {index : SharedIndex} {done : Nat} {calls : List (Nat × Nat)}
      {completions : List (Nat × Option Fault)} {p : Nat} {bytes : Bytes}
      (before after : List Worker) :
      Advances
        ⟨size, index, done, calls, completions, before ++ ⟨p, bytes, .filing []⟩ :: after⟩
        ⟨size, index, done + 1, calls, completions,
          before ++ ⟨p, bytes, .announcing (done + 1)⟩ :: after⟩
  | announce {size : Nat} {index : SharedIndex} {done : Nat} {calls : List (Nat × Nat)}
      {completions : List (Nat × Option Fault)} {p : Nat} {bytes : Bytes}
      (before after : List Worker) (number : Nat) :
      Advances
        ⟨size, index, done, calls, completions, before ++ ⟨p, bytes, .announcing number⟩ :: after⟩
        ⟨size, index, done, calls ++ [(number, size)], completions,
          before ++ ⟨p, bytes, .handingIn⟩ :: after⟩
  | handIn {size : Nat} {index : SharedIndex} {done : Nat} {calls : List (Nat × Nat)}
      {completions : List (Nat × Option Fault)} {p : Nat} {bytes : Bytes}
      (before after : List Worker) :
      Advances
        ⟨size, index, done, calls, completions, before ++ ⟨p, bytes, .handingIn⟩ :: after⟩
        ⟨size, index, done, calls, completions ++ [Worker.result index.config p bytes],
          before ++ ⟨p, bytes, .idle⟩ :: after⟩

/-- What a batch may come to. -/
def Reaches : Batch → Batch → Prop := Relation.ReflTransGen Advances

/-- Every worker has handed in its result. -/
def Complete (b : Batch) : Prop := ∀ w ∈ b.workers, w.stage = .idle

-- ---------------------------------------------------------------------------
-- Every schedule comes to an end
-- ---------------------------------------------------------------------------

/-- How many steps a worker has still to take. -/
def Stage.left : Stage → Nat
  | .filing steps => steps.length + 3
  | .announcing _ => 2
  | .handingIn => 1
  | .idle => 0

/-- How many steps are left. -/
def left (b : Batch) : Nat := (b.workers.map fun w => w.stage.left).sum

/-- Every step leaves less to do. -/
theorem left_advance {b c : Batch} (h : b.Advances c) : c.left < b.left := by
  cases h <;> simp [left, Stage.left]

/-- As long as a worker is not idle, some worker can take a step. -/
theorem complete_or_advances (b : Batch) : b.Complete ∨ ∃ c, b.Advances c := by
  by_cases hcomplete : b.Complete
  · exact Or.inl hcomplete
  · right
    obtain ⟨⟨p, bytes, stage⟩, hmem, hbusy⟩ : ∃ w ∈ b.workers, w.stage ≠ .idle := by
      simpa [Complete] using hcomplete
    obtain ⟨before, after, hworkers⟩ := List.append_of_mem hmem
    obtain ⟨size, index, done, calls, completions, workers⟩ := b
    cases hworkers
    rcases stage with (_ | ⟨step, rest⟩) | number | _ | _
    · exact ⟨_, .count before after⟩
    · exact ⟨_, .file before after step rest⟩
    · exact ⟨_, .announce before after number⟩
    · exact ⟨_, .handIn before after⟩
    · exact absurd rfl hbusy

-- ---------------------------------------------------------------------------
-- The end that every schedule comes to
-- ---------------------------------------------------------------------------

/-- The result that a worker has still to hand in. -/
def Worker.pending (config : IndexConfig) (w : Worker) : List (Nat × Option Fault) :=
  match w.stage with
  | .idle => []
  | _ => [result config w.position w.bytes]

/-- The results that will have been handed in. -/
def results (b : Batch) : List (Nat × Option Fault) :=
  b.completions ++ b.workers.flatMap fun w => w.pending b.index.config

/-- The number that a worker has got and has still to announce. -/
def Stage.number : Stage → List Nat
  | .announcing done => [done]
  | _ => []

/-- Whether the class of a worker is not yet counted as done. -/
def Stage.uncounted : Stage → Bool
  | .filing _ => true
  | _ => false

/-- The numbers still to be announced: those that workers will get, which go
on from the count, and those that they have got. -/
def numbers (b : Batch) : List Nat :=
  List.range' (b.done + 1) (b.workers.countP fun w => w.stage.uncounted) ++
    b.workers.flatMap fun w => w.stage.number

/-- What will have been announced. -/
def announcements (b : Batch) : List (Nat × Nat) :=
  b.calls ++ b.numbers.map fun done => (done, b.size)

/-- Handing in moves a result from those that are pending, and no other step
touches one. -/
theorem results_advance {b c : Batch} (h : b.Advances c) : c.results.Perm b.results := by
  cases h with
  | file before after step rest =>
    simp only [results, SharedIndex.config_step, List.flatMap_append, List.flatMap_cons]
    exact .refl _
  | count before after =>
    simp only [results, List.flatMap_append, List.flatMap_cons]
    exact .refl _
  | announce before after number =>
    simp only [results, List.flatMap_append, List.flatMap_cons]
    exact .refl _
  | handIn before after =>
    simp only [results, List.flatMap_append, List.flatMap_cons, Worker.pending, List.nil_append,
      List.append_assoc, List.cons_append]
    exact List.Perm.append_left _ List.perm_middle.symm

/-- The number that a worker gets is the first of those still to be given out. -/
theorem numbers_count (b : Batch) (before after : List Worker) (p : Nat) (bytes : Bytes) :
    let waiting := before ++ ⟨p, bytes, .filing []⟩ :: after
    let counted := before ++ ⟨p, bytes, .announcing (b.done + 1)⟩ :: after
    ({ b with done := b.done + 1, workers := counted } : Batch).numbers.Perm
      ({ b with workers := waiting } : Batch).numbers := by
  intro waiting counted
  have hfewer : (waiting.countP fun w => w.stage.uncounted) =
      (counted.countP fun w => w.stage.uncounted) + 1 := by
    simp [waiting, counted, Stage.uncounted]
    omega
  simp only [numbers, hfewer, List.range'_succ]
  simp only [waiting, counted, List.flatMap_append, List.flatMap_cons, Stage.number,
    List.nil_append, List.cons_append, ← List.append_assoc]
  exact List.perm_middle

/-- Announcing a number takes it from those still to be announced. -/
theorem numbers_announce (b : Batch) (before after : List Worker) (p : Nat) (bytes : Bytes)
    (number : Nat) :
    let waiting := before ++ ⟨p, bytes, .announcing number⟩ :: after
    let announced := before ++ ⟨p, bytes, .handingIn⟩ :: after
    ({ b with workers := waiting } : Batch).numbers.Perm
      (number :: ({ b with workers := announced } : Batch).numbers) := by
  intro waiting announced
  have hsame : (waiting.countP fun w => w.stage.uncounted) =
      announced.countP fun w => w.stage.uncounted := by
    simp [waiting, announced, Stage.uncounted]
  simp only [numbers, hsame]
  simp only [waiting, announced, List.flatMap_append, List.flatMap_cons, Stage.number,
    List.nil_append, List.cons_append, ← List.append_assoc]
  exact List.perm_middle

/-- A step announces a number or gives one out, and leaves the others alone. -/
theorem announcements_advance {b c : Batch} (h : b.Advances c) :
    c.announcements.Perm b.announcements := by
  -- counting settles a number, announcing passes it on; the other steps touch neither
  cases h with
  | @file size index done calls completions p bytes before after step rest =>
    simp only [announcements, numbers, List.flatMap_append, List.flatMap_cons,
      List.countP_append, List.countP_cons]
    exact .refl _
  | @count size index done calls completions p bytes before after =>
    have hnumbers := numbers_count ⟨size, index, done, calls, completions, []⟩ before after p bytes
    exact (hnumbers.map _).append_left _
  | @announce size index done calls completions p bytes before after number =>
    have hnumbers :=
      numbers_announce ⟨size, index, done, calls, completions, []⟩ before after p bytes number
    simp only [announcements, List.append_assoc]
    exact (hnumbers.map fun k => (k, size)).symm.append_left _
  | handIn before after =>
    simp only [announcements, numbers, List.flatMap_append, List.flatMap_cons,
      List.countP_append, List.countP_cons]
    exact .refl _

/-- Whatever the schedule, the results and the announcements will be those of
the start. -/
theorem end_reaches {b c : Batch} (h : b.Reaches c) :
    c.results.Perm b.results ∧ c.announcements.Perm b.announcements := by
  induction h with
  | refl => exact ⟨.refl _, .refl _⟩
  | tail _ hstep ih =>
    exact ⟨(results_advance hstep).trans ih.1, (announcements_advance hstep).trans ih.2⟩

/-- What a batch hands in is what reading it one class after the other does. -/
theorem results_start (s : SharedIndex) (batch : List Bytes) :
    (start s batch).results = (s.ingestAll batch).2 := by
  rw [SharedIndex.results_ingestAll, List.map_eq_flatMap]
  exact List.flatMap_map ..

/-- A batch that starts has every number still to announce. -/
theorem announcements_start (s : SharedIndex) (batch : List Bytes) :
    (start s batch).announcements =
      (List.range batch.length).map fun k => (k + 1, batch.length) := by
  have hwaiting : ((start s batch).workers.countP fun w => w.stage.uncounted) = batch.length := by
    simp [start, Function.comp_def, Stage.uncounted]
  have hnone : (start s batch).workers.flatMap (fun w => w.stage.number) = [] :=
    List.flatMap_eq_nil_iff.mpr fun w hw => by
      obtain ⟨_, -, rfl⟩ := List.mem_map.mp hw
      rfl
  rw [announcements, numbers, hwaiting, hnone, List.append_nil, List.range'_eq_map_range,
    List.map_map]
  simp [start, Function.comp_def, Nat.add_comm]

/-- A batch that is complete has handed in all its results. -/
theorem results_complete {b : Batch} (h : b.Complete) : b.results = b.completions := by
  have hnone : (b.workers.flatMap fun w => w.pending b.index.config) = [] :=
    List.flatMap_eq_nil_iff.mpr fun w hw => by rw [Worker.pending, h w hw]
  rw [results, hnone, List.append_nil]

/-- A batch that is complete has made all its calls. -/
theorem announcements_complete {b : Batch} (h : b.Complete) : b.announcements = b.calls := by
  have hcounted : (b.workers.countP fun w => w.stage.uncounted) = 0 :=
    List.countP_eq_zero.mpr fun w hw => by
      rw [h w hw]
      decide
  have hnone : (b.workers.flatMap fun w => w.stage.number) = [] :=
    List.flatMap_eq_nil_iff.mpr fun w hw => by rw [h w hw]; rfl
  rw [announcements, numbers, hcounted, hnone]
  exact List.append_nil _

/-- Whatever the schedule, a batch does not get stuck, every step brings it
closer to its end, and at its end the report is that of reading the classes one
after the other: it names the classes that fail alone, by increasing position
and with their faults, and counts all others as indexed. Each number of classes
that are done has been announced once. -/
theorem report_of_every_schedule (s : SharedIndex) (batch : List Bytes) (b : Batch)
    (hreaches : (start s batch).Reaches b) :
    (b.Complete ∨ ∃ c, b.Advances c) ∧ (∀ c, b.Advances c → c.left < b.left) ∧
      (b.Complete →
        let report := BatchReport.ofCompletions b.completions
        report = BatchReport.ofCompletions (s.ingestAll batch).2 ∧
          report.failures.Pairwise (fun x y => x.1 < y.1) ∧
          (∀ p fault, (p, fault) ∈ report.failures ↔
            ∃ bytes, batch[p]? = some bytes ∧
              ((Index.empty s.config).ingest bytes).2 = some fault) ∧
          report.indexed + report.failures.length = batch.length ∧
          b.calls.Perm ((List.range batch.length).map fun k => (k + 1, batch.length))) := by
  refine ⟨complete_or_advances b, fun c => left_advance, ?_⟩
  intro hcomplete report
  obtain ⟨hresults, hcalls⟩ := end_reaches hreaches
  rw [results_complete hcomplete, results_start] at hresults
  rw [announcements_complete hcomplete, announcements_start] at hcalls
  have hpositions := (hresults.map Prod.fst).nodup_iff.mpr (SharedIndex.positions_ingestAll s batch)
  -- the completions are those of a sequential run in another order
  have hsame := BatchReport.ofCompletions_perm hresults hpositions
  refine ⟨hsame, BatchReport.failures_increasing hpositions, ?_, ?_, hcalls⟩
  · intro p fault
    rw [BatchReport.mem_failures, hresults.mem_iff]
    exact SharedIndex.mem_results_ingestAll
  · rw [BatchReport.total_ofCompletions, hresults.length_eq, SharedIndex.results_ingestAll,
      List.length_map, List.length_zipIdx]

/-- The second of two classes is no class file. Its worker is counted first,
and is the last to announce and to hand in. -/
theorem report_of_late_failure :
    let s := SharedIndex.empty { namespaces := .unfiltered }
    let sound : Bytes :=
      [0xCA, 0xFE, 0xBA, 0xBE, 0, 0, 0, 52, 0, 5, 1, 0, 1, 65, 7, 0, 1, 1, 0, 1, 102,
        1, 0, 3, 76, 66, 59, 0, 1, 0, 2, 0, 0, 0, 0, 0, 1, 0, 1, 0, 3, 0, 4, 0, 0, 0, 0, 0, 0]
    let cut : Bytes := [0xCA, 0xFE]
    let b : Batch :=
      { size := 2
        index := s.run [.file "s:B" "f:A:f:LB;", .tick]
        done := 2
        calls := [(2, 2), (1, 2)]
        completions := [(1, some .outOfBounds), (0, none)]
        workers := [⟨0, sound, .idle⟩, ⟨1, cut, .idle⟩] }
    (start s [sound, cut]).Reaches b ∧ b.Complete ∧
      BatchReport.ofCompletions b.completions = ⟨1, [(1, .outOfBounds)]⟩ ∧
      b.calls.Perm [(1, 2), (2, 2)] := by
  intro s sound cut b
  have hsound : SharedIndex.worker s.config sound = [.file "s:B" "f:A:f:LB;", .tick] := by
    decide +kernel
  have hcut : SharedIndex.worker s.config cut = [] := by decide +kernel
  have hstart : start s [sound, cut] =
      ⟨2, s, 0, [], [],
        [⟨0, sound, .filing [.file "s:B" "f:A:f:LB;", .tick]⟩, ⟨1, cut, .filing []⟩]⟩ := by
    rw [← hsound, ← hcut]
    rfl
  have hend : { b with
      completions := [Worker.result s.config 1 cut, Worker.result s.config 0 sound] } = b := by
    have hresults : [Worker.result s.config 1 cut, Worker.result s.config 0 sound] =
        [(1, some .outOfBounds), (0, none)] := by decide +kernel
    rw [hresults]
  have hreaches : (start s [sound, cut]).Reaches b := by
    rw [hstart, ← hend]
    -- the file that is cut counts first, but the other one announces its number before it
    refine .head (.count [_] []) (.head (.file [] [_] _ _) (.head (.file [] [_] _ _) ?_))
    refine .head (.count [] [_]) (.head (.announce [] [_] 2) (.head (.announce [_] [] 1) ?_))
    exact .head (.handIn [_] []) (.single (.handIn [] [_]))
  have hcomplete : b.Complete := by simp [Complete, b]
  have hreport := (report_of_every_schedule s _ b hreaches).2.2 hcomplete
  exact ⟨hreaches, hcomplete, by decide +kernel, hreport.2.2.2.2⟩

end Batch

end Backref
