import Backref.Proofs.Index.Filing
import Mathlib.Data.List.Perm.Basic
import Mathlib.Logic.Relation

/-!
# Many workers

A *crew* is a shared index together with the steps that each of its workers
has still to take. It advances by the next step of any one worker, so a run of
the crew is one of the orders in which the workers' steps may come.

The steps commute, whatever index they meet, so what a crew will leave does
not depend on which worker advances: running all that is left to do, in any
order, is the *outcome* of the crew, and no step changes it. Steps only add,
so on the way every set is part of what it is in the outcome.

Main results:

* `Crew.outcome_advance` — no step changes the outcome;
* `Crew.reaches_sequential` — a crew that has nothing left to do has built the
  index of a sequential run in any order, and never held more than that.
-/

namespace Backref

-- ---------------------------------------------------------------------------
-- Steps
-- ---------------------------------------------------------------------------

namespace SharedIndex

/-- Two steps can be taken in either order. -/
theorem step_comm (s : SharedIndex) (a b : Step) : (s.step a).step b = (s.step b).step a := by
  cases a with
  | file key user =>
    cases b with
    | file key' user' =>
      show SharedIndex.mk _ ((s.table.file key user).file key' user') _ = _
      rw [UsageTable.file_comm]
      rfl
    | tick => rfl
  | tick =>
    cases b with
    | file key' user' => rfl
    | tick => rfl

/-- Only which steps are taken matters, and how often. -/
theorem run_perm {steps steps' : List Step} (h : steps.Perm steps') (s : SharedIndex) :
    s.run steps = s.run steps' :=
  h.foldl_eq' (fun _ _ _ _ _ => step_comm _ _ _) s

theorem run_append (s : SharedIndex) (steps more : List Step) :
    s.run (steps ++ more) = (s.run steps).run more := List.foldl_append

@[simp] theorem config_step (s : SharedIndex) (a : Step) : (s.step a).config = s.config := by
  cases a with
  | file key user => rfl
  | tick => rfl

@[simp] theorem config_run (s : SharedIndex) (steps : List Step) :
    (s.run steps).config = s.config := by
  induction steps generalizing s with
  | nil => rfl
  | cons a steps ih => rw [run, List.foldl_cons, ← run, ih, config_step]

/-- A step takes no user away. -/
theorem mem_users_step {s : SharedIndex} {k u : String} (a : Step) (h : u ∈ s.users k) :
    u ∈ (s.step a).users k := by
  cases a with
  | file key user => exact UsageTable.mem_users_file.mpr (Or.inr h)
  | tick => exact h

/-- What is filed stays filed. -/
theorem mem_users_run {s : SharedIndex} {k u : String} (steps : List Step) (h : u ∈ s.users k) :
    u ∈ (s.run steps).users k := by
  induction steps generalizing s with
  | nil => exact h
  | cons a steps ih => exact ih (mem_users_step a h)

-- ---------------------------------------------------------------------------
-- The sequential index
-- ---------------------------------------------------------------------------

/-- The two steps that file a pair do what adding it does. -/
theorem toIndex_run_stepsOf (s : SharedIndex) (key user : String) :
    (s.run (stepsOf s.config key user)).toIndex = s.toIndex.add key user := by
  by_cases h : s.config.namespaces.accepts key = true
  · rw [stepsOf, if_pos h, Index.add_of_accepts user h]
    rfl
  · rw [stepsOf, if_neg h, Index.add_of_not_accepts user h]
    rfl

/-- A worker's steps, taken at once, read its class into the index. -/
theorem toIndex_run_workerSteps (s : SharedIndex) (bytes : Bytes) :
    (s.run (workerSteps s.config (Findings.ofBytes s.config.lambdas bytes))).toIndex =
      (s.toIndex.ingest bytes).1 := by
  rw [Index.ingest, Index.addFindings, workerSteps, ← Array.foldl_toList]
  show _ = (Findings.ofBytes s.config.lambdas bytes).references.toList.foldl
    Index.addReference s.toIndex
  generalize (Findings.ofBytes s.config.lambdas bytes).references.toList = refs
  -- the configuration is what decides the steps, and no step changes it
  suffices h : ∀ t : SharedIndex, t.config = s.config →
      (t.run (refs.flatMap fun r => stepsOf s.config r.target.usage r.user.usage)).toIndex =
        refs.foldl Index.addReference t.toIndex from h s rfl
  induction refs with
  | nil => exact fun _ _ => rfl
  | cons r refs ih =>
    intro t ht
    rw [List.flatMap_cons, run_append, ih _ (by rw [config_run, ht]), List.foldl_cons, ← ht,
      toIndex_run_stepsOf]
    rfl

/-- The steps of the worker that reads a class file. -/
def worker (config : IndexConfig) (bytes : Bytes) : List Step :=
  workerSteps config (Findings.ofBytes config.lambdas bytes)

/-- The workers of a batch, one after the other, read its classes in order. -/
theorem toIndex_run_workers (s : SharedIndex) (batch : List Bytes) :
    (s.run (batch.map (worker s.config)).flatten).toIndex =
      batch.foldl (fun i bytes => (i.ingest bytes).1) s.toIndex := by
  induction batch generalizing s with
  | nil => rfl
  | cons bytes batch ih =>
    have hrest := ih (s.run (worker s.config bytes))
    rw [config_run] at hrest
    rw [List.map_cons, List.flatten_cons, run_append, hrest, worker, toIndex_run_workerSteps,
      List.foldl_cons]

end SharedIndex

-- ---------------------------------------------------------------------------
-- Crews
-- ---------------------------------------------------------------------------

/-- A shared index, and what each worker has still to do. -/
structure Crew where
  index : SharedIndex
  todo : List (List SharedIndex.Step)

namespace Crew

/-- The crew that is to read the classes of a batch, a worker for each class. -/
def ofBatch (s : SharedIndex) (batch : List Bytes) : Crew :=
  ⟨s, batch.map (SharedIndex.worker s.config)⟩

/-- One worker, no matter which, takes its next step. -/
inductive Advances : Crew → Crew → Prop
  | step (index : SharedIndex) (before after : List (List SharedIndex.Step))
      (next : SharedIndex.Step) (rest : List SharedIndex.Step) :
      Advances ⟨index, before ++ (next :: rest) :: after⟩
        ⟨index.step next, before ++ rest :: after⟩

/-- What a crew may come to. -/
def Reaches : Crew → Crew → Prop := Relation.ReflTransGen Advances

/-- No worker has anything left to do. -/
def Idle (c : Crew) : Prop := ∀ steps ∈ c.todo, steps = []

/-- The index after all that is left to do. -/
def outcome (c : Crew) : SharedIndex := c.index.run c.todo.flatten

/-- No step changes the outcome. -/
theorem outcome_advance {c d : Crew} (h : c.Advances d) : d.outcome = c.outcome := by
  cases h with
  | step index before after next rest =>
    have hperm : (before ++ (next :: rest) :: after).flatten.Perm
        (next :: (before ++ rest :: after).flatten) := by
      simp only [List.flatten_append, List.flatten_cons, List.cons_append]
      exact List.perm_middle
    exact (SharedIndex.run_perm hperm index).symm

/-- However far the workers have got, the outcome is the same. -/
theorem outcome_reaches {c d : Crew} (h : c.Reaches d) : d.outcome = c.outcome := by
  induction h with
  | refl => rfl
  | tail _ hstep ih => exact (outcome_advance hstep).trans ih

/-- The outcome is there when nothing is left to do. -/
theorem outcome_idle {c : Crew} (h : c.Idle) : c.outcome = c.index := by
  rw [outcome, List.flatten_eq_nil_iff.mpr h]
  rfl

/-- Batches that differ in their order alone have the same outcome. -/
theorem outcome_ofBatch (s : SharedIndex) {batch order : List Bytes} (h : order.Perm batch) :
    (ofBatch s batch).outcome.toIndex =
      order.foldl (fun i bytes => (i.ingest bytes).1) s.toIndex := by
  rw [← SharedIndex.toIndex_run_workers]
  exact congrArg SharedIndex.toIndex (SharedIndex.run_perm (h.symm.map _).flatten s)

/-- Whatever the schedule, a crew never holds a user that reading the classes
one after the other would not file, and when no worker has anything left to do
the index is that of reading them one after the other, in any order. -/
theorem reaches_sequential (s : SharedIndex) (batch order : List Bytes) (c : Crew)
    (horder : order.Perm batch) (hreaches : (ofBatch s batch).Reaches c) :
    let sequential := order.foldl (fun i bytes => (i.ingest bytes).1) s.toIndex
    (∀ k u, u ∈ c.index.users k → u ∈ sequential.users k) ∧
      (c.Idle → c.index.toIndex = sequential) := by
  have houtcome : c.outcome.toIndex =
      order.foldl (fun i bytes => (i.ingest bytes).1) s.toIndex := by
    rw [outcome_reaches hreaches, outcome_ofBatch s horder]
  refine ⟨?_, ?_⟩
  · intro k u hu
    rw [← houtcome]
    exact SharedIndex.mem_users_run c.todo.flatten hu
  · intro hidle
    rw [← houtcome, outcome_idle hidle]

/-- Two workers file under one key, the second of them for a class whose second
field has no type; the second one files before the first one has counted. -/
theorem reaches_sequential_two_workers :
    let s := SharedIndex.empty { namespaces := .unfiltered }
    let sound : Bytes :=
      [0xCA, 0xFE, 0xBA, 0xBE, 0, 0, 0, 52, 0, 5, 1, 0, 1, 65, 7, 0, 1, 1, 0, 1, 102,
        1, 0, 3, 76, 66, 59, 0, 1, 0, 2, 0, 0, 0, 0, 0, 1, 0, 1, 0, 3, 0, 4, 0, 0, 0, 0, 0, 0]
    let damaged : Bytes :=
      [0xCA, 0xFE, 0xBA, 0xBE, 0, 0, 0, 52, 0, 4, 1, 0, 1, 65, 7, 0, 1, 1, 0, 3, 76, 66, 59,
        0, 1, 0, 2, 0, 0, 0, 0, 0, 2, 0, 1, 0, 1, 0, 3, 0, 0, 0, 1, 0, 1, 0, 1, 0, 0, 0, 0, 0, 0]
    let c : Crew :=
      ⟨s.run [.file "s:B" "f:A:f:LB;", .file "s:B" "f:A:A:LB;", .tick, .tick], [[], []]⟩
    [damaged, sound].Perm [sound, damaged] ∧ (ofBatch s [sound, damaged]).Reaches c ∧ c.Idle ∧
      c.index.toIndex = [damaged, sound].foldl (fun i bytes => (i.ingest bytes).1) s.toIndex := by
  intro s sound damaged c
  have hsound : SharedIndex.worker s.config sound = [.file "s:B" "f:A:f:LB;", .tick] := by
    decide +kernel
  have hdamaged : SharedIndex.worker s.config damaged = [.file "s:B" "f:A:A:LB;", .tick] := by
    decide +kernel
  have hreaches : (ofBatch s [sound, damaged]).Reaches c := by
    rw [ofBatch, List.map_cons, List.map_cons, hsound, hdamaged]
    -- the workers take turns: both file before either of them counts
    have first := Advances.step s [] [[.file "s:B" "f:A:A:LB;", .tick]]
      (.file "s:B" "f:A:f:LB;") [.tick]
    have second := Advances.step (s.run [.file "s:B" "f:A:f:LB;"]) [[.tick]] []
      (.file "s:B" "f:A:A:LB;") [.tick]
    have third := Advances.step
      (s.run [.file "s:B" "f:A:f:LB;", .file "s:B" "f:A:A:LB;"]) [[.tick]] [] .tick []
    have fourth := Advances.step
      (s.run [.file "s:B" "f:A:f:LB;", .file "s:B" "f:A:A:LB;", .tick]) [] [[]] .tick []
    exact .head first (.head second (.head third (.single fourth)))
  have hidle : c.Idle := by simp [Idle, c]
  have hperm : [damaged, sound].Perm [sound, damaged] := .swap ..
  exact ⟨hperm, hreaches, hidle, (reaches_sequential s _ _ c hperm hreaches).2 hidle⟩

end Crew

end Backref
