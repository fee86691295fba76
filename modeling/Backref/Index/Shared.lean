import Backref.Index.Basic

/-!
# Filling an index by many workers

A shared index is filled by one worker for each class of a batch. A worker
files a reference in two steps, one for the table and one for the counter,
and the steps of different workers may come in any order. A report tells
which classes of the batch failed, by their position.
-/

namespace Backref

/-- An index that workers fill. -/
structure SharedIndex where
  config : IndexConfig
  table : UsageTable
  count : Nat

/-- What a worker does at once. -/
inductive SharedIndex.Step
  /-- Files a user under a key. -/
  | file (key user : String)
  /-- Adds one to the counter. -/
  | tick
  deriving DecidableEq, Repr

/-- The outcome of a batch: how many classes were indexed to the end, and the
faults of the others by their position, in order. -/
structure BatchReport where
  indexed : Nat
  failures : List (Nat × Fault)
  deriving DecidableEq, Repr

namespace BatchReport

/-- The report of a batch whose workers finish in a given order. -/
def ofCompletions (completions : List (Nat × Option Fault)) : BatchReport :=
  let failures := completions.filterMap fun (position, fault) => fault.map fun f => (position, f)
  { indexed := completions.length - failures.length
    failures := failures.mergeSort fun a b => a.1 ≤ b.1 }

/-- The size of the batch. -/
def total (r : BatchReport) : Nat := r.indexed + r.failures.length

/-- What is announced as workers finish: how many have, out of how many. -/
def progress (completions : List (Nat × Option Fault)) : List (Nat × Nat) :=
  (List.range completions.length).map fun done => (done + 1, completions.length)

end BatchReport

namespace SharedIndex

/-- A shared index without references. -/
def empty (config : IndexConfig) : SharedIndex := ⟨config, ∅, 0⟩

/-- The index after one step of some worker. -/
def step (s : SharedIndex) : Step → SharedIndex
  | .file key user => { s with table := s.table.file key user }
  | .tick => { s with count := s.count + 1 }

/-- The index after steps in order. -/
def run (s : SharedIndex) (steps : List Step) : SharedIndex := steps.foldl step s

/-- The steps that file a user under a key: none if the key is not kept. -/
def stepsOf (config : IndexConfig) (key user : String) : List Step :=
  if config.namespaces.accepts key then [.file key user, .tick] else []

/-- The steps of the worker that files what the search of a class found. -/
def workerSteps (config : IndexConfig) (f : Findings) : List Step :=
  f.references.toList.flatMap fun r => stepsOf config r.target.usage r.user.usage

/-- Files a user under a key, if the index keeps that key. -/
def add (s : SharedIndex) (key user : String) : SharedIndex := s.run (stepsOf s.config key user)

/-- Files the references in a class file. -/
def ingest (s : SharedIndex) (bytes : Bytes) : SharedIndex × Option Fault :=
  let findings := Findings.ofBytes s.config.lambdas bytes
  (s.run (workerSteps s.config findings), findings.fault)

/-- Files the references in the class files of a batch, one worker after the
other, and says which worker finished how. -/
def ingestAll (s : SharedIndex) (batch : List Bytes) : SharedIndex × List (Nat × Option Fault) :=
  let findings := batch.map (Findings.ofBytes s.config.lambdas)
  (s.run (findings.flatMap (workerSteps s.config)),
    findings.zipIdx.map fun (f, position) => (position, f.fault))

/-- The users under a key. -/
def users (s : SharedIndex) (key : String) : UsageSet := s.table.users key

/-- The number of keys with users. -/
def keyCount (s : SharedIndex) : Nat := s.table.size

/-- The index that the workers leave. -/
def toIndex (s : SharedIndex) : Index := ⟨s.config, s.table, s.count⟩

end SharedIndex

end Backref
