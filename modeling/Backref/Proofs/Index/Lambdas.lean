import Backref.Proofs.Discovery.Lambdas
import Backref.Proofs.Discovery.Mentions
import Backref.Proofs.Index.Log

/-!
# Indexes without lambda expressions

An index that does not follow lambda expressions has fewer users under each
key than one that does, from the same class files.

Main results:

* `Index.mem_users_of_lambdas` — under each key, a part of the users;
* `Index.lambdas_only_add` — what leaving lambda expressions out does to a
  search and to an index.
-/

namespace Backref.Index

/-- The configuration with lambda expressions followed, or not. -/
def following (config : IndexConfig) (lambdas : Bool) : IndexConfig :=
  { config with lambdas := lambdas }

/-- The index of class files, read in order. -/
def ofFiles (config : IndexConfig) (files : List Bytes) : Index :=
  (empty config).performAll (files.map .ingest)

/-- A search has no more to report about class files without lambda
expressions, if it reaches their ends with them. -/
theorem mem_log_of_lambdas {files : List Bytes}
    (hend : ∀ bytes ∈ files, (Findings.ofBytes true bytes).fault = none) {r : Report}
    (h : r ∈ log false (files.map .ingest)) : r ∈ log true (files.map .ingest) := by
  rw [log, List.mem_flatMap] at h ⊢
  obtain ⟨_, hcall, hr⟩ := h
  obtain ⟨bytes, hbytes, rfl⟩ := List.mem_map.mp hcall
  have hpart := (Findings.sublist_of_end (hend bytes hbytes)).2
  exact ⟨_, hcall, hpart.mem hr⟩

/-- Ingesting a file ends as finding its references does. -/
theorem snd_ingest (i : Index) (bytes : Bytes) :
    (i.ingest bytes).2 = (Findings.ofBytes i.config.lambdas bytes).fault := rfl

/-- Class files that are read without a fault when lambda expressions are
followed have fewer users under each key when they are not. -/
theorem mem_users_of_lambdas {config : IndexConfig} {files : List Bytes}
    (hend : ∀ bytes ∈ files, ((empty (following config true)).ingest bytes).2 = none)
    {key user : String} (h : user ∈ (ofFiles (following config false) files).users key) :
    user ∈ (ofFiles (following config true) files).users key := by
  obtain ⟨haccepts, hlog⟩ := mem_users_performAll.mp h
  exact mem_users_performAll.mpr ⟨haccepts, mem_log_of_lambdas hend hlog⟩

/-- Leaving lambda expressions out only removes references. A search that
reaches the end with them does so without them, and reports a part of what it
reports with them, in the same order; one that stops at a fault without them
does so with them; and without a dynamic call there is no difference. So an
index of class files that are all read to their ends has, without lambda
expressions, a part of the users under each key. -/
theorem lambdas_only_add :
    (∀ bytes, (Findings.ofBytes true bytes).fault = none →
      (Findings.ofBytes false bytes).fault = none ∧
        (Findings.ofBytes false bytes).reports.Sublist (Findings.ofBytes true bytes).reports) ∧
    (∀ bytes, (Findings.ofBytes false bytes).fault ≠ none →
      (Findings.ofBytes true bytes).fault ≠ none) ∧
    (∀ bytes, (∀ c, ClassFile.ofBytes bytes = .ok c → c.callsDynamically = false) →
      Findings.ofBytes false bytes = Findings.ofBytes true bytes) ∧
    ∀ config files,
      (∀ bytes ∈ files, ((empty (following config true)).ingest bytes).2 = none) →
      ∀ key, ∀ user ∈ (ofFiles (following config false) files).users key,
        user ∈ (ofFiles (following config true) files).users key := by
  -- each part is a lemma on one file, the last one on a run of files
  refine ⟨fun bytes => Findings.sublist_of_end, fun bytes hfault hend => ?_,
    fun bytes => Findings.ofBytes_lambdas, fun config files hend key user =>
      mem_users_of_lambdas hend⟩
  exact hfault (Findings.sublist_of_end hend).1

/-- A class file: the class `C` with a method `m` that takes a `B` and makes an
object of the functional interface `R` from the method `A.f`. -/
def lambdaBytes : Bytes :=
  [0xCA, 0xFE, 0xBA, 0xBE, 0, 0, 0, 52, 0, 25, 1, 0, 34, 106, 97, 118, 97, 47, 108, 97, 110, 103,
    47, 105, 110, 118, 111, 107, 101, 47, 76, 97, 109, 98, 100, 97, 77, 101, 116, 97, 102, 97,
    99, 116, 111, 114, 121, 7, 0, 1, 1, 0, 11, 109, 101, 116, 97, 102, 97, 99, 116, 111, 114,
    121, 1, 0, 3, 40, 41, 86, 12, 0, 3, 0, 4, 10, 0, 2, 0, 5, 15, 6, 0, 6, 16, 0, 4, 1, 0, 1, 65,
    7, 0, 9, 1, 0, 1, 102, 12, 0, 11, 0, 4, 10, 0, 10, 0, 12, 15, 6, 0, 13, 1, 0, 1, 114, 1, 0,
    5, 40, 41, 76, 82, 59, 12, 0, 15, 0, 16, 18, 0, 0, 0, 17, 1, 0, 1, 67, 7, 0, 19, 1, 0, 1,
    109, 1, 0, 6, 40, 76, 66, 59, 41, 86, 1, 0, 4, 67, 111, 100, 101, 1, 0, 16, 66, 111, 111,
    116, 115, 116, 114, 97, 112, 77, 101, 116, 104, 111, 100, 115, 0, 33, 0, 20, 0, 0, 0, 0, 0,
    0, 0, 1, 0, 0, 0, 21, 0, 22, 0, 1, 0, 23, 0, 0, 0, 19, 0, 8, 0, 2, 0, 0, 0, 7, 186, 0, 18, 0,
    0, 87, 177, 0, 0, 0, 0, 0, 1, 0, 24, 0, 0, 0, 12, 0, 1, 0, 7, 0, 3, 0, 8, 0, 14, 0, 8]

/-- In this class, what is found without lambda expressions is the parameter's class alone. -/
theorem lambdas_only_add_lambdaBytes :
    let user := "m:C:m:(LB;)V"
    (Findings.ofBytes true lambdaBytes).reports =
        [("s:B", user), ("m:A:f:()V", user), ("s:R", user)] ∧
      (Findings.ofBytes false lambdaBytes).reports = [("s:B", user)] ∧
      (Findings.ofBytes false lambdaBytes).fault = none ∧
      (Findings.ofBytes false lambdaBytes).reports.Sublist
        (Findings.ofBytes true lambdaBytes).reports ∧
      (Findings.ofBytes true []).fault ≠ none ∧
      Findings.ofBytes false Findings.sampleBytes = Findings.ofBytes true Findings.sampleBytes ∧
      user ∈ (ofFiles (following ⟨.unfiltered, true⟩ true) [lambdaBytes]).users "s:B" := by
  obtain ⟨hpart, hfault, hsame, husers⟩ := lambdas_only_add
  have hend : (Findings.ofBytes true lambdaBytes).fault = none := by decide +kernel
  have hless : (Findings.ofBytes false lambdaBytes).reports = [("s:B", "m:C:m:(LB;)V")] := by
    decide +kernel
  have hmore : (Findings.ofBytes true lambdaBytes).reports =
      [("s:B", "m:C:m:(LB;)V"), ("m:A:f:()V", "m:C:m:(LB;)V"), ("s:R", "m:C:m:(LB;)V")] := by
    decide +kernel
  -- the sample calls nothing dynamically
  have hplain : ∀ c, ClassFile.ofBytes Findings.sampleBytes = .ok c →
      c.callsDynamically = false := by
    intro c hc
    have hcalls : (ClassFile.ofBytes Findings.sampleBytes).toOption.map
        ClassFile.callsDynamically = some false := by decide +kernel
    rw [hc] at hcalls
    exact Option.some.inj hcalls
  have huser : "m:C:m:(LB;)V" ∈
      (ofFiles (following ⟨.unfiltered, true⟩ false) [lambdaBytes]).users "s:B" := by
    refine mem_users_performAll.mpr ⟨by decide +kernel, ?_⟩
    rw [List.map_singleton, log, List.flatMap_singleton]
    show _ ∈ (Findings.ofBytes false lambdaBytes).reports
    rw [hless]
    exact List.mem_singleton.mpr rfl
  -- the file is ingested to its end
  have hread : ∀ bytes ∈ [lambdaBytes],
      ((empty (following ⟨.unfiltered, true⟩ true)).ingest bytes).2 = none := by
    intro bytes hbytes
    rw [List.mem_singleton.mp hbytes, snd_ingest]
    exact hend
  obtain ⟨hend', hpart'⟩ := hpart lambdaBytes hend
  exact ⟨hmore, hless, hend', hpart', hfault [] (by decide +kernel),
    hsame Findings.sampleBytes hplain, husers _ _ hread _ _ huser⟩

end Backref.Index
