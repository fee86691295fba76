import Backref.Discovery
import Backref.Index.Namespace
import Backref.Symbol.Parse
import Std.Data.ExtTreeMap
import Std.Data.ExtTreeSet

/-!
# The reference index

An index answers which members use a symbol. It files each reference whose
target its configuration keeps under the usage string of the target, and
counts how many it has filed, repetitions included.
-/

namespace Backref

/-- A set of usage strings. -/
abbrev UsageSet := Std.ExtTreeSet String

/-- Usage strings by the symbols that they use. -/
abbrev UsageTable := Std.ExtTreeMap String UsageSet

namespace UsageTable

/-- Files a user under a key. -/
def file (table : UsageTable) (key user : String) : UsageTable :=
  table.alter key fun users => some ((users.getD ∅).insert user)

/-- The users under a key; none are under a key that is not there. -/
def users (table : UsageTable) (key : String) : UsageSet := table[key]?.getD ∅

end UsageTable

/-- A reference index. -/
structure Index where
  config : IndexConfig
  table : UsageTable
  /-- How many references have been filed. -/
  count : Nat

namespace Index

/-- An index without references. -/
def empty (config : IndexConfig) : Index := ⟨config, ∅, 0⟩

/-- Files a user under a key, if the index keeps that key. -/
def add (i : Index) (key user : String) : Index :=
  if i.config.namespaces.accepts key then
    { i with table := i.table.file key user, count := i.count + 1 }
  else i

/-- Files a reference. -/
def addReference (i : Index) (r : Reference) : Index := i.add r.target.usage r.user.usage

/-- Files what the search of a class found. -/
def addFindings (i : Index) (f : Findings) : Index := f.references.foldl addReference i

/-- Files the references in a class file. Those found before a fault are filed too. -/
def ingest (i : Index) (bytes : Bytes) : Index × Option Fault :=
  let findings := Findings.ofBytes i.config.lambdas bytes
  (i.addFindings findings, findings.fault)

/-- The users under a key. -/
def users (i : Index) (key : String) : UsageSet := i.table.users key

/-- The users under a key, if it has been filed. -/
def users? (i : Index) (key : String) : Option UsageSet := i.table[key]?

/-- The number of keys with users. -/
def keyCount (i : Index) : Nat := i.table.size

/-- Files one usage string under the class of the symbol that it names. A
string that names no symbol is left out. -/
def groupOne (groups : UsageTable) (usage : String) : UsageTable :=
  match Symbol.parse usage with
  | .ok s => groups.file s.ownerClass usage
  | .error _ => groups

/-- The users under a key, by the classes that they belong to. -/
def usersByClass (i : Index) (key : String) : UsageTable :=
  (i.users key).toList.foldl groupOne ∅

end Index

end Backref
