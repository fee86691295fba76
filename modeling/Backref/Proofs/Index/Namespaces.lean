import Backref.Index.Namespace
import Backref.Proofs.Symbol.Usage

/-!
# What namespaces decide by

An index looks at the usage string of a symbol without its tag, which is the
reference key of the symbol, whatever it starts with. Of that, prefixes without
a colon can reach no further than the class: so it is the class alone that
decides whether a symbol is kept.

Main results:

* `Symbol.untagged_usage` — what an index looks at;
* `Namespaces.accepts_usage_iff` — the classes whose symbols are kept;
* `Namespaces.decided_by_class` — so an index has all users of the symbols of a
  class, or none of any.
-/

namespace Backref

namespace Symbol

/-- Without its tag, a usage string is the reference key of the symbol. -/
theorem untagged_usage (s : Symbol) : untagged s.usage = s.referenceKey := by
  unfold untagged
  rw [toList_usage]
  cases s with
  | ofClass name => exact String.ofList_toList
  | field m => exact String.ofList_toList
  | method m => exact String.ofList_toList

/-- A reference key starts with the class. If it goes on, it does so with a colon. -/
theorem toList_referenceKey_eq (s : Symbol) :
    s.referenceKey.toList = s.ownerClass.toList ∨
      ∃ rest, s.referenceKey.toList = s.ownerClass.toList ++ ':' :: rest := by
  cases s with
  | ofClass name => exact .inl rfl
  | field m => exact .inr ⟨_, m.toList_referenceKey⟩
  | method m => exact .inr ⟨_, m.toList_referenceKey⟩

end Symbol

/-- A prefix without a colon ends before the first colon. -/
theorem prefix_append_colon_iff {start text rest : List Char} (hplain : ':' ∉ start) :
    start <+: text ++ ':' :: rest ↔ start <+: text := by
  constructor
  · intro h
    rcases List.prefix_or_prefix_of_prefix h (List.prefix_append text _) with hstart | ⟨more, rfl⟩
    · exact hstart
    · -- what goes on behind the text would start with the colon
      rw [List.prefix_append_right_inj] at h
      cases more with
      | nil => rw [List.append_nil]
      | cons c more =>
        obtain ⟨rfl, -⟩ := List.cons_prefix_cons.mp h
        simp at hplain
  · intro h
    exact h.trans (List.prefix_append text _)

namespace Namespaces

/-- A key is accepted when one of the prefixes begins what is behind its tag. -/
theorem accepts_iff {n : Namespaces} {key : String} : n.accepts key = true ↔
    ∃ start ∈ n.prefixes, start.toList <+: (Symbol.untagged key).toList := by
  simp [accepts]

/-- Prefixes without colons keep the symbols whose class starts with one of them. -/
theorem accepts_usage_iff {n : Namespaces} (hplain : ∀ start ∈ n.prefixes, ':' ∉ start.toList)
    (s : Symbol) : n.accepts s.usage = true ↔
      ∃ start ∈ n.prefixes, start.toList <+: s.ownerClass.toList := by
  rw [accepts_iff, s.untagged_usage]
  refine exists_congr fun start => and_congr_right fun hstart => ?_
  rcases s.toList_referenceKey_eq with hkey | ⟨rest, hkey⟩
  · rw [hkey]
  · rw [hkey, prefix_append_colon_iff (hplain start hstart)]

/-- A class whose name starts with one of the prefixes. -/
def Covers (n : Namespaces) (owner : String) : Prop :=
  ∃ start ∈ n.prefixes, start.toList <+: owner.toList

/-- Without its tag a usage string is the reference key of its symbol, whatever
that key starts with. Where no prefix has a colon, a symbol is accepted exactly if
its class starts with a prefix, so that two symbols of a class are accepted or
refused together; and of all that is reported to an index, it has the users of
the symbols of those classes. -/
theorem decided_by_class (config : IndexConfig) :
    (∀ s : Symbol, Symbol.untagged s.usage = s.referenceKey) ∧
    ((∀ start ∈ config.namespaces.prefixes, ':' ∉ start.toList) → ∀ s : Symbol,
      (config.namespaces.accepts s.usage = true ↔ config.namespaces.Covers s.ownerClass) ∧
      (∀ t : Symbol, t.ownerClass = s.ownerClass →
        config.namespaces.accepts t.usage = config.namespaces.accepts s.usage) ∧
      ∀ calls u, u ∈ ((Index.empty config).performAll calls).users s.usage ↔
        config.namespaces.Covers s.ownerClass ∧
          (s.usage, u) ∈ Index.log config.lambdas calls) := by
  refine ⟨Symbol.untagged_usage, fun hplain s => ?_⟩
  have haccepts : ∀ t : Symbol,
      config.namespaces.accepts t.usage = true ↔ config.namespaces.Covers t.ownerClass :=
    accepts_usage_iff hplain
  -- a prefix without colons does not reach past the owner
  refine ⟨haccepts s, ?_, ?_⟩
  · intro t ht
    rw [Bool.eq_iff_iff, haccepts, haccepts, ht]
  · intro calls u
    rw [Index.mem_users_performAll, haccepts]

/-- A class whose name starts like the usage string of a field is not taken for
one: the prefix `f` covers the class `f:A` with its members, but no field of `A`. -/
theorem decided_by_class_tagged :
    let n : Namespaces := ⟨["f"]⟩
    (∀ start ∈ n.prefixes, ':' ∉ start.toList) ∧
    Symbol.untagged (Symbol.ofClass "f:A").usage = "f:A" ∧
    n.accepts (Symbol.ofClass "f:A").usage = true ∧
    n.accepts (Symbol.method ⟨"f:A", "m", "()V"⟩).usage = true ∧
    n.accepts (Symbol.field ⟨"A", "x", "I"⟩).usage = false := by
  intro n
  have hplain : ∀ start ∈ n.prefixes, ':' ∉ start.toList := by decide
  obtain ⟨huntagged, hdecided⟩ := decided_by_class ⟨n, true⟩
  obtain ⟨hclass, htogether, -⟩ := hdecided hplain (.ofClass "f:A")
  -- the owner begins like the tag of a field
  have hcovers : n.Covers "f:A" := ⟨"f", by decide, by decide⟩
  have hkept : n.accepts (Symbol.ofClass "f:A").usage = true := hclass.mpr hcovers
  refine ⟨hplain, huntagged _, hkept, ?_, ?_⟩
  · exact (htogether (.method ⟨"f:A", "m", "()V"⟩) rfl).trans hkept
  · obtain ⟨hfield, -⟩ := hdecided hplain (.field ⟨"A", "x", "I"⟩)
    have hnot : ¬ n.Covers "A" := by
      rintro ⟨start, hstart, hprefix⟩
      obtain rfl := List.mem_singleton.mp hstart
      exact absurd hprefix (by decide)
    exact Bool.eq_false_iff.mpr fun haccepts => hnot (hfield.mp haccepts)

end Namespaces

end Backref
