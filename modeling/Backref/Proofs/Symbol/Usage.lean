import Backref.Proofs.Constant.Written
import Backref.Proofs.Discovery.Mentions
import Backref.Proofs.Index.Log
import Mathlib.Data.List.Basic

/-!
# What a usage string says about its symbol

A usage string gives away what kind of symbol it stands for, and a class
altogether. The parts of a member stand between colons, which nothing in the
parts is distinguished from: where the colons in the owner and in the name are
counted, the parts can be told apart, and otherwise two members may be written
alike.

Main results:

* `eq_of_append_colon` — what stands before a colon that has been counted;
* `Symbol.eq_iff_colons_eq` — symbols of one usage string are told apart by the
  colons in their names;
* `Symbol.told_apart_by_colons` — and where the names have none, an index has under
  a usage string the users of its symbol and of no other.
-/

namespace Backref

-- ---------------------------------------------------------------------------
-- Colons
-- ---------------------------------------------------------------------------

/-- Texts that go on behind a colon, up to which there are equally many colons,
are the same up to there and from there on. -/
theorem eq_of_append_colon {as bs cs ds : List Char} (h : as ++ ':' :: cs = bs ++ ':' :: ds)
    (hcount : as.count ':' = bs.count ':') : as = bs ∧ cs = ds := by
  -- the first colon that differs would make the counts differ
  induction as generalizing bs with
  | nil =>
    cases bs with
    | nil => exact ⟨rfl, (List.cons.inj h).2⟩
    | cons b bs =>
      obtain ⟨rfl, -⟩ := List.cons.inj h
      simp at hcount
  | cons a as ih =>
    cases bs with
    | nil =>
      obtain ⟨rfl, -⟩ := List.cons.inj h
      simp at hcount
    | cons b bs =>
      obtain ⟨rfl, hrest⟩ := List.cons.inj h
      obtain ⟨rfl, rfl⟩ := ih hrest (by simpa [List.count_cons] using hcount)
      exact ⟨rfl, rfl⟩

/-- The number of colons in a text. -/
def colons (text : String) : Nat := text.toList.count ':'

namespace Member

/-- A key is the three parts with colons between them. -/
theorem toList_referenceKey (m : Member) :
    m.referenceKey.toList =
      m.owner.toList ++ ':' :: (m.name.toList ++ ':' :: m.descriptor.toList) := by
  simp [referenceKey]

/-- Members of one reference key are told apart by the colons in their names. -/
theorem eq_iff_colons_eq {m n : Member} (h : m.referenceKey = n.referenceKey) :
    m = n ↔ colons m.owner = colons n.owner ∧ colons m.name = colons n.name := by
  constructor
  · rintro rfl
    exact ⟨rfl, rfl⟩
  · rintro ⟨howner, hname⟩
    have hkeys := congrArg String.toList h
    rw [toList_referenceKey, toList_referenceKey] at hkeys
    obtain ⟨howners, hrest⟩ := eq_of_append_colon hkeys howner
    obtain ⟨hnames, hdescriptors⟩ := eq_of_append_colon hrest hname
    obtain ⟨owner, name, descriptor⟩ := m
    obtain rfl := String.toList_inj.mp howners
    obtain rfl := String.toList_inj.mp hnames
    obtain rfl := String.toList_inj.mp hdescriptors
    rfl

end Member

namespace Symbol

/-- A usage is the tag, a colon and the key. -/
theorem toList_usage (s : Symbol) :
    s.usage.toList = s.tagLetter :: ':' :: s.referenceKey.toList := by
  simp [usage]

/-- Symbols of one usage string are of one kind and have one reference key. -/
theorem usage_eq_iff {s t : Symbol} :
    s.usage = t.usage ↔ s.tagLetter = t.tagLetter ∧ s.referenceKey = t.referenceKey := by
  rw [← String.toList_inj, toList_usage, toList_usage, List.cons.injEq, List.cons.injEq,
    String.toList_inj]
  simp

/-- The colons in the owner and in the name of a member. Those in a class are not
counted: nothing comes behind its name. -/
def colons : Symbol → Nat × Nat
  | ofClass _ => (0, 0)
  | field m | method m => (Backref.colons m.owner, Backref.colons m.name)

/-- Symbols of one usage string are of one kind, and they are told apart by the
colons in their names. -/
theorem eq_iff_colons_eq {s t : Symbol} (h : s.usage = t.usage) :
    s.tagLetter = t.tagLetter ∧ (s = t ↔ s.colons = t.colons) := by
  obtain ⟨htag, hkey⟩ := usage_eq_iff.mp h
  refine ⟨htag, ?_⟩
  -- equal tags make both symbols of one kind
  cases s with
  | ofClass a =>
    cases t with
    | ofClass b =>
      obtain rfl : a = b := hkey
      simp
    | field n => simp [tagLetter] at htag
    | method n => simp [tagLetter] at htag
  | field m =>
    cases t with
    | ofClass b => simp [tagLetter] at htag
    | field n => rw [field.injEq, colons, colons, Prod.mk.injEq, Member.eq_iff_colons_eq hkey]
    | method n => simp [tagLetter] at htag
  | method m =>
    cases t with
    | ofClass b => simp [tagLetter] at htag
    | field n => simp [tagLetter] at htag
    | method n => rw [method.injEq, colons, colons, Prod.mk.injEq, Member.eq_iff_colons_eq hkey]

/-- A symbol without colons in its names. -/
def Plain (s : Symbol) : Prop := s.colons = (0, 0)

instance : DecidablePred Plain := fun s => inferInstanceAs (Decidable (s.colons = (0, 0)))

/-- Plain symbols are what their usage strings say. -/
theorem Plain.eq_of_usage_eq {s t : Symbol} (hs : s.Plain) (ht : t.Plain)
    (h : s.usage = t.usage) : s = t := (eq_iff_colons_eq h).2.mpr (hs.trans ht.symm)

end Symbol

-- ---------------------------------------------------------------------------
-- What is filed under a usage string
-- ---------------------------------------------------------------------------

namespace Index

/-- The pairs that are reported when byte strings are ingested. -/
theorem mem_log_ingest {lambdas : Bool} {batch : List Bytes} {k u : String} :
    (k, u) ∈ log lambdas (batch.map .ingest) ↔ ∃ bytes ∈ batch,
      ∃ r ∈ (Findings.ofBytes lambdas bytes).references, r.target.usage = k ∧ r.user.usage = u := by
  simp [log, Call.reports, Findings.reports]

/-- The users under a key are those of the references that were found to a symbol
with that usage string. -/
theorem mem_users_ingest {config : IndexConfig} {batch : List Bytes} {k u : String} :
    u ∈ ((empty config).performAll (batch.map .ingest)).users k ↔
      config.namespaces.accepts k = true ∧ ∃ bytes ∈ batch,
        ∃ r ∈ (Findings.ofBytes config.lambdas bytes).references,
          r.target.usage = k ∧ r.user.usage = u := by
  rw [mem_users_performAll, mem_log_ingest]

end Index

namespace Symbol

/-- The texts that a symbol is made of. -/
def texts : Symbol → List String
  | ofClass name => [name]
  | field m | method m => [m.owner, m.name, m.descriptor]

/-- Two fields that a colon is shifted between, one in its name and one in its
owner, are written alike. Nothing is empty, and a pool can hold all of it. -/
theorem usage_not_injective :
    ¬ ∀ s t : Symbol, (∀ text ∈ s.texts ++ t.texts, text ≠ "" ∧ (Constant.utf8 text).Fits) →
      s.usage = t.usage → s = t := by
  intro h
  have hsame := h (.field ⟨"a", "b:c", "I"⟩) (.field ⟨"a:b", "c", "I"⟩) (by decide +kernel)
    (by decide)
  exact absurd hsame (by decide)

/-- Symbols of one usage string are of one kind; classes among them are equal, and
members if there are as many colons in their owners and in their names. So if
all that is referred to is free of colons there, an index has under the usage
string of such a symbol the users of that symbol and of no other. -/
theorem told_apart_by_colons (config : IndexConfig) (batch : List Bytes) :
    (∀ s t : Symbol, s.usage = t.usage →
      s.tagLetter = t.tagLetter ∧ (s = t ↔ s.colons = t.colons)) ∧
    ((∀ bytes ∈ batch, ∀ r ∈ (Findings.ofBytes config.lambdas bytes).references,
        r.target.Plain) →
      ∀ s : Symbol, s.Plain → ∀ u,
        u ∈ ((Index.empty config).performAll (batch.map .ingest)).users s.usage ↔
          config.namespaces.accepts s.usage = true ∧ ∃ bytes ∈ batch,
            ∃ r ∈ (Findings.ofBytes config.lambdas bytes).references,
              r.target = s ∧ r.user.usage = u) := by
  refine ⟨fun s t h => eq_iff_colons_eq h, fun hplain s hs u => ?_⟩
  rw [Index.mem_users_ingest]
  refine and_congr_right' (exists_congr fun bytes => and_congr_right fun hbytes =>
    exists_congr fun r => and_congr_right fun hr => and_congr_left' ?_)
  -- plain symbols with one usage are the same symbol
  constructor
  · exact (hplain bytes hbytes r hr).eq_of_usage_eq hs
  · rintro rfl
    rfl

/-- Nothing in the sample has a colon in its name, and one method uses the class `A`. -/
theorem told_apart_sampleBytes :
    (∀ r ∈ (Findings.ofBytes true Findings.sampleBytes).references, r.target.Plain) ∧
      "m:C:m:()V" ∈ ((Index.empty ⟨.unfiltered, true⟩).performAll
        [.ingest Findings.sampleBytes]).users (ofClass "A").usage := by
  have hplain : ∀ r ∈ (Findings.ofBytes true Findings.sampleBytes).references,
      r.target.Plain := by
    decide +kernel
  obtain ⟨-, husers⟩ := told_apart_by_colons ⟨.unfiltered, true⟩ [Findings.sampleBytes]
  refine ⟨hplain, (husers ?_ (ofClass "A") rfl "m:C:m:()V").mpr ⟨by decide +kernel, ?_⟩⟩
  · simpa using hplain
  · refine ⟨Findings.sampleBytes, by simp, ⟨.ofClass "A", .method ⟨"C", "m", "()V"⟩⟩, ?_, rfl, ?_⟩
    · decide +kernel
    · decide +kernel

end Symbol

end Backref
