import Backref.Proofs.Discovery.Invariants
import Backref.Proofs.Index.Lambdas
import Backref.Proofs.Index.Namespaces
import Backref.Proofs.Symbol.Language

/-!
# Constructions in an index

Who constructs an object is found through its class. A search notes the class
together with the constructor, whichever way it came to it, so that a fault
before or behind leaves both or neither. Namespaces keep both or neither too,
where no prefix has a colon; and a key without further colons is that of one
constructor.

Main results:

* `Findings.constructs` — what a byte string reports, of constructors and classes;
* `Symbol.eq_of_usage_eq_method` — a key that can be taken apart in one way;
* `Index.users_constructor` — the users of a constructor are users of its class.
-/

namespace Backref

-- ---------------------------------------------------------------------------
-- What a search finds
-- ---------------------------------------------------------------------------

/-- With each reference to a constructor there is one, by the same user, to the
class that it constructs. -/
def Constructs (found : Array Reference) : Prop :=
  ∀ m user, m.name = Symbol.constructorName → ⟨.method m, user⟩ ∈ found →
    ⟨.ofClass m.owner, user⟩ ∈ found

namespace Constructs

variable {found : Array Reference}

/-- A reference to anything but a constructor asks for no other. -/
theorem push (h : Constructs found) {r : Reference} (hr : r.target.isConstructor = false) :
    Constructs (found.push r) := by
  intro m user hname hm
  rw [Array.mem_push] at hm ⊢
  rcases hm with hm | rfl
  · exact .inl (h m user hname hm)
  · simp [Symbol.isConstructor, hname] at hr

/-- A reference to a constructor asks for the one that comes right after it. -/
theorem push_constructor (h : Constructs found) (m : Member) (user : Symbol) :
    Constructs ((found.push ⟨.method m, user⟩).push ⟨.ofClass m.owner, user⟩) := by
  intro n u hname hn
  simp only [Array.mem_push] at hn ⊢
  rcases hn with (hn | hsame) | hclass
  · exact .inl (.inl (h n u hname hn))
  · obtain ⟨hm, rfl⟩ := Reference.mk.inj hsame
    obtain rfl := Symbol.method.inj hm
    exact .inr rfl
  · cases (Reference.mk.inj hclass).1

end Constructs

open Discovery in
/-- The notes keep the classes together with their constructors. -/
theorem lasting_constructs : Lasting Constructs where
  ofClass user name _ h := h.push rfl
  field user m _ h := h.push rfl
  method user m found h := by
    unfold noteMethod
    by_cases hm : (Symbol.method m).isConstructor = true
    · -- nothing can fail between the two notes
      simp only [hm, if_true]
      exact h.push_constructor m user
    · rw [Bool.not_eq_true] at hm
      simp only [hm]
      exact h.push hm

/-- What a byte string reports, up to a fault or the end, has the class with each
constructor. -/
theorem Findings.constructs (lambdas : Bool) (bytes : Bytes) :
    Constructs (ofBytes lambdas bytes).references :=
  of_lasting lasting_constructs (fun _ _ _ hm => by simp at hm) lambdas bytes

-- ---------------------------------------------------------------------------
-- The key of a constructor
-- ---------------------------------------------------------------------------

/-- A key has the colons of its three parts and two of its own. -/
theorem Member.colons_referenceKey (m : Member) :
    colons m.referenceKey = colons m.owner + colons m.name + colons m.descriptor + 2 := by
  simp only [colons, toList_referenceKey, List.count_append, List.count_cons_self]
  omega

/-- A key whose only colons are those between its parts is that of one method. -/
theorem Symbol.eq_of_usage_eq_method {s : Symbol} {m : Member}
    (hbetween : Backref.colons m.referenceKey = 2) (h : s.usage = (method m).usage) :
    s = method m := by
  obtain ⟨htag, hkey⟩ := usage_eq_iff.mp h
  cases s with
  | ofClass name => simp [tagLetter] at htag
  | field n => simp [tagLetter] at htag
  | method n =>
    have hcolons := congrArg Backref.colons (show n.referenceKey = m.referenceKey from hkey)
    rw [hbetween, Member.colons_referenceKey] at hcolons
    rw [Member.colons_referenceKey] at hbetween
    obtain rfl : n = m := (Member.eq_iff_colons_eq hkey).mpr ⟨by omega, by omega⟩
    rfl

-- ---------------------------------------------------------------------------
-- Indexes
-- ---------------------------------------------------------------------------

namespace Index

/-- The users of a method whose key has no other colons than those between its parts are
those that refer to it, if its class is kept. -/
theorem mem_users_method {config : IndexConfig} {files : List Bytes} {m : Member} {u : String}
    (hplain : ∀ start ∈ config.namespaces.prefixes, ':' ∉ start.toList)
    (hbetween : colons m.referenceKey = 2) :
    u ∈ (ofFiles config files).users (Symbol.method m).usage ↔
      (∃ start ∈ config.namespaces.prefixes, start.toList <+: m.owner.toList) ∧
        ∃ bytes ∈ files, ∃ r ∈ (Findings.ofBytes config.lambdas bytes).references,
          r.target = .method m ∧ r.user.usage = u := by
  rw [ofFiles, mem_users_ingest, Namespaces.accepts_usage_iff hplain]
  refine and_congr_right' (exists_congr fun bytes => and_congr_right' (exists_congr fun r =>
    and_congr_right' (and_congr_left' ?_)))
  constructor
  · exact Symbol.eq_of_usage_eq_method hbetween
  · exact congrArg Symbol.usage

/-- The users of a constructor are those that refer to it in some class file, up to a
fault or the end, if its class is kept. All of them are users of the class, whether an
instruction invokes the constructor or a lambda expression is implemented by it. -/
theorem users_constructor (config : IndexConfig) (files : List Bytes) (owner descriptor : String)
    (hplain : ∀ start ∈ config.namespaces.prefixes, ':' ∉ start.toList)
    (howner : ':' ∉ owner.toList) (hdescriptor : ':' ∉ descriptor.toList) :
    let key := "m:" ++ owner ++ ":<init>:" ++ descriptor
    (∀ u ∈ (ofFiles config files).users key, u ∈ (ofFiles config files).users ("s:" ++ owner)) ∧
    ∀ u, u ∈ (ofFiles config files).users key ↔
      (∃ start ∈ config.namespaces.prefixes, start.toList <+: owner.toList) ∧
        ∃ bytes ∈ files, ∃ r ∈ (Findings.ofBytes config.lambdas bytes).references,
          r.target = .method ⟨owner, "<init>", descriptor⟩ ∧ r.user.usage = u := by
  intro key
  have hkey : key = (Symbol.method ⟨owner, "<init>", descriptor⟩).usage := by
    rw [Symbol.usage_method]
    simp [key, String.append_assoc]
  have hbetween : colons (Member.mk owner "<init>" descriptor).referenceKey = 2 := by
    have hstart : colons owner = 0 := List.count_eq_zero.mpr howner
    have hname : colons "<init>" = 0 := by decide
    have hend : colons descriptor = 0 := List.count_eq_zero.mpr hdescriptor
    rw [Member.colons_referenceKey, hstart, hname, hend]
  rw [hkey]
  refine ⟨fun u hu => ?_, fun u => mem_users_method hplain hbetween⟩
  obtain ⟨hkept, bytes, hbytes, ⟨target, user⟩, hr, rfl, rfl⟩ :=
    (mem_users_method hplain hbetween).mp hu
  rw [ofFiles, ← Symbol.usage_ofClass, mem_users_ingest, Namespaces.accepts_usage_iff hplain]
  -- the class was noted together with the constructor
  have hclass := Findings.constructs config.lambdas bytes _ user rfl hr
  exact ⟨hkept, bytes, hbytes, _, hclass, rfl, rfl⟩

/-- A class file: the class `C` with a method `m` that constructs an `A`, makes an object of
the functional interface `R` from the constructor of `B`, and goes on with an opcode that
does not exist. -/
def constructingBytes : Bytes :=
  [0xCA, 0xFE, 0xBA, 0xBE, 0, 0, 0, 52, 0, 27, 1, 0, 34, 106, 97, 118, 97, 47, 108, 97, 110,
    103, 47, 105, 110, 118, 111, 107, 101, 47, 76, 97, 109, 98, 100, 97, 77, 101, 116, 97, 102,
    97, 99, 116, 111, 114, 121, 7, 0, 1, 1, 0, 11, 109, 101, 116, 97, 102, 97, 99, 116, 111,
    114, 121, 1, 0, 3, 40, 41, 86, 12, 0, 3, 0, 4, 10, 0, 2, 0, 5, 15, 6, 0, 6, 16, 0, 4, 1, 0,
    1, 65, 7, 0, 9, 1, 0, 6, 60, 105, 110, 105, 116, 62, 12, 0, 11, 0, 4, 10, 0, 10, 0, 12, 1,
    0, 1, 66, 7, 0, 14, 10, 0, 15, 0, 12, 15, 8, 0, 16, 1, 0, 1, 114, 1, 0, 5, 40, 41, 76, 82,
    59, 12, 0, 18, 0, 19, 18, 0, 0, 0, 20, 1, 0, 1, 67, 7, 0, 22, 1, 0, 1, 109, 1, 0, 4, 67,
    111, 100, 101, 1, 0, 16, 66, 111, 111, 116, 115, 116, 114, 97, 112, 77, 101, 116, 104, 111,
    100, 115, 0, 33, 0, 23, 0, 0, 0, 0, 0, 0, 0, 1, 0, 0, 0, 24, 0, 4, 0, 1, 0, 25, 0, 0, 0, 21,
    0, 2, 0, 1, 0, 0, 0, 9, 183, 0, 13, 186, 0, 21, 0, 0, 203, 0, 0, 0, 0, 0, 1, 0, 26, 0, 0, 0,
    12, 0, 1, 0, 7, 0, 3, 0, 8, 0, 17, 0, 8]

/-- The method uses both classes, although its search ends at a fault, as does that of an
empty file. -/
theorem users_constructor_constructingBytes :
    let index := ofFiles ⟨⟨["A", "B"]⟩, true⟩ [[], constructingBytes]
    (Findings.ofBytes true constructingBytes).fault = some (.malformed (.opcode 203)) ∧
      "m:C:m:()V" ∈ index.users "m:A:<init>:()V" ∧ "m:C:m:()V" ∈ index.users "s:A" ∧
      "m:C:m:()V" ∈ index.users "m:B:<init>:()V" ∧ "m:C:m:()V" ∈ index.users "s:B" := by
  have hplain : ∀ start ∈ ["A", "B"], ':' ∉ start.toList := by decide
  obtain ⟨hinvoked, hinvokers⟩ := users_constructor ⟨⟨["A", "B"]⟩, true⟩ [[], constructingBytes]
    "A" "()V" hplain (by decide) (by decide)
  obtain ⟨hlambda, hlambdas⟩ := users_constructor ⟨⟨["A", "B"]⟩, true⟩ [[], constructingBytes]
    "B" "()V" hplain (by decide) (by decide)
  -- the method uses the first constructor before it stops
  have hA := (hinvokers "m:C:m:()V").mpr ⟨by decide, constructingBytes, by simp,
    ⟨.method ⟨"A", "<init>", "()V"⟩, .method ⟨"C", "m", "()V"⟩⟩, by decide +kernel, rfl,
    by decide⟩
  -- it uses the second one through a lambda expression
  have hB := (hlambdas "m:C:m:()V").mpr ⟨by decide, constructingBytes, by simp,
    ⟨.method ⟨"B", "<init>", "()V"⟩, .method ⟨"C", "m", "()V"⟩⟩, by decide +kernel, rfl,
    by decide⟩
  exact ⟨by decide +kernel, hA, hinvoked _ hA, hB, hlambda _ hB⟩

end Index

end Backref
