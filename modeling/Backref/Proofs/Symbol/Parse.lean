import Backref.Proofs.Symbol.Usage
import Backref.Symbol.Parse
import Mathlib.Data.List.TakeWhile

/-!
# What usage strings are read as

A usage string is read as a symbol with nothing empty in it and no colon in the
owner or the name of a member, and that symbol is written as the string again.
A member with a colon in its name may be written like another one that is read.
Where there is none in its owner, that one has the same owner.

Main results:

* `Symbol.parse_eq_ok` — the strings that are read, and as what;
* `Symbol.exists_parse_iff` — the members whose usage strings are read, and the
  owner that they are read with.
-/

namespace Backref

theorem ofList_ne_empty {cs : List Char} : String.ofList cs ≠ "" ↔ cs ≠ [] := by
  rw [ne_eq, ne_eq, ← String.toList_inj, String.toList_ofList, String.toList_empty]

namespace Member

-- ---------------------------------------------------------------------------
-- Reference keys
-- ---------------------------------------------------------------------------

/-- A text is cut at its first colon. -/
theorem cutAtColon?_eq_some {cs as rest : List Char} :
    cutAtColon? cs = some (as, rest) ↔ ':' ∉ as ∧ cs = as ++ ':' :: rest := by
  constructor
  · intro h
    unfold cutAtColon? at h
    split at h
    · cases h
    · rename_i c rest' hdrop
      obtain ⟨rfl, rfl⟩ := Prod.mk.inj (Option.some.inj h)
      refine ⟨fun hmem => by simpa using List.mem_takeWhile_imp hmem, ?_⟩
      -- what the rest starts with is what stopped the text before it
      have hne : cs.dropWhile (· != ':') ≠ [] := by simp [hdrop]
      have hhead := List.head_dropWhile_not (· != ':') hne
      simp only [hdrop, List.head_cons, bne_eq_false_iff_eq] at hhead
      conv_lhs => rw [← List.takeWhile_append_dropWhile (p := (· != ':')) (l := cs), hdrop, hhead]
  · rintro ⟨hfree, rfl⟩
    have hall : ∀ c ∈ as, (c != ':') = true := by
      rintro c hc
      exact bne_iff_ne.mpr fun h => hfree (h ▸ hc)
    unfold cutAtColon?
    rw [List.dropWhile_append_of_pos hall, List.takeWhile_append_of_pos hall]
    simp

/-- A member that is read: nothing in it is empty, and the colons that end its
owner and its name are the first ones. -/
structure Decodable (m : Member) : Prop where
  owner_ne : m.owner ≠ ""
  colon_not_mem_owner : ':' ∉ m.owner.toList
  name_ne : m.name ≠ ""
  colon_not_mem_name : ':' ∉ m.name.toList
  descriptor_ne : m.descriptor ≠ ""

/-- A key is read as the decodable member that is written as it. -/
theorem parse?_eq_some {key : List Char} {m : Member} :
    parse? key = some m ↔ m.Decodable ∧ m.referenceKey.toList = key := by
  rw [toList_referenceKey]
  -- the key is cut at its first two colons; the descriptor keeps any others
  constructor
  · intro h
    obtain ⟨⟨owner, rest⟩, hcut, hrest⟩ := Option.bind_eq_some_iff.mp h
    obtain ⟨⟨name, descriptor⟩, hcut', hparts⟩ := Option.bind_eq_some_iff.mp hrest
    obtain ⟨hfree, rfl⟩ := cutAtColon?_eq_some.mp hcut
    obtain ⟨hfree', rfl⟩ := cutAtColon?_eq_some.mp hcut'
    dsimp only at hparts
    split at hparts
    · cases hparts
    · rename_i hempty
      obtain rfl := Option.some.inj hparts
      simp only [Bool.or_eq_true, List.isEmpty_iff, not_or] at hempty
      obtain ⟨⟨howner, hname⟩, hdescriptor⟩ := hempty
      refine ⟨⟨ofList_ne_empty.mpr howner, ?_, ofList_ne_empty.mpr hname, ?_,
        ofList_ne_empty.mpr hdescriptor⟩, by simp⟩
      · rwa [String.toList_ofList]
      · rwa [String.toList_ofList]
  · rintro ⟨h, rfl⟩
    -- no part of a decodable member is empty
    have hparts : ¬ (m.owner.toList.isEmpty || m.name.toList.isEmpty ||
        m.descriptor.toList.isEmpty) = true := by
      simp [h.owner_ne, h.name_ne, h.descriptor_ne]
    refine Option.bind_eq_some_iff.mpr
      ⟨(m.owner.toList, m.name.toList ++ ':' :: m.descriptor.toList),
        cutAtColon?_eq_some.mpr ⟨h.colon_not_mem_owner, rfl⟩, ?_⟩
    refine Option.bind_eq_some_iff.mpr ⟨(m.name.toList, m.descriptor.toList),
      cutAtColon?_eq_some.mpr ⟨h.colon_not_mem_name, rfl⟩, ?_⟩
    dsimp only
    rw [if_neg hparts]
    simp

/-- A member that is written like one that is read. Its name ends too early if it
starts with a colon. -/
structure Legible (m : Member) : Prop where
  owner_ne : m.owner ≠ ""
  name_ne : m.name ≠ ""
  starts : m.name.toList.head? ≠ some ':'

/-- Members of one reference key have the same owner if neither owner has a colon. -/
theorem owner_eq {m n : Member} (hm : ':' ∉ m.owner.toList) (hn : ':' ∉ n.owner.toList)
    (h : n.referenceKey = m.referenceKey) :
    n.owner = m.owner ∧
      n.name.toList ++ ':' :: n.descriptor.toList =
        m.name.toList ++ ':' :: m.descriptor.toList := by
  have hkeys := congrArg String.toList h
  rw [toList_referenceKey, toList_referenceKey] at hkeys
  have hcount : n.owner.toList.count ':' = m.owner.toList.count ':' := by
    rw [List.count_eq_zero_of_not_mem hn, List.count_eq_zero_of_not_mem hm]
  obtain ⟨howners, hrest⟩ := eq_of_append_colon hkeys hcount
  exact ⟨String.toList_inj.mp howners, hrest⟩

/-- A member that can be read back is legible. -/
theorem Decodable.legible {m : Member} (h : m.Decodable) : m.Legible where
  owner_ne := h.owner_ne
  name_ne := h.name_ne
  starts hstart := h.colon_not_mem_name (List.mem_of_head? hstart)

/-- Whether a member is legible shows behind its owner: a name that is empty is
followed by a colon, too. -/
theorem legible_iff {m : Member} : m.Legible ↔ m.owner ≠ "" ∧
    (m.name.toList ++ ':' :: m.descriptor.toList).head? ≠ some ':' := by
  constructor
  · rintro ⟨howner, hname, hstart⟩
    refine ⟨howner, ?_⟩
    rwa [List.head?_append_of_ne_nil _ (String.toList_eq_nil_iff.not.mpr hname)]
  · rintro ⟨howner, hstart⟩
    refine ⟨howner, fun hname => hstart (by rw [hname]; rfl), fun h => hstart ?_⟩
    rw [List.head?_append, h]
    rfl

/-- Members of plain owners that share a key are legible together. -/
theorem Legible.of_referenceKey_eq {m n : Member} (h : n.Legible) (hn : ':' ∉ n.owner.toList)
    (hm : ':' ∉ m.owner.toList) (hkey : n.referenceKey = m.referenceKey) : m.Legible := by
  obtain ⟨howner, hrest⟩ := owner_eq hm hn hkey
  rw [legible_iff, ← howner, ← hrest]
  exact legible_iff.mp h

/-- A legible member shares its key with one that can be read back. -/
theorem Legible.exists_decodable {m : Member} (h : m.Legible) (howner : ':' ∉ m.owner.toList)
    (hdescriptor : m.descriptor ≠ "") :
    ∃ n : Member, n.Decodable ∧ n.referenceKey = m.referenceKey := by
  by_cases hcolon : ':' ∈ m.name.toList
  · -- the name that is read ends at the first colon, and the rest is a descriptor
    obtain ⟨before, after, hname, hfree⟩ := List.eq_append_cons_of_mem hcolon
    have hbefore : before ≠ [] := by
      rintro rfl
      exact h.starts (by rw [hname]; rfl)
    refine ⟨⟨m.owner, String.ofList before, String.ofList (after ++ ':' :: m.descriptor.toList)⟩,
      ⟨h.owner_ne, howner, ofList_ne_empty.mpr hbefore, by rwa [String.toList_ofList],
        ofList_ne_empty.mpr (by simp)⟩, ?_⟩
    rw [← String.toList_inj, toList_referenceKey, toList_referenceKey, hname]
    simp
  · exact ⟨m, ⟨h.owner_ne, howner, h.name_ne, hcolon, hdescriptor⟩, rfl⟩

end Member

namespace Symbol

-- ---------------------------------------------------------------------------
-- Usage strings
-- ---------------------------------------------------------------------------

/-- A symbol that is read. -/
def Decodable : Symbol → Prop
  | ofClass name => name ≠ ""
  | field m | method m => m.Decodable

/-- A usage behind its tag is read as the member that is written there. -/
theorem ofMemberKey_eq_ok {usage : String} {ofMember : Member → Symbol} {key : List Char}
    {s : Symbol} : ofMemberKey usage ofMember key = .ok s ↔
      ∃ m : Member, m.Decodable ∧ m.referenceKey.toList = key ∧ ofMember m = s := by
  unfold ofMemberKey
  -- a key is read as one member at most
  cases hparse : Member.parse? key with
  | none =>
    constructor
    · intro h
      cases h
    · rintro ⟨m, hm, hkey, -⟩
      rw [Member.parse?_eq_some.mpr ⟨hm, hkey⟩] at hparse
      cases hparse
  | some m =>
    obtain ⟨hm, rfl⟩ := Member.parse?_eq_some.mp hparse
    rw [Except.ok.injEq]
    constructor
    · rintro rfl
      exact ⟨m, hm, rfl, rfl⟩
    · rintro ⟨n, hn, hkey, rfl⟩
      have hsame := Member.parse?_eq_some.mpr ⟨hn, hkey⟩
      rw [hparse, Option.some.injEq] at hsame
      rw [hsame]

/-- The strings that are read: the usage strings of the symbols that can be read. -/
theorem parse_eq_ok {u : String} {s : Symbol} : parse u = .ok s ↔ s.Decodable ∧ s.usage = u := by
  constructor
  · intro h
    rw [← String.toList_inj, toList_usage]
    unfold parse at h
    -- an empty class, a class, a field, a method, and any other tag
    split at h
    · cases h
    · rename_i name hne hu
      obtain rfl := Except.ok.inj h
      exact ⟨ofList_ne_empty.mpr (by simpa using hne), by rw [hu, referenceKey]; simp [tagLetter]⟩
    · rename_i key hu
      obtain ⟨m, hm, rfl, rfl⟩ := ofMemberKey_eq_ok.mp h
      exact ⟨hm, hu.symm⟩
    · rename_i key hu
      obtain ⟨m, hm, rfl, rfl⟩ := ofMemberKey_eq_ok.mp h
      exact ⟨hm, hu.symm⟩
    · cases h
  · rintro ⟨hs, rfl⟩
    unfold parse
    rw [toList_usage]
    cases s with
    | ofClass name =>
      obtain ⟨c, cs, hname⟩ := List.exists_cons_of_ne_nil (String.toList_eq_nil_iff.not.mpr hs)
      simp only [tagLetter, referenceKey, hname]
      rw [← hname, String.ofList_toList]
    | field m => exact ofMemberKey_eq_ok.mpr ⟨m, hs, rfl, rfl⟩
    | method m => exact ofMemberKey_eq_ok.mpr ⟨m, hs, rfl, rfl⟩

-- ---------------------------------------------------------------------------
-- Members
-- ---------------------------------------------------------------------------

variable {s t : Symbol} {m n : Member}

theorem ownerClass_of_member (h : s.member? = some m) : s.ownerClass = m.owner := by
  cases s with
  | ofClass name => cases h
  | field m' => rw [← Option.some.inj h, ownerClass]
  | method m' => rw [← Option.some.inj h, ownerClass]

theorem referenceKey_of_member (h : s.member? = some m) : s.referenceKey = m.referenceKey := by
  cases s with
  | ofClass name => cases h
  | field m' => rw [← Option.some.inj h, referenceKey]
  | method m' => rw [← Option.some.inj h, referenceKey]

/-- There is a symbol of the same kind for every other member. -/
theorem exists_member (h : s.member? = some m) (n : Member) :
    ∃ t : Symbol, t.tagLetter = s.tagLetter ∧ t.member? = some n := by
  cases s with
  | ofClass name => cases h
  | field m' => exact ⟨field n, rfl, rfl⟩
  | method m' => exact ⟨method n, rfl, rfl⟩

/-- The usage string of a member is read as a member of its kind and with its
reference key. -/
theorem parse_usage_eq_ok (h : s.member? = some m) : parse s.usage = .ok t ↔
    t.tagLetter = s.tagLetter ∧
      ∃ n : Member, t.member? = some n ∧ n.Decodable ∧ n.referenceKey = m.referenceKey := by
  rw [parse_eq_ok, usage_eq_iff]
  cases s with
  | ofClass name => cases h
  | field m' =>
    obtain rfl := Option.some.inj h
    cases t <;> simp [tagLetter, member?, Decodable, referenceKey]
  | method m' =>
    obtain rfl := Option.some.inj h
    cases t <;> simp [tagLetter, member?, Decodable, referenceKey]

/-- The usage string of a member without a colon in its owner is read as a member
of that owner if the member is legible, and otherwise not at all. -/
theorem exists_parse_iff (h : s.member? = some m) (howner : ':' ∉ m.owner.toList)
    (hdescriptor : m.descriptor ≠ "") {owner : String} :
    (∃ t, parse s.usage = .ok t ∧ t.ownerClass = owner) ↔ m.Legible ∧ m.owner = owner := by
  constructor
  · rintro ⟨t, hparse, rfl⟩
    obtain ⟨-, n, hn, hdecodable, hkey⟩ := (parse_usage_eq_ok h).mp hparse
    rw [ownerClass_of_member hn]
    exact ⟨hdecodable.legible.of_referenceKey_eq hdecodable.colon_not_mem_owner howner hkey,
      (Member.owner_eq howner hdecodable.colon_not_mem_owner hkey).1.symm⟩
  · rintro ⟨hlegible, rfl⟩
    obtain ⟨n, hdecodable, hkey⟩ := hlegible.exists_decodable howner hdescriptor
    obtain ⟨t, htag, hn⟩ := exists_member h n
    refine ⟨t, (parse_usage_eq_ok h).mpr ⟨htag, n, hn, hdecodable, hkey⟩, ?_⟩
    rw [ownerClass_of_member hn]
    exact (Member.owner_eq howner hdecodable.colon_not_mem_owner hkey).1

end Symbol

end Backref
