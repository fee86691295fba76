import Mathlib.Data.List.Forall2

/-!
# Yields in order

A list whose entries each yield a list, and the yields one after the other:
the references of the members of a class, the bytes of the entries of a table.

Main results:

* `exists_of_mem_forall₂`, `exists_getElem?_of_forall₂` — lists whose entries
  stand for each other;
* `inOrder_flatMap` — where each entry yields a list of its own, the whole
  yields their concatenation;
* `InOrder.mem_iff` — what is in the whole is in what some entry yields;
* `interrupted_cons` — where it breaks off, this is at the first entry or behind it.
-/

namespace Backref

-- ---------------------------------------------------------------------------
-- Entries that stand for others
-- ---------------------------------------------------------------------------

/-- Where the entries of a list stand for those of another, each stands for some. -/
theorem exists_of_mem_forall₂ {α β : Type} {R : α → β → Prop} {as : List α} {bs : List β}
    (h : List.Forall₂ R as bs) {b : β} (hb : b ∈ bs) : ∃ a ∈ as, R a b := by
  induction h with
  | nil => cases hb
  | @cons a first as others hfirst _ ih =>
    rcases List.mem_cons.mp hb with rfl | hlater
    · exact ⟨a, List.mem_cons_self, hfirst⟩
    · obtain ⟨a', ha', hstands⟩ := ih hlater
      exact ⟨a', List.mem_cons_of_mem a ha', hstands⟩

/-- Where the entries of a list stand for those of another, they do so place by place. -/
theorem exists_getElem?_of_forall₂ {α β : Type} {R : α → β → Prop} {as : List α} {bs : List β}
    (h : List.Forall₂ R as bs) {a : α} {i : Nat} (ha : as[i]? = some a) :
    ∃ b, bs[i]? = some b ∧ R a b := by
  induction h generalizing i with
  | nil => cases ha
  | cons hfirst _ ih =>
    cases i with
    | zero =>
      obtain rfl := Option.some.inj ha
      exact ⟨_, rfl, hfirst⟩
    | succ i => exact ih ha

-- ---------------------------------------------------------------------------
-- Entries that yield lists
-- ---------------------------------------------------------------------------

/-- What each entry of a list yields, one after the other. -/
inductive InOrder {α β : Type} (P : α → List β → Prop) : List α → List β → Prop
  | nil : InOrder P [] []
  | cons {a : α} {as : List α} {bs cs : List β} (first : P a bs) (others : InOrder P as cs) :
      InOrder P (a :: as) (bs ++ cs)

section InOrder

variable {α β : Type} {P : α → List β → Prop} {a : α} {as : List α} {bs : List β}

/-- No entries yield nothing. -/
theorem inOrder_nil : InOrder P [] bs ↔ bs = [] := by
  constructor
  · rintro ⟨⟩
    rfl
  · rintro rfl
    exact .nil

/-- What a list yields starts with what its first entry yields. -/
theorem inOrder_cons :
    InOrder P (a :: as) bs ↔ ∃ first others, P a first ∧ InOrder P as others ∧
      bs = first ++ others := by
  constructor
  · rintro (_ | ⟨hfirst, hothers⟩)
    exact ⟨_, _, hfirst, hothers, rfl⟩
  · rintro ⟨first, others, hfirst, hothers, rfl⟩
    exact .cons hfirst hothers

/-- Where what an entry yields is known element by element, so is the whole. -/
theorem InOrder.mem_iff {M : α → β → Prop} (h : InOrder P as bs)
    (hmem : ∀ a bs, P a bs → ∀ b, b ∈ bs ↔ M a b) (b : β) : b ∈ bs ↔ ∃ a ∈ as, M a b := by
  induction h with
  | nil => simp
  | @cons a as bs cs first others ih =>
    -- an element is in what the first entry yields, or in what the others do
    rw [List.mem_append, hmem a bs first, ih]
    simp

/-- Where each entry may also yield a part of what it yields, so may the whole. -/
theorem InOrder.exists_sublist {Q : α → List β → Prop} (h : InOrder P as bs)
    (hpart : ∀ a bs, P a bs → ∃ cs, Q a cs ∧ cs.Sublist bs) :
    ∃ cs, InOrder Q as cs ∧ cs.Sublist bs := by
  induction h with
  | nil => exact ⟨[], .nil, .slnil⟩
  | @cons a as bs cs first others ih =>
    obtain ⟨ds, hds, hdsPart⟩ := hpart a bs first
    obtain ⟨es, hes, hesPart⟩ := ih
    exact ⟨ds ++ es, .cons hds hes, hdsPart.append hesPart⟩

/-- Entries that each yield a list of their own yield its concatenation. -/
theorem inOrder_flatMap {f : α → List β} (h : ∀ a ∈ as, P a (f a)) :
    InOrder P as (as.flatMap f) := by
  induction as with
  | nil => exact .nil
  | cons a as ih =>
    rw [List.flatMap_cons]
    exact .cons (h a List.mem_cons_self) (ih fun b hb => h b (List.mem_cons_of_mem a hb))

/-- Where entries stand for others, and those say what they yield. -/
theorem inOrder_of_forall₂ {γ : Type} {R : γ → α → Prop} {f : γ → List β} {cs : List γ}
    (h : List.Forall₂ R cs as) (hyields : ∀ c ∈ cs, ∀ a, R c a → P a (f c)) :
    InOrder P as (cs.flatMap f) := by
  induction h with
  | nil => exact .nil
  | @cons c a cs as hfirst _ ih =>
    rw [List.flatMap_cons]
    exact .cons (hyields c List.mem_cons_self a hfirst)
      (ih fun d hd => hyields d (List.mem_cons_of_mem c hd))

/-- What the entries of a list yield up to one of them that breaks off with an
error: the entries before it yield all, and the entry itself a part. -/
def Interrupted {ε : Type} (P : α → List β → Prop) (S : α → ε → List β → Prop) (as : List α)
    (e : ε) (bs : List β) : Prop :=
  ∃ before a after cs ds, as = before ++ a :: after ∧ InOrder P before cs ∧ S a e ds ∧
    bs = cs ++ ds

variable {ε : Type} {S : α → ε → List β → Prop} {e : ε}

/-- A list without entries does not break off. -/
theorem not_interrupted_nil : ¬ Interrupted P S [] e bs := by
  intro h
  obtain ⟨before, a, after, cs, ds, has, -⟩ := h
  simp at has

/-- A list breaks off at its first entry, or behind all that this one yields. -/
theorem interrupted_cons :
    Interrupted P S (a :: as) e bs ↔
      S a e bs ∨ ∃ cs ds, P a cs ∧ Interrupted P S as e ds ∧ bs = cs ++ ds := by
  constructor
  · intro h
    obtain ⟨before, b, after, cs, ds, has, hbefore, hlast, rfl⟩ := h
    -- the entries before the one that breaks off are none, or start with the first
    cases hbefore with
    | nil =>
      obtain ⟨rfl, -⟩ := List.cons.inj has
      exact .inl hlast
    | @cons a' before first others hfirst hothers =>
      obtain ⟨rfl, rfl⟩ := List.cons.inj has
      refine .inr ⟨first, _, hfirst, ⟨before, b, after, _, ds, rfl, hothers, hlast, rfl⟩, ?_⟩
      exact List.append_assoc ..
  · intro h
    rcases h with hhere | ⟨first, rest, hfirst, hrest, rfl⟩
    · exact ⟨[], a, as, [], bs, rfl, .nil, hhere, rfl⟩
    · obtain ⟨before, b, after, cs, ds, rfl, hbefore, hlast, rfl⟩ := hrest
      refine ⟨a :: before, b, after, first ++ cs, ds, rfl, .cons hfirst hbefore, hlast, ?_⟩
      exact (List.append_assoc ..).symm

end InOrder

end Backref
