import Backref.Proofs.Bytes.Reading

/-!
# Reading on in a longer byte string

A reader looks at the bytes ahead in order and never at how many there are,
unless they run out. So what it does with a byte string it also does with every
longer one that starts with it: it yields the same value at the same place, or
fails with the same fault. Only the fault of running out of bytes may go away.

Main results:

* `Reader.Local.bind`, `Reader.Local.times` — readers put together from local
  ones are local;
* `Reader.Local.int`, `Reader.Local.take`, `Reader.Local.skip` — the steps are.
-/

namespace Backref

namespace Cursor

/-- A cursor at the same place of a byte string that starts with this one's. -/
structure ExtendedBy (c e : Cursor) : Prop where
  data : c.data <+: e.data
  pos : e.pos = c.pos

namespace ExtendedBy

variable {c e : Cursor} (h : c.ExtendedBy e)
include h

/-- What lies ahead in the longer byte string starts with what lies ahead in the shorter one. -/
theorem ahead : ∃ more, e.ahead = c.ahead ++ more := by
  obtain ⟨more, hmore⟩ := h.data
  refine ⟨more, ?_⟩
  -- the position lies within the shorter string
  have hpos : c.pos ≤ c.data.length := c.size_eq ▸ c.pos_le
  rw [e.ahead_eq, c.ahead_eq, h.pos, ← hmore, List.drop_append_of_le_length hpos]

/-- The longer byte string has at least as many bytes left. -/
theorem left_le : c.left ≤ e.left := by
  obtain ⟨more, hmore⟩ := h.ahead
  have hlength := congrArg List.length hmore
  rw [List.length_append, length_ahead, length_ahead] at hlength
  omega

/-- Two cursors that have advanced by the same number of bytes are still at the same place. -/
theorem advance {n : Nat} (hn : n ≤ c.left) :
    (c.advance n hn).ExtendedBy (e.advance n (Nat.le_trans hn h.left_le)) := by
  refine ⟨h.data, ?_⟩
  rw [pos_advance, pos_advance, h.pos]

end ExtendedBy

/-- Reading starts at the same place in a byte string and in a longer one. -/
theorem extendedBy_ofBytes {short long : Bytes} (h : short <+: long) :
    (ofBytes short).ExtendedBy (ofBytes long) := ⟨h, rfl⟩

end Cursor

namespace Reader

open Cursor

variable {α β : Type}

/-- The outcome of reading goes over to a longer byte string: it is the same
there, unless the bytes ran out. -/
inductive Carried : EStateM.Result Fault Cursor α → EStateM.Result Fault Cursor α → Prop
  | ok {a : α} {c e : Cursor} (h : c.ExtendedBy e) : Carried (.ok a c) (.ok a e)
  | fault {f : Fault} {c e : Cursor} : Carried (.error f c) (.error f e)
  | short {c : Cursor} {r : EStateM.Result Fault Cursor α} : Carried (.error .outOfBounds c) r

/-- A reader whose outcomes go over to longer byte strings. -/
def Local (r : Reader α) : Prop := ∀ ⦃c e : Cursor⦄, c.ExtendedBy e → Carried (r c) (r e)

namespace Local

-- ---------------------------------------------------------------------------
-- Putting readers together
-- ---------------------------------------------------------------------------

theorem pure (a : α) : Local (Pure.pure a) := fun _ _ h => .ok h

/-- A fault does not look at the data at all. -/
theorem throw (f : Fault) : Local (throw f : Reader α) := fun _ _ _ => .fault

theorem malformed (cause : Malformation) : Local (malformed cause : Reader α) := throw _

/-- One local reader after another is local: the second starts where both cursors are. -/
theorem bind {x : Reader α} {f : α → Reader β} (hx : Local x) (hf : ∀ a, Local (f a)) :
    Local (x >>= f) := by
  intro c e h
  have hfirst := hx h
  show Carried (EStateM.bind x f c) (EStateM.bind x f e)
  unfold EStateM.bind
  -- the second reader only matters where the first has yielded the same value on both sides
  generalize x c = short at hfirst
  generalize x e = long at hfirst
  cases hfirst with
  | @ok a d d' hd => exact hf a hd
  | fault => exact .fault
  | short => exact .short

/-- A choice that does not depend on the data is local if both readers are. -/
theorem ite {p : Prop} [Decidable p] {x y : Reader α} (hx : Local x) (hy : Local y) :
    Local (if p then x else y) := by
  split
  · exact hx
  · exact hy

/-- Entries are read one by one, so a table of them is as local as an entry. -/
theorem timesOnto {entry : Reader α} (hentry : Local entry) (n : Nat) (seen : Array α) :
    Local (timesOnto entry n seen) := by
  -- the entries that have been seen are the same on both sides, so they vary in the induction
  induction n generalizing seen with
  | zero => exact pure seen
  | succ n ih => exact hentry.bind fun a => ih (seen.push a)

/-- A counted table is local if its entries are. -/
theorem times {entry : Reader α} (hentry : Local entry) (n : Nat) : Local (times n entry) :=
  hentry.timesOnto n #[]

-- ---------------------------------------------------------------------------
-- Steps
-- ---------------------------------------------------------------------------

/-- The position is that of both cursors. -/
theorem position : Local position := by
  intro c e h
  rw [position_apply, position_apply, h.pos]
  exact .ok h

/-- A position further on is only looked for among the bytes that are left. -/
theorem endOf (n : Nat) : Local (endOf n) := by
  intro c e h
  unfold Reader.endOf
  by_cases hn : n ≤ c.left
  · rw [if_pos hn, if_pos (Nat.le_trans hn h.left_le), h.pos]
    exact .ok h
  · rw [if_neg hn]
    exact .short

/-- The next bytes are the same in a longer byte string, if they are all there. -/
theorem take (n : Nat) : Local (take n) := by
  intro c e h
  unfold Reader.take
  by_cases hn : n ≤ c.left
  · obtain ⟨more, hmore⟩ := h.ahead
    -- the bytes that are taken lie in the part that the two have in common
    have hsame : e.ahead.take n = c.ahead.take n := by
      rw [hmore, List.take_append_of_le_length (by rwa [length_ahead])]
    rw [dif_pos hn, dif_pos (Nat.le_trans hn h.left_le), hsame]
    exact .ok (h.advance hn)
  · rw [dif_neg hn]
    exact .short

/-- Skipping bytes looks at none of them. -/
theorem skip (n : Nat) : Local (skip n) := by
  intro c e h
  unfold Reader.skip
  by_cases hn : n ≤ c.left
  · rw [dif_pos hn, dif_pos (Nat.le_trans hn h.left_le)]
    exact .ok (h.advance hn)
  · rw [dif_neg hn]
    exact .short

/-- An integer is as many bytes as its width says. -/
theorem int [FixedWidth α] : Local (int α) := (take _).bind fun _ => pure _

theorem align (n : Nat) : Local (align n) := position.bind fun _ => skip _

end Local

end Reader

end Backref
