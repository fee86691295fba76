import Backref.Proofs.Bytecode.Layout

/-!
# Code arrays as sequences of instructions

A code array is *tiled* by instructions when they are laid out in it one after
the other, each at the position where the one before it ends. Walking through
a code array yields instructions without a fault exactly when they tile it.

Main results:

* `Walk.items_eq_iff` — a walk without a fault;
* `Walk.items_append_iff` — the item that a walk comes to behind others.
-/

namespace Backref

/-- Instructions that fill a code array from a position on. -/
inductive Instruction.Tiled : Nat → Bytes → List Instruction → Prop
  | nil (offset : Nat) : Tiled offset [] []
  | cons {offset : Nat} {bs rest : Bytes} {i : Instruction} {is : List Instruction}
      (first : Laid offset bs i) (others : Tiled (offset + bs.length) rest is) :
      Tiled offset (bs ++ rest) (i :: is)

namespace Instruction

/-- No bytes hold no instructions. -/
theorem tiled_nil {offset : Nat} {is : List Instruction} : Tiled offset [] is ↔ is = [] := by
  constructor
  · intro h
    generalize hbs : ([] : Bytes) = bs at h
    cases h with
    | nil offset => rfl
    | cons first others =>
      -- an instruction takes a byte at least
      have hpos := first.length_pos
      rw [(List.append_eq_nil_iff.mp hbs.symm).1] at hpos
      exact absurd hpos (Nat.lt_irrefl 0)
  · rintro rfl
    exact .nil offset

/-- Where an instruction is read, what tiles the bytes ahead starts with it. -/
theorem tiled_of_read {c d : Cursor} {i : Instruction} {js : List Instruction}
    (hread : read c = .ok i d) :
    Tiled c.pos c.ahead js ↔ ∃ is, js = i :: is ∧ Tiled d.pos d.ahead is := by
  obtain ⟨bs, hlaid, hpasses⟩ := read_eq_ok.mp hread
  rw [hpasses.ahead]
  constructor
  · intro htiled
    generalize hall : bs ++ d.ahead = all at htiled
    cases htiled with
    | nil _ =>
      have hpos := hlaid.length_pos
      rw [(List.append_eq_nil_iff.mp hall).1] at hpos
      exact absurd hpos (Nat.lt_irrefl 0)
    | @cons _ bs' rest i' is first others =>
      -- the same bytes cannot start with two different instructions
      obtain ⟨m, hpasses', hrest⟩ := Cursor.exists_passes (hpasses.ahead.trans hall)
      have hread' := first.read hpasses'
      rw [hread] at hread'
      obtain ⟨rfl, rfl⟩ := EStateM.Result.ok.inj hread'
      rw [← hpasses'.pos, ← hrest] at others
      exact ⟨is, rfl, others⟩
  · rintro ⟨is, rfl, others⟩
    rw [hpasses.pos] at others
    exact .cons hlaid others

/-- Where no instruction can be read, nothing tiles the bytes ahead. -/
theorem not_tiled_of_fault {c d : Cursor} {f : Fault} {is : List Instruction}
    (hread : read c = .error f d) (hmore : c.ahead ≠ []) : ¬ Tiled c.pos c.ahead is := by
  intro htiled
  generalize hbs : c.ahead = bs at htiled
  cases htiled with
  | nil _ => exact hmore hbs
  | @cons _ bs rest i is first others =>
    -- a first instruction that is laid out would have been read
    obtain ⟨m, hpasses, -⟩ := Cursor.exists_passes hbs
    rw [first.read hpasses] at hread
    cases hread

end Instruction

namespace Walk

open Instruction

-- ---------------------------------------------------------------------------
-- Steps of a walk
-- ---------------------------------------------------------------------------

/-- The walk is over when nothing lies ahead. -/
theorem pos_eq_size_iff {c : Cursor} : c.pos = c.size ↔ c.ahead = [] := by
  have hlength := c.length_ahead
  have hle := c.pos_le
  unfold Cursor.left at hlength
  rw [← List.length_eq_zero_iff, hlength]
  omega

/-- The items of a walk come behind those that have been seen. -/
theorem toList_itemsOnto (fuel : Nat) (seen : Array (Except Fault Instruction)) (w : Walk) :
    (itemsOnto fuel seen w).toList = seen.toList ++ (itemsOnto fuel #[] w).toList := by
  -- both sides take the same step, so the induction is over the steps and for any items seen
  induction fuel generalizing seen w with
  | zero => simp [itemsOnto]
  | succ fuel ih =>
    rw [itemsOnto, itemsOnto]
    cases w.next? with
    | none => simp
    | some p =>
      obtain ⟨item, w'⟩ := p
      simp only
      rw [ih (seen.push item), ih (#[].push item)]
      simp

/-- The items of a walk are the next one and those of the rest. -/
theorem items_of_next {fuel : Nat} {w w' : Walk} {item : Except Fault Instruction}
    (h : w.next? = some (item, w')) :
    (itemsOnto (fuel + 1) #[] w).toList = item :: (itemsOnto fuel #[] w').toList := by
  rw [itemsOnto, h]
  exact toList_itemsOnto fuel #[item] w'

/-- A walk goes on behind an instruction it has read. -/
theorem next?_of_read {c d : Cursor} {i : Instruction} (h : read c = .ok i d)
    (hmore : c.ahead ≠ []) : next? ⟨c, false⟩ = some (.ok i, ⟨d, false⟩) := by
  have hpos : c.pos ≠ c.size := fun hend => hmore (pos_eq_size_iff.mp hend)
  simp [next?, hpos, h]

/-- A walk that fails has one item left to give, which is the fault. -/
theorem next?_of_fault {c d : Cursor} {f : Fault} (h : read c = .error f d)
    (hmore : c.ahead ≠ []) : next? ⟨c, false⟩ = some (.error f, ⟨d, true⟩) := by
  have hpos : c.pos ≠ c.size := fun hend => hmore (pos_eq_size_iff.mp hend)
  simp [next?, hpos, h]

/-- A walk gives nothing at the end. -/
theorem next?_of_end {c : Cursor} (h : c.ahead = []) : next? ⟨c, false⟩ = none := by
  simp [next?, pos_eq_size_iff.mpr h]

-- ---------------------------------------------------------------------------
-- Whole walks
-- ---------------------------------------------------------------------------

/-- A walk with fuel for what lies ahead yields instructions without a fault
exactly when they tile what lies ahead. -/
theorem itemsOnto_eq_iff {fuel : Nat} {c : Cursor} {is : List Instruction} (hfuel : c.left ≤ fuel) :
    (itemsOnto fuel #[] ⟨c, false⟩).toList = is.map .ok ↔ Tiled c.pos c.ahead is := by
  -- every instruction takes a byte at least, so what lies ahead gets shorter
  induction fuel generalizing c is with
  | zero =>
    have hahead : c.ahead = [] := Cursor.ahead_eq_nil (Nat.le_zero.mp hfuel)
    rw [hahead, tiled_nil, itemsOnto]
    simp
  | succ fuel ih =>
    by_cases hahead : c.ahead = []
    · rw [hahead, tiled_nil, itemsOnto, next?_of_end hahead]
      simp
    · cases hread : read c with
      | error f d =>
        rw [items_of_next (next?_of_fault hread hahead)]
        have hnot : ¬ Tiled c.pos c.ahead is := not_tiled_of_fault hread hahead
        cases is with
        | nil => simp [hnot]
        | cons i is => simp [hnot]
      | ok i d =>
        obtain ⟨bs, hlaid, hpasses⟩ := read_eq_ok.mp hread
        have hpos := hlaid.length_pos
        have hleft := hpasses.left
        have hothers : ∀ {is : List Instruction}, (itemsOnto fuel #[] ⟨d, false⟩).toList =
            is.map .ok ↔ Tiled d.pos d.ahead is := ih (by omega)
        rw [items_of_next (next?_of_read hread hahead), tiled_of_read hread]
        cases is with
        | nil => simp
        | cons i' is =>
          rw [List.map_cons, List.cons.injEq, Except.ok.injEq, hothers]
          constructor
          · rintro ⟨rfl, others⟩
            exact ⟨is, rfl, others⟩
          · rintro ⟨_, h, others⟩
            cases h
            exact ⟨rfl, others⟩

/-- Walking through a code array yields instructions without a fault exactly
when they tile it. -/
theorem items_eq_iff {code : Bytes} {is : List Instruction} :
    (items code).toList = is.map .ok ↔ Tiled 0 code is :=
  itemsOnto_eq_iff (c := Cursor.ofBytes code) (Nat.le_refl _)

-- ---------------------------------------------------------------------------
-- Walks up to an item
-- ---------------------------------------------------------------------------

/-- The item that a walk comes to at a place of a code array. -/
def ItemAt (c : Cursor) (item : Except Fault Instruction) : Prop :=
  ∃ w, next? ⟨c, false⟩ = some (item, w)

/-- Nothing can be read at the end. -/
theorem not_itemAt_end {c : Cursor} {item : Except Fault Instruction} (h : c.ahead = []) :
    ¬ ItemAt c item := by
  intro hitem
  obtain ⟨w, hw⟩ := hitem
  rw [next?_of_end h] at hw
  cases hw

/-- The item at an instruction is that instruction. -/
theorem itemAt_of_read {c d : Cursor} {i : Instruction} {item : Except Fault Instruction}
    (h : read c = .ok i d) : ItemAt c item ↔ item = .ok i := by
  have hmore : c.ahead ≠ [] := by
    intro hend
    obtain ⟨bs, hlaid, hpasses⟩ := read_eq_ok.mp h
    have hpos := hlaid.length_pos
    rw [(List.append_eq_nil_iff.mp (hpasses.ahead.symm.trans hend)).1] at hpos
    exact absurd hpos (Nat.lt_irrefl 0)
  simp [ItemAt, next?_of_read h hmore, eq_comm]

/-- The item at a fault is that fault. -/
theorem itemAt_of_fault {c d : Cursor} {f : Fault} {item : Except Fault Instruction}
    (h : read c = .error f d) (hmore : c.ahead ≠ []) : ItemAt c item ↔ item = .error f := by
  simp [ItemAt, next?_of_fault h hmore, eq_comm]

/-- The first of the instructions takes the first bytes. -/
theorem tiled_cons {offset : Nat} {bs : Bytes} {i : Instruction} {is : List Instruction} :
    Tiled offset bs (i :: is) ↔
      ∃ first rest, bs = first ++ rest ∧ Laid offset first i ∧
        Tiled (offset + first.length) rest is := by
  constructor
  · intro h
    cases h with
    | cons first others => exact ⟨_, _, rfl, first, others⟩
  · rintro ⟨first, rest, rfl, hfirst, hothers⟩
    exact .cons hfirst hothers

/-- A walk comes to an item behind some instructions. -/
def Reaches (c : Cursor) (is : List Instruction) (item : Except Fault Instruction) : Prop :=
  ∃ bs d, Tiled c.pos bs is ∧ c.Passes bs d ∧ ItemAt d item

/-- An item that nothing comes before is the one right here. -/
theorem reaches_nil {c : Cursor} {item : Except Fault Instruction} :
    Reaches c [] item ↔ ItemAt c item := by
  constructor
  · intro h
    obtain ⟨bs, d, htiled, hpasses, hitem⟩ := h
    cases htiled
    rwa [← Cursor.passes_nil.mp hpasses] at hitem
  · intro hitem
    exact ⟨[], c, .nil _, Cursor.passes_nil.mpr rfl, hitem⟩

/-- No item is reached from the end. -/
theorem not_reaches_end {c : Cursor} {is : List Instruction} {item : Except Fault Instruction}
    (h : c.ahead = []) : ¬ Reaches c is item := by
  intro hreaches
  obtain ⟨bs, d, -, hpasses, hitem⟩ := hreaches
  refine not_itemAt_end ?_ hitem
  exact (List.append_eq_nil_iff.mp (hpasses.ahead.symm.trans h)).2

/-- An item behind the first instruction is reached from behind it. -/
theorem reaches_cons_of_read {c d : Cursor} {i j : Instruction} {is : List Instruction}
    {item : Except Fault Instruction} (h : read c = .ok j d) :
    Reaches c (i :: is) item ↔ i = j ∧ Reaches d is item := by
  constructor
  · intro hreaches
    obtain ⟨bs, d', htiled, hpasses, hitem⟩ := hreaches
    obtain ⟨first, rest, rfl, hlaid, hothers⟩ := tiled_cons.mp htiled
    obtain ⟨m, hfirst, hrest⟩ := Cursor.passes_append.mp hpasses
    -- the same bytes cannot start with two different instructions
    obtain ⟨rfl, rfl⟩ := EStateM.Result.ok.inj (h.symm.trans (hlaid.read hfirst))
    rw [← hfirst.pos] at hothers
    exact ⟨rfl, rest, d', hothers, hrest, hitem⟩
  · rintro ⟨rfl, rest, d', hothers, hrest, hitem⟩
    obtain ⟨first, hlaid, hfirst⟩ := read_eq_ok.mp h
    rw [hfirst.pos] at hothers
    exact ⟨first ++ rest, d', .cons hlaid hothers, Cursor.passes_append.mpr ⟨d, hfirst, hrest⟩,
      hitem⟩

/-- Nothing is reached past a fault. -/
theorem not_reaches_cons_of_fault {c d : Cursor} {f : Fault} {i : Instruction}
    {is : List Instruction} {item : Except Fault Instruction} (h : read c = .error f d) :
    ¬ Reaches c (i :: is) item := by
  intro hreaches
  obtain ⟨bs, d', htiled, hpasses, -⟩ := hreaches
  obtain ⟨first, rest, rfl, hlaid, -⟩ := tiled_cons.mp htiled
  obtain ⟨m, hfirst, -⟩ := Cursor.passes_append.mp hpasses
  rw [hlaid.read hfirst] at h
  cases h

/-- The items of a walk with fuel for what lies ahead start with some
instructions and an item exactly when the walk comes to the item behind them. -/
theorem itemsOnto_append_iff {fuel : Nat} {c : Cursor} {is : List Instruction}
    {item : Except Fault Instruction} (hfuel : c.left ≤ fuel) :
    (∃ after, (itemsOnto fuel #[] ⟨c, false⟩).toList = is.map .ok ++ item :: after) ↔
      Reaches c is item := by
  -- the fuel covers what lies ahead, and each instruction uses up a byte of it
  induction fuel generalizing c is with
  | zero =>
    have hahead : c.ahead = [] := Cursor.ahead_eq_nil (Nat.le_zero.mp hfuel)
    simp [itemsOnto, not_reaches_end hahead]
  | succ fuel ih =>
    by_cases hahead : c.ahead = []
    · rw [itemsOnto, next?_of_end hahead]
      simp [not_reaches_end hahead]
    · cases hread : read c with
      | error f d =>
        rw [items_of_next (next?_of_fault hread hahead)]
        cases is with
        | nil => simp [reaches_nil, itemAt_of_fault hread hahead, eq_comm]
        | cons i is => simp [not_reaches_cons_of_fault hread]
      | ok j d =>
        rw [items_of_next (next?_of_read hread hahead)]
        cases is with
        | nil => simp [reaches_nil, itemAt_of_read hread, eq_comm]
        | cons i is =>
          obtain ⟨first, hlaid, hfirst⟩ := read_eq_ok.mp hread
          have hpos := hlaid.length_pos
          have hleft := hfirst.left
          rw [reaches_cons_of_read hread, ← ih (by omega)]
          simp only [List.map_cons, List.cons_append, List.cons.injEq, Except.ok.injEq,
            exists_and_left, eq_comm]

/-- A walk comes to an item behind some instructions exactly when these tile
the code array up to the place of the item. -/
theorem items_append_iff {code : Bytes} {is : List Instruction}
    {item : Except Fault Instruction} :
    (∃ after, (items code).toList = is.map .ok ++ item :: after) ↔
      ∃ d : Cursor, d.data = code ∧ Tiled 0 (code.take d.pos) is ∧ ItemAt d item := by
  refine (itemsOnto_append_iff (c := Cursor.ofBytes code) (Nat.le_refl _)).trans ?_
  constructor
  · rintro ⟨bs, d, htiled, hpasses, hitem⟩
    -- the bytes passed so far are those before the position
    have hbs : code.take d.pos = bs := by
      have hcode : code = bs ++ d.ahead := hpasses.ahead
      have hpos : d.pos = bs.length := by
        rw [hpasses.pos]
        exact Nat.zero_add _
      rw [hcode, hpos, List.take_left]
    rw [← hbs] at htiled
    exact ⟨d, hpasses.data, htiled, hitem⟩
  · rintro ⟨d, rfl, htiled, hitem⟩
    refine ⟨d.data.take d.pos, d, htiled, ⟨rfl, ?_, ?_⟩, hitem⟩
    · have hle : d.pos ≤ d.data.length := d.size_eq ▸ d.pos_le
      rw [List.length_take, Nat.min_eq_left hle]
      exact (Nat.zero_add _).symm
    · rw [d.ahead_eq, List.take_append_drop]
      rfl

end Walk

end Backref
