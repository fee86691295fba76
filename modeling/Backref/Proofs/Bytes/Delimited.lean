import Backref.Proofs.Bytes.Extension
import Backref.Proofs.Bytes.Written

/-!
# Readers that find their own end

A reader is self-delimiting when the bytes that it passes decide alone what it
yields: it reads them in the same way wherever they stand and whatever is
behind them, and of bytes that end too early it says so and nothing else. Such
readers never ask how much there is left. Read one after the other, they make
another one.

Main results:

* `Reader.SelfDelimiting.bind`, `Reader.SelfDelimiting.table` — readers put
  together from self-delimiting ones are self-delimiting;
* `Reader.SelfDelimiting.run_of_prefix`, `Reader.SelfDelimiting.run_take`,
  `Reader.SelfDelimiting.run_append_of_error` — what becomes of a byte string
  of its own when it is extended or cut off.
-/

namespace Backref.Reader

open Cursor

variable {α β : Type}

/-- The bytes that a reader passes decide what it yields. -/
structure SelfDelimiting (r : Reader α) : Prop where
  /-- What it passes once it reads wherever that stands. -/
  reads : ∀ {c d : Cursor} {a : α}, r c = .ok a d → ∃ bs, c.Passes bs d ∧ Reads r bs a
  /-- What it says of bytes it also says of longer ones. -/
  onward : Local r

namespace SelfDelimiting

-- ---------------------------------------------------------------------------
-- Putting readers together
-- ---------------------------------------------------------------------------

theorem pure (a : α) : SelfDelimiting (Pure.pure a) where
  reads h := by
    obtain ⟨rfl, rfl⟩ := pure_eq_ok.mp h
    exact ⟨[], passes_nil.mpr rfl, .pure _⟩
  onward := .pure a

/-- A reader that always fails succeeds on nothing. -/
theorem throw (f : Fault) : SelfDelimiting (throw f : Reader α) where
  reads h := absurd h throw_ne_ok
  onward := .throw f

theorem malformed (cause : Malformation) : SelfDelimiting (malformed cause : Reader α) :=
  throw _

/-- One self-delimiting reader after another ends where the second one does. -/
theorem bind {x : Reader α} {f : α → Reader β} (hx : SelfDelimiting x)
    (hf : ∀ a, SelfDelimiting (f a)) : SelfDelimiting (x >>= f) where
  reads h := by
    obtain ⟨a, m, hfirst, hrest⟩ := bind_eq_ok.mp h
    obtain ⟨as, has, hreads⟩ := hx.reads hfirst
    obtain ⟨bs, hbs, hreads'⟩ := (hf a).reads hrest
    exact ⟨as ++ bs, passes_append.mpr ⟨m, has, hbs⟩, hreads.bind hreads'⟩
  onward := hx.onward.bind fun a => (hf a).onward

/-- A choice between two readers is self-delimiting if both are. -/
theorem ite {p : Prop} [Decidable p] {x y : Reader α} (hx : SelfDelimiting x)
    (hy : SelfDelimiting y) : SelfDelimiting (if p then x else y) := by
  split
  · exact hx
  · exact hy

/-- Taking bytes ends behind the bytes that are taken. -/
theorem take (n : Nat) : SelfDelimiting (take n) where
  reads h := by
    obtain ⟨hlength, hpasses⟩ := take_eq_ok.mp h
    exact ⟨_, hpasses, .take hlength⟩
  onward := .take n

/-- Skipping bytes ends behind the bytes that are skipped. -/
theorem skip (n : Nat) : SelfDelimiting (skip n) where
  reads h := by
    obtain ⟨bs, hlength, hpasses⟩ := skip_eq_ok.mp h
    exact ⟨bs, hpasses, fun _ _ hpasses' => skip_eq_ok.mpr ⟨bs, hlength, hpasses'⟩⟩
  onward := .skip n

/-- An integer ends behind its bytes. -/
theorem int [FixedWidth α] : SelfDelimiting (int α) := (take _).bind fun _ => pure _

/-- Reading entries one after the other ends behind the last one. -/
theorem timesOnto {entry : Reader α} (hentry : SelfDelimiting entry) (n : Nat) (seen : Array α) :
    SelfDelimiting (timesOnto entry n seen) := by
  -- the entries seen so far are carried along, so they vary
  induction n generalizing seen with
  | zero => exact pure seen
  | succ n ih => exact hentry.bind fun a => ih (seen.push a)

/-- A counted table ends behind its last entry. -/
theorem table {entry : Reader α} (hentry : SelfDelimiting entry) :
    SelfDelimiting (table entry) :=
  int.bind fun _ => hentry.timesOnto _ _

-- ---------------------------------------------------------------------------
-- Byte strings of their own
-- ---------------------------------------------------------------------------

variable {r : Reader α} (hr : SelfDelimiting r) {data : Bytes} {a : α} {e : Cursor}
include hr

/-- What is passed of a byte string is the part up to where the reader stands afterwards. -/
theorem reads_take (h : r (ofBytes data) = .ok a e) :
    e.pos ≤ data.length ∧ Reads r (data.take e.pos) a := by
  obtain ⟨bs, hpasses, hreads⟩ := hr.reads h
  have hdata : data = bs ++ e.ahead := hpasses.ahead
  have hpos : e.pos = bs.length := hpasses.pos.trans (Nat.zero_add _)
  have htake : data.take e.pos = bs := by rw [hpos, hdata, List.take_left]
  refine ⟨?_, htake ▸ hreads⟩
  rw [hpos, hdata, List.length_append]
  exact Nat.le_add_right ..

/-- The part of a byte string that is passed decides what is read. -/
theorem run_of_prefix (h : r (ofBytes data) = .ok a e) {other : Bytes}
    (hstart : data.take e.pos <+: other) : r.run other = .ok a := by
  obtain ⟨-, hreads⟩ := hr.reads_take h
  obtain ⟨rest, rfl⟩ := hstart
  obtain ⟨d, hpasses, -⟩ := exists_passes (c := ofBytes (data.take e.pos ++ rest)) rfl
  exact run_eq_ok.mpr ⟨d, hreads _ _ hpasses⟩

/-- Where that part is cut off, the reader runs out of bytes. -/
theorem run_take (h : r (ofBytes data) = .ok a e) {k : Nat} (hk : k < e.pos) :
    r.run (data.take k) = .error .outOfBounds := by
  have hcarried := hr.onward (extendedBy_ofBytes (List.take_prefix k data))
  rw [h] at hcarried
  unfold run
  generalize hshort : r (ofBytes (data.take k)) = short at hcarried
  cases hcarried with
  | short => rfl
  | @ok _ d _ hd =>
    -- it would stand at the same place, which the part does not reach
    obtain ⟨hle, -⟩ := hr.reads_take hshort
    have hlength := List.length_take_le k data
    have hpos := hd.pos
    omega

/-- A byte string that is refused for another reason than its end is refused
for that reason however it goes on. -/
theorem run_append_of_error {f : Fault} (h : r.run data = .error f) (hf : f ≠ .outOfBounds)
    (more : Bytes) : r.run (data ++ more) = .error f := by
  have hcarried := hr.onward (extendedBy_ofBytes (List.prefix_append data more))
  unfold run at h ⊢
  generalize r (ofBytes data) = short at hcarried h
  generalize r (ofBytes (data ++ more)) = long at hcarried
  cases hcarried with
  | ok _ => cases h
  | fault => exact h
  | short =>
    cases h
    exact absurd rfl hf

end SelfDelimiting

end Backref.Reader
