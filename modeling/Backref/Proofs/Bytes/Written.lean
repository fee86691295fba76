import Backref.Proofs.Bytes.Reading
import Backref.Proofs.InOrder

/-!
# Reading what has been written

A reader *reads* a byte string as a value when it passes that byte string,
wherever it stands, and yields the value. Parts that are read as their values
are read one after the other as the whole.

Main results:

* `Reader.Reads.bind`, `Reader.Reads.table` — what is composed of parts;
* `Reader.ReadsLast.run` — reading a byte string of its own to its end.
-/

namespace Backref.Reader

open Cursor

variable {α β : Type}

/-- A reader passes a byte string, wherever it stands, and yields a value. -/
def Reads (r : Reader α) (bs : Bytes) (a : α) : Prop :=
  ∀ c d : Cursor, c.Passes bs d → r c = .ok a d

/-- The same where the byte string comes last. -/
def ReadsLast (r : Reader α) (bs : Bytes) (a : α) : Prop :=
  ∀ c d : Cursor, c.Passes bs d → d.ahead = [] → r c = .ok a d

/-- What is read wherever it stands is read at the end. -/
theorem Reads.last {r : Reader α} {bs : Bytes} {a : α} (h : Reads r bs a) : ReadsLast r bs a :=
  fun c d hpasses _ => h c d hpasses

/-- A value is read from no bytes. -/
theorem Reads.pure (a : α) : Reads (Pure.pure a) [] a := by
  intro c d hpasses
  obtain rfl := passes_nil.mp hpasses
  rfl

/-- An integer is read from its written form. -/
theorem Reads.int [FixedWidth α] (a : α) : Reads (int α) (FixedWidth.encode a) a :=
  fun _ _ hpasses => int_eq_ok.mpr hpasses

/-- As many bytes as are asked for are read as themselves. -/
theorem Reads.take {n : Nat} {bs : Bytes} (h : bs.length = n) : Reads (take n) bs bs :=
  fun _ _ hpasses => take_eq_ok.mpr ⟨h, hpasses⟩

/-- Two readers read two written forms that stand side by side. -/
theorem Reads.bind {x : Reader α} {f : α → Reader β} {as bs : Bytes} {a : α} {b : β}
    (hx : Reads x as a) (hf : Reads (f a) bs b) : Reads (x >>= f) (as ++ bs) b := by
  intro c d hpasses
  obtain ⟨m, has, hbs⟩ := passes_append.mp hpasses
  rw [bind_of_ok f (hx c m has)]
  exact hf m d hbs

/-- What is made of a value after it has been read takes no bytes. -/
theorem Reads.bindPure {x : Reader α} {f : α → Reader β} {bs : Bytes} {a : α} {b : β}
    (hx : Reads x bs a) (hf : f a = Pure.pure b) : Reads (x >>= f) bs b := by
  intro c d hpasses
  rw [bind_of_ok f (hx c d hpasses), hf]
  rfl

/-- The same at the end of the data, where only the second form needs to stand last. -/
theorem Reads.bindLast {x : Reader α} {f : α → Reader β} {as bs : Bytes} {a : α} {b : β}
    (hx : Reads x as a) (hf : ReadsLast (f a) bs b) : ReadsLast (x >>= f) (as ++ bs) b := by
  intro c d hpasses hend
  obtain ⟨m, has, hbs⟩ := passes_append.mp hpasses
  rw [bind_of_ok f (hx c m has)]
  exact hf m d hbs hend

/-- A reader that has come to the end of the data finds that out. -/
theorem ReadsLast.hasMore : ReadsLast hasMore [] false := by
  intro c d hpasses hend
  obtain rfl := passes_nil.mp hpasses
  exact hasMore_eq_ok.mpr ⟨by simp [hend], rfl⟩

/-- What is made of a value that was read last is read last. -/
theorem ReadsLast.bindPure {x : Reader α} {f : α → Reader β} {bs : Bytes} {a : α} {b : β}
    (hx : ReadsLast x bs a) (hf : f a = Pure.pure b) : ReadsLast (x >>= f) bs b := by
  intro c d hpasses hend
  rw [bind_of_ok f (hx c d hpasses hend), hf]
  rfl

/-- Entries that are read from their forms are read one after the other. -/
theorem Reads.timesOnto {entry : Reader α} {as : List α} {bs : Bytes}
    (h : InOrder (fun a bs => Reads entry bs a) as bs) (seen : Array α) :
    Reads (timesOnto entry as.length seen) bs (seen ++ as) := by
  induction h generalizing seen with
  | nil => simpa [Reader.timesOnto] using Reads.pure seen
  | @cons a as bs cs first others ih =>
    rw [List.length_cons, Reader.timesOnto]
    refine first.bind ?_
    simpa using ih (seen.push a)

/-- A table of entries that are read as they are written. -/
theorem Reads.table {entry : Reader α} {as : Array α} {bs : Bytes}
    (h : InOrder (fun a bs => Reads entry bs a) as.toList bs) (hsize : as.size ≤ countLimit) :
    Reads (table entry) (FixedWidth.encode (UInt16.ofNat as.size) ++ bs) as := by
  refine (Reads.int _).bind ?_
  rw [Reader.times, toNat_ofNat_count hsize, ← Array.length_toList]
  simpa using Reads.timesOnto h #[]

/-- Reading a byte string of its own. -/
theorem ReadsLast.run {r : Reader α} {bs : Bytes} {a : α} (h : ReadsLast r bs a) :
    r.run bs = .ok a := by
  obtain ⟨d, hpasses, hend⟩ := ofBytes_passes bs
  exact run_eq_ok.mpr ⟨d, h _ d hpasses hend⟩

end Backref.Reader
