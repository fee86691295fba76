import Backref.Proofs.Bytecode.Tiling

/-!
# Walks and readings of code arrays

A code array is decoded in two ways: at once, which ends with the instructions
or with a fault, and by a walk, which is asked for one item after the other.
Both come to the same instructions, and to the same fault behind them. The
instructions are intervals of positions, each of which starts where the one
before it ends; so no position is in two of them, and none is left out.

Main results:

* `Instruction.Consecutive.existsUnique_covers` — each position is in one instruction;
* `Instruction.run_readAll_eq_ok`, `Instruction.run_readAll_eq_error` — decoding at once;
* `Walk.calls_eq` — what a walk yields when it is asked, its end included;
* `Walk.agrees_with_readAll` — both ways of decoding, for every code array.
-/

namespace Backref

namespace Instruction

-- ---------------------------------------------------------------------------
-- Instructions as intervals
-- ---------------------------------------------------------------------------

/-- A position is one of an instruction's bytes. -/
def Covers (i : Instruction) (p : Nat) : Prop := i.offset ≤ p ∧ p < i.offset + i.size

/-- Instructions from one position to another: each takes a byte at least, and
starts where the one before it ends. -/
inductive Consecutive : Nat → Nat → List Instruction → Prop
  | nil (stop : Nat) : Consecutive stop stop []
  | cons {start stop : Nat} {i : Instruction} {is : List Instruction} (hstart : i.offset = start)
      (hsize : 1 ≤ i.size) (others : Consecutive (start + i.size) stop is) :
      Consecutive start stop (i :: is)

/-- Instructions that tile bytes follow each other from the first byte to the last. -/
theorem Tiled.consecutive {start : Nat} {bs : Bytes} {is : List Instruction}
    (h : Tiled start bs is) : Consecutive start (start + bs.length) is := by
  induction h with
  | nil start => exact .nil start
  | cons first others ih =>
    rw [List.length_append, ← Nat.add_assoc]
    refine .cons first.offset_eq ?_ ?_
    · rw [first.size_eq]
      exact first.length_pos
    · rwa [first.size_eq]

/-- Instructions cover no position before the first of them. -/
theorem Consecutive.le_of_covers {start stop : Nat} {is : List Instruction}
    (h : Consecutive start stop is) {k p : Nat} {i : Instruction} (hi : is[k]? = some i)
    (hp : i.Covers p) : start ≤ p := by
  induction h generalizing k with
  | nil stop => simp at hi
  | cons hstart hsize others ih =>
    cases k with
    | zero =>
      obtain rfl := Option.some.inj hi
      exact hstart ▸ hp.1
    | succ k => exact Nat.le_of_add_right_le (ih hi)

/-- Each position from the start to the stop is covered by one instruction. -/
theorem Consecutive.existsUnique_covers {start stop : Nat} {is : List Instruction}
    (h : Consecutive start stop is) {p : Nat} (hstart : start ≤ p) (hstop : p < stop) :
    ∃! k : Nat, ∃ i, is[k]? = some i ∧ i.Covers p := by
  induction h with
  | nil stop => omega
  | @cons start stop i is hoffset hsize others ih =>
    -- a position lies in the first instruction, or in one of those behind it
    by_cases hfirst : p < start + i.size
    · refine ⟨0, ⟨i, rfl, hoffset ▸ hstart, hoffset ▸ hfirst⟩, ?_⟩
      rintro (_ | k) ⟨j, hj, hcovers⟩
      · rfl
      · -- the instructions behind the first start where it ends
        have hbehind := others.le_of_covers hj hcovers
        omega
    · obtain ⟨k, hk, hunique⟩ := ih (by omega) hstop
      refine ⟨k + 1, hk, ?_⟩
      rintro (_ | l) ⟨j, hj, hcovers⟩
      · obtain rfl := Option.some.inj hj
        obtain ⟨-, hend⟩ := hcovers
        omega
      · rw [hunique l ⟨j, hj, hcovers⟩]

-- ---------------------------------------------------------------------------
-- Decoding at once
-- ---------------------------------------------------------------------------

section ReadUpTo

variable {fuel : Nat} {seen : Array Instruction} {c : Cursor} {f : Fault}

/-- Reading ends where nothing lies ahead. -/
theorem readUpTo_of_end (h : c.ahead = []) : readUpTo fuel seen c = .ok seen c := by
  cases fuel with
  | zero => rfl
  | succ fuel =>
    have hmore : Reader.hasMore c = .ok false c := Reader.hasMore_eq_ok.mpr ⟨by simp [h], rfl⟩
    rw [readUpTo, bind_of_ok _ hmore]
    rfl

/-- Where something lies ahead, an instruction is read before the others. -/
theorem readUpTo_succ (h : c.ahead ≠ []) :
    readUpTo (fuel + 1) seen c = (read >>= fun i => readUpTo fuel (seen.push i)) c := by
  have hmore : Reader.hasMore c = .ok true c := Reader.hasMore_eq_ok.mpr ⟨by simp [h], rfl⟩
  rw [readUpTo, bind_of_ok _ hmore]
  rfl

/-- Decoding with fuel for what lies ahead succeeds with the instructions that tile it. -/
theorem readUpTo_eq_ok {as : Array Instruction} (hfuel : c.left ≤ fuel) :
    (∃ d, readUpTo fuel seen c = .ok as d) ↔
      ∃ is, as.toList = seen.toList ++ is ∧ Tiled c.pos c.ahead is := by
  -- an instruction has a byte at least, so there is fuel for all of them
  induction fuel generalizing c seen with
  | zero =>
    have hahead : c.ahead = [] := Cursor.ahead_eq_nil (Nat.le_zero.mp hfuel)
    rw [readUpTo_of_end hahead, hahead]
    simp [tiled_nil, Array.toList_inj, eq_comm]
  | succ fuel ih =>
    by_cases hahead : c.ahead = []
    · rw [readUpTo_of_end hahead, hahead]
      simp [tiled_nil, Array.toList_inj, eq_comm]
    · rw [readUpTo_succ hahead]
      cases hread : read c with
      | error f d =>
        rw [bind_of_error _ hread]
        simp [not_tiled_of_fault hread hahead]
      | ok i d =>
        obtain ⟨bs, hlaid, hpasses⟩ := read_eq_ok.mp hread
        have hpos := hlaid.length_pos
        have hleft := hpasses.left
        rw [bind_of_ok _ hread, ih (by omega)]
        simp only [tiled_of_read hread, Array.toList_push, List.append_assoc, List.singleton_append]
        constructor
        · rintro ⟨is, has, htiled⟩
          exact ⟨i :: is, has, is, rfl, htiled⟩
        · rintro ⟨_, has, is, rfl, htiled⟩
          exact ⟨is, has, htiled⟩

open Walk in
/-- Decoding with fuel for what lies ahead fails with the fault that a walk comes to. -/
theorem readUpTo_eq_error (hfuel : c.left ≤ fuel) :
    (∃ d, readUpTo fuel seen c = .error f d) ↔ ∃ is, Reaches c is (.error f) := by
  -- the fault is at the first instruction or behind it
  induction fuel generalizing c seen with
  | zero =>
    have hahead : c.ahead = [] := Cursor.ahead_eq_nil (Nat.le_zero.mp hfuel)
    simp [readUpTo_of_end hahead, not_reaches_end hahead]
  | succ fuel ih =>
    by_cases hahead : c.ahead = []
    · simp [readUpTo_of_end hahead, not_reaches_end hahead]
    · rw [readUpTo_succ hahead]
      cases hread : read c with
      | error e d =>
        rw [bind_of_error _ hread]
        constructor
        · rintro ⟨_, hfault⟩
          obtain ⟨rfl, rfl⟩ := EStateM.Result.error.inj hfault
          exact ⟨[], reaches_nil.mpr ((itemAt_of_fault hread hahead).mpr rfl)⟩
        · rintro ⟨_ | ⟨i, is⟩, hreaches⟩
          · obtain rfl := Except.error.inj
              ((itemAt_of_fault hread hahead).mp (reaches_nil.mp hreaches))
            exact ⟨d, rfl⟩
          · exact absurd hreaches (not_reaches_cons_of_fault hread)
      | ok i d =>
        obtain ⟨bs, hlaid, hpasses⟩ := read_eq_ok.mp hread
        have hpos := hlaid.length_pos
        have hleft := hpasses.left
        rw [bind_of_ok _ hread, ih (by omega)]
        constructor
        · rintro ⟨is, hreaches⟩
          exact ⟨i :: is, (reaches_cons_of_read hread).mpr ⟨rfl, hreaches⟩⟩
        · rintro ⟨_ | ⟨j, is⟩, hreaches⟩
          · cases (itemAt_of_read hread).mp (reaches_nil.mp hreaches)
          · exact ⟨is, ((reaches_cons_of_read hread).mp hreaches).2⟩

end ReadUpTo

/-- Decoding a code array at once succeeds with the instructions that tile it. -/
theorem run_readAll_eq_ok {code : Bytes} {as : Array Instruction} :
    Reader.run readAll code = .ok as ↔ Tiled 0 code as.toList := by
  rw [Reader.run_eq_ok]
  refine (readUpTo_eq_ok (c := Cursor.ofBytes code) (Nat.le_refl _)).trans ?_
  simp [Cursor.ofBytes]

/-- It fails with the fault that a walk comes to. -/
theorem run_readAll_eq_error {code : Bytes} {f : Fault} :
    Reader.run readAll code = .error f ↔
      ∃ is, Walk.Reaches (Cursor.ofBytes code) is (.error f) := by
  rw [Reader.run_eq_error]
  exact readUpTo_eq_error (c := Cursor.ofBytes code) (Nat.le_refl _)

end Instruction

namespace Walk

open Instruction

-- ---------------------------------------------------------------------------
-- Calls
-- ---------------------------------------------------------------------------

/-- What a call for the next item returns, and the walk that it leaves. A walk that
has ended stays as it is. -/
def call (w : Walk) : Option (Except Fault Instruction) × Walk :=
  match w.next? with
  | some (item, w') => (some item, w')
  | none => (none, w)

/-- What the first calls return. -/
def calls : (n : Nat) → Walk → List (Option (Except Fault Instruction))
  | 0, _ => []
  | n + 1, w => w.call.1 :: calls n w.call.2

/-- The number of bytes that a walk may still read. -/
def left (w : Walk) : Nat := if w.failed then 0 else w.cursor.left

/-- A call that returns an item takes a byte at least, or ends the walk. -/
theorem left_of_next {w w' : Walk} {item : Except Fault Instruction}
    (h : w.next? = some (item, w')) : w'.left < w.left := by
  obtain ⟨c, failed⟩ := w
  unfold next? at h
  -- either an instruction has been passed, or the walk has failed and is over
  split at h
  · cases h
  · rename_i hgoes
    rw [Bool.or_eq_true, decide_eq_true_eq, not_or, Bool.not_eq_true] at hgoes
    obtain ⟨rfl, hmore⟩ := hgoes
    have hle := c.pos_le
    split at h
    · rename_i i d hread
      obtain ⟨rfl, rfl⟩ := Prod.mk.inj (Option.some.inj h)
      obtain ⟨bs, hlaid, hpasses⟩ := read_eq_ok.mp hread
      have hpos := hlaid.length_pos
      have hleft : c.left = bs.length + d.left := hpasses.left
      show d.left < c.left
      omega
    · obtain ⟨rfl, rfl⟩ := Prod.mk.inj (Option.some.inj h)
      show 0 < c.left
      have hsize : c.pos ≠ c.size := hmore
      unfold Cursor.left
      omega

/-- A walk that has ended has no more items. -/
theorem itemsOnto_of_end {fuel : Nat} {w : Walk} (h : w.next? = none) :
    (itemsOnto fuel #[] w).toList = [] := by
  cases fuel with
  | zero => rfl
  | succ fuel => rw [itemsOnto, h]

/-- A walk with fuel for what it may read yields its items, and then nothing for
however many calls. -/
theorem calls_eq {fuel : Nat} {w : Walk} (hfuel : w.left ≤ fuel) (n : Nat) :
    calls n w = ((itemsOnto fuel #[] w).toList.map some).take n ++
      List.replicate (n - (itemsOnto fuel #[] w).toList.length) none := by
  induction n generalizing fuel w with
  | zero => simp [calls]
  | succ n ih =>
    -- a walk that is over answers every further call in the same way
    cases hnext : w.next? with
    | none =>
      have hcall : w.call = (none, w) := by rw [call, hnext]
      have hothers := ih hfuel
      rw [itemsOnto_of_end hnext] at hothers ⊢
      rw [calls, hcall, hothers]
      simp [List.replicate_succ]
    | some p =>
      obtain ⟨item, w'⟩ := p
      have hcall : w.call = (some item, w') := by rw [call, hnext]
      have hleft := left_of_next hnext
      obtain ⟨fuel, rfl⟩ : ∃ k, fuel = k + 1 := ⟨fuel - 1, by omega⟩
      have hothers := ih (Nat.lt_succ_iff.mp (Nat.lt_of_lt_of_le hleft hfuel))
      rw [calls, hcall, items_of_next hnext, hothers]
      simp

/-- Each item takes one of the fuel. -/
theorem length_itemsOnto_le (fuel : Nat) (w : Walk) :
    (itemsOnto fuel #[] w).toList.length ≤ fuel := by
  induction fuel generalizing w with
  | zero => exact Nat.le_refl 0
  | succ fuel ih =>
    cases hnext : w.next? with
    | none =>
      rw [itemsOnto_of_end hnext]
      exact Nat.zero_le _
    | some p =>
      rw [items_of_next hnext]
      exact Nat.succ_le_succ (ih p.2)

/-- A walk that has come to a fault has ended. -/
theorem next?_of_failed {w : Walk} (h : w.failed = true) : w.next? = none := by
  simp [next?, h]

/-- A fault is the last item that a walk yields. -/
theorem failed_of_next {w w' : Walk} {f : Fault} (h : w.next? = some (.error f, w')) :
    w'.failed = true := by
  unfold next? at h
  split at h
  · cases h
  · split at h
    · cases h
    · cases h
      rfl

/-- No item comes behind a fault. -/
theorem eq_nil_of_fault {fuel : Nat} {w : Walk} {before after : List (Except Fault Instruction)}
    {f : Fault} (h : (itemsOnto fuel #[] w).toList = before ++ .error f :: after) :
    after = [] := by
  induction fuel generalizing w before with
  | zero => simp [itemsOnto] at h
  | succ fuel ih =>
    cases hnext : w.next? with
    | none =>
      rw [itemsOnto_of_end hnext] at h
      simp at h
    | some p =>
      obtain ⟨item, w'⟩ := p
      rw [items_of_next hnext] at h
      -- where the fault is the first item, the walk has failed
      cases before with
      | nil =>
        obtain ⟨rfl, hafter⟩ := List.cons.inj h
        rw [← hafter, itemsOnto_of_end (next?_of_failed (failed_of_next hnext))]
      | cons first before => exact ih (List.cons.inj h).2

/-- Where a walk comes to a fault there is an instruction that cannot be read. -/
theorem fault_of_itemAt {c : Cursor} {f : Fault} (h : ItemAt c (.error f)) :
    ∃ d, c.ahead ≠ [] ∧ read c = .error f d := by
  have hmore : c.ahead ≠ [] := fun hend => not_itemAt_end hend h
  cases hread : read c with
  | ok i d => cases (itemAt_of_read hread).mp h
  | error e d =>
    obtain rfl := Except.error.inj ((itemAt_of_fault hread hmore).mp h)
    exact ⟨d, hmore, rfl⟩

-- ---------------------------------------------------------------------------
-- Both ways of decoding
-- ---------------------------------------------------------------------------

/-- Decoding at once and walking come to the same. If it succeeds, the
instructions follow one another from the start to the end of the code array, so
that each byte is in one of them, and a walk yields them. If it fails, a walk
yields the instructions that tile the bytes before the one that cannot be read,
and then the fault. In any case a walk has at most as many items as there are
bytes; it yields them when it is called, and nothing afterwards. -/
theorem agrees_with_readAll (code : Bytes) :
    (match Reader.run readAll code with
      | .ok is =>
        Tiled 0 code is.toList ∧ Consecutive 0 code.length is.toList ∧
        (∀ p < code.length, ∃! k : Nat, ∃ i, is[k]? = some i ∧ i.Covers p) ∧
        (items code).toList = is.toList.map .ok
      | .error fault =>
        ∃ is, ∃ c d : Cursor, c.data = code ∧ c.pos < code.length ∧ read c = .error fault d ∧
          Tiled 0 (code.take c.pos) is ∧ Consecutive 0 c.pos is ∧
          (items code).toList = is.map .ok ++ [.error fault]) ∧
    (items code).size ≤ code.length ∧
    ∀ n, calls n (start code) = ((items code).toList.map some).take n ++
      List.replicate (n - (items code).size) none := by
  refine ⟨?_, length_itemsOnto_le code.length (start code), calls_eq (Nat.le_refl _)⟩
  cases hread : Reader.run readAll code with
  | ok is =>
    have htiled := run_readAll_eq_ok.mp hread
    have hconsecutive := htiled.consecutive
    rw [Nat.zero_add] at hconsecutive
    refine ⟨htiled, hconsecutive, fun p hp => ?_, items_eq_iff.mpr htiled⟩
    simpa using hconsecutive.existsUnique_covers (Nat.zero_le p) hp
  | error fault =>
    obtain ⟨is, hreaches⟩ := run_readAll_eq_error.mp hread
    obtain ⟨after, hitems⟩ := (itemsOnto_append_iff (c := Cursor.ofBytes code)
      (Nat.le_refl _)).mpr hreaches
    obtain rfl := eq_nil_of_fault hitems
    obtain ⟨c, rfl, htiled, hitem⟩ := items_append_iff.mp ⟨[], hitems⟩
    obtain ⟨d, hmore, hfault⟩ := fault_of_itemAt hitem
    -- the fault lies at an instruction, so not at the end
    have hlt : c.pos < c.data.length := by
      rw [← c.size_eq]
      exact Nat.lt_of_le_of_ne c.pos_le fun hend => hmore (pos_eq_size_iff.mp hend)
    have hconsecutive := htiled.consecutive
    rw [Nat.zero_add, List.length_take, Nat.min_eq_left (Nat.le_of_lt hlt)] at hconsecutive
    exact ⟨is, c, d, rfl, hlt, hfault, htiled, hconsecutive, hitems⟩

/-- A code array with a widened increment and a switch that has padding. -/
def switchBytes : Bytes :=
  [0x03, 0xC4, 0x84, 1, 0, 0, 5, 0x03, 0xAA, 0, 0, 0, 0, 0, 0, 20, 0, 0, 0, 7, 0, 0, 0, 7, 0, 0,
    0, 20, 0xB1]

/-- The padding belongs to the switch, and a walk ends behind the fifth instruction. -/
theorem agrees_with_readAll_switchBytes :
    let is : Array Instruction := #[⟨0, 1, 0x03, false, .none⟩,
      ⟨1, 6, 0x84, true, .increment 256 5⟩, ⟨7, 1, 0x03, false, .none⟩,
      ⟨8, 20, 0xAA, false, .tableSwitch 20 7 7 #[20]⟩, ⟨28, 1, 0xB1, false, .none⟩]
    Reader.run readAll switchBytes = .ok is ∧ Consecutive 0 29 is.toList ∧
      (∃! k : Nat, ∃ i, is[k]? = some i ∧ i.Covers 10) ∧
      calls 7 (start switchBytes) = is.toList.map (fun i => some (.ok i)) ++ [none, none] := by
  intro is
  have hread : Reader.run readAll switchBytes = .ok is := by decide +kernel
  have hagree := agrees_with_readAll switchBytes
  rw [hread] at hagree
  obtain ⟨⟨-, hconsecutive, hcovered, hitems⟩, -, hcalls⟩ := hagree
  have hseven := hcalls 7
  rw [← Array.length_toList, hitems] at hseven
  exact ⟨hread, hconsecutive, hcovered 10 (by decide), hseven⟩

/-- A `return`, an opcode that does not exist, and nothing more, whatever comes behind. -/
example : calls 4 (start [0xB1, 0xCB, 0xB1]) =
    [some (.ok ⟨0, 1, 0xB1, false, .none⟩), some (.error (.malformed (.opcode 0xCB))), none,
      none] := by
  decide +kernel

end Walk

end Backref
