import Backref.Proofs.Constant.Layout
import Backref.Proofs.Constant.Links

/-!
# The slots of a pool

Each constant of a pool has the slot after those of the constants before it, and
a wide one also the slot behind. A pool that has been read answers accordingly:
it finds a constant at its first slot, and nothing at index 0, behind a wide
constant, and from its size on.

Main results:

* `ConstantPool.mem_toList`, `ConstantPool.toList_of_slots` — the constants by their slots;
* `ConstantPool.answers_of_slots` — what a pool answers;
* `ConstantPool.read_layout` — what is read from laid out constants, and from nothing else.
-/

namespace Backref

open Cursor

namespace Constant

/-- Constants in order with their first slots, of which the first is given. -/
def placed : (first : Nat) → List Constant → List (Nat × Constant)
  | _, [] => []
  | first, k :: ks => (first, k) :: placed (first + k.slots) ks

/-- Longs and doubles are the wide constants. -/
theorem Kind.isWide_iff {kind : Kind} : kind.isWide = true ↔ kind ∈ [.long, .double] := by
  cases kind <;> decide

/-- An empty slot is the one behind a wide constant. -/
theorem getElem?_filled_eq_none {ks : List Constant} {n : Nat} :
    (ks.flatMap filled)[n]? = some none ↔
      ∃ m k, n = m + 1 ∧ (ks.flatMap filled)[m]? = some (some k) ∧ k.kind.isWide = true := by
  induction ks generalizing n with
  | nil => simp
  | cons first ks ih =>
    rw [List.flatMap_cons]
    cases hfirst : first.kind.isWide with
    | true =>
      rw [filled_of_wide hfirst]
      rcases n with _ | _ | n
      · simp
      · exact iff_of_true rfl ⟨0, first, rfl, rfl, hfirst⟩
      · refine (ih (n := n)).trans ⟨?_, ?_⟩
        · rintro ⟨m, k, rfl, hm, hwide⟩
          exact ⟨m + 2, k, rfl, hm, hwide⟩
        · rintro ⟨m, k, hn, hm, hwide⟩
          obtain rfl : m = n + 1 := by omega
          -- the slot of the first constant has an empty one behind, not before
          cases n with
          | zero => cases hm
          | succ n => exact ⟨n, k, rfl, hm, hwide⟩
    | false =>
      rw [filled_of_narrow hfirst]
      cases n with
      | zero => simp
      | succ n =>
        refine (ih (n := n)).trans ⟨?_, ?_⟩
        · rintro ⟨m, k, rfl, hm, hwide⟩
          exact ⟨m + 1, k, rfl, hm, hwide⟩
        · rintro ⟨m, k, hn, hm, hwide⟩
          obtain rfl : m = n := by omega
          cases m with
          | zero =>
            obtain rfl : first = k := by simpa using hm
            rw [hfirst] at hwide
            cases hwide
          | succ n => exact ⟨n, k, rfl, hm, hwide⟩

end Constant

namespace ConstantPool

variable {pool : ConstantPool} {ks : List Constant}

/-- A pool lists the constants that it holds. -/
theorem mem_toList {i : Nat} {k : Constant} :
    (i, k) ∈ pool.toList ↔ pool.slots[i]? = some (some k) := by
  simp [toList, List.mem_zipIdx_iff_getElem?]

/-- The slots that are filled give back the constants, each at the index of its first slot. -/
theorem filterMap_zipIdx_filled (ks : List Constant) (first : Nat) :
    ((ks.flatMap Constant.filled).zipIdx first).filterMap
      (fun (slot, index) => slot.map fun c => (index, c)) = Constant.placed first ks := by
  induction ks generalizing first with
  | nil => rfl
  | cons k ks ih =>
    rw [List.flatMap_cons, List.zipIdx_append, List.filterMap_append, k.length_filled, ih]
    cases hwide : k.kind.isWide with
    | true => simp [Constant.filled_of_wide hwide, Constant.placed]
    | false => simp [Constant.filled_of_narrow hwide, Constant.placed]

/-- A pool lists its constants in order, with their first slots. -/
theorem toList_of_slots (h : pool.slots.toList = none :: ks.flatMap Constant.filled) :
    pool.toList = Constant.placed 1 ks := by
  rw [toList, h, List.zipIdx_cons, List.filterMap_cons]
  exact filterMap_zipIdx_filled ks 1

/-- A pool answers for constants in order. -/
structure Answers (pool : ConstantPool) (ks : List Constant) : Prop where
  size : pool.size = 1 + (ks.flatMap Constant.filled).length
  toList : pool.toList = Constant.placed 1 ks
  get_eq_ok : ∀ i k, pool.get i = .ok k ↔ (i.toNat, k) ∈ Constant.placed 1 ks
  get_eq_error : ∀ i, pool.get i = .error (.malformed (.noConstant i pool.size)) ↔
    i = 0 ∨ (∃ first k, (first, k) ∈ Constant.placed 1 ks ∧ k.kind ∈ [.long, .double] ∧
      i.toNat = first + 1) ∨ pool.size ≤ i.toNat

/-- A pool has nothing at an empty slot, and nothing from its size on. -/
theorem get_eq_noConstant {i : UInt16} :
    pool.get i = .error (.malformed (.noConstant i pool.size)) ↔
      pool.slots[i.toNat]? = some none ∨ pool.size ≤ i.toNat := by
  unfold get size
  rw [← Array.getElem?_eq_none_iff]
  rcases pool.slots[i.toNat]? with _ | _ | k
  · simp
  · simp
  · simp

/-- The empty slots are that of index 0 and those behind wide constants. -/
theorem getElem?_slots_eq_none (h : pool.slots.toList = none :: ks.flatMap Constant.filled)
    {n : Nat} : pool.slots[n]? = some none ↔
      n = 0 ∨ ∃ first k, (first, k) ∈ pool.toList ∧ k.kind.isWide = true ∧ n = first + 1 := by
  simp only [mem_toList, ← Array.getElem?_toList, h]
  -- slot zero is empty by itself, any other one belongs to the constant before it
  cases n with
  | zero => simp
  | succ n =>
    rw [List.getElem?_cons_succ, Constant.getElem?_filled_eq_none]
    constructor
    · rintro ⟨m, k, rfl, hm, hwide⟩
      exact .inr ⟨m + 1, k, hm, hwide, rfl⟩
    · rintro (hzero | ⟨first, k, hk, hwide, hn⟩)
      · cases hzero
      · obtain rfl := Nat.succ.inj hn
        cases n with
        | zero => cases hk
        | succ m => exact ⟨m, k, rfl, hk, hwide⟩

/-- A pool whose slots are those of constants in order answers for them. -/
theorem answers_of_slots (h : pool.slots.toList = none :: ks.flatMap Constant.filled) :
    pool.Answers ks where
  size := size_eq_of_slots h
  toList := toList_of_slots h
  get_eq_ok i k := by rw [get_eq_ok, ← toList_of_slots h, mem_toList, Holds]
  get_eq_error i := by
    rw [get_eq_noConstant, getElem?_slots_eq_none h, or_assoc, toList_of_slots h,
      ← UInt16.toNat_inj, UInt16.toNat_zero]
    simp only [Constant.Kind.isWide_iff]

-- ---------------------------------------------------------------------------
-- Reading
-- ---------------------------------------------------------------------------

/-- A wide constant in the last slot is malformed. -/
theorem read_of_widePastEnd {bs last : Bytes} {k : Constant} {count : UInt16} {c d : Cursor}
    (hlaid : InOrder Constant.Laid ks bs) (hlast : Constant.Laid k last)
    (hwide : k.kind.isWide = true) (hcount : count.toNat = 2 + (ks.flatMap Constant.filled).length)
    (hpasses : c.Passes (FixedWidth.encode count ++ (bs ++ last)) d) :
    read c = .error (.malformed (.widePastEnd (count.toNat - 1))) d := by
  obtain ⟨m, hfirst, hpasses⟩ := passes_append.mp hpasses
  obtain ⟨m', hothers, hend⟩ := passes_append.mp hpasses
  -- the constants before it leave one slot, which is one too few
  have hsize : ((#[none] : Array (Option Constant)) ++ ks.flatMap Constant.filled).size =
      count.toNat - 1 := by
    rw [← Array.length_toList, Array.toList_appendList, List.length_append,
      List.length_singleton]
    omega
  have hmissing : (ks.flatMap Constant.filled).length + 1 = count.toNat - 1 := by omega
  have hzero : count ≠ 0 := by
    rintro rfl
    rw [UInt16.toNat_zero] at hcount
    omega
  have hfault : readSlots (count.toNat - 1) #[none] m =
      .error (.malformed (.widePastEnd (count.toNat - 1))) d := by
    rw [← hmissing, readSlots_of_laid hlaid hothers,
      readSlots_of_wide (Constant.reads_of_laid hlast _ m' d hend) hwide, hsize, hmissing]
  unfold read
  rw [bind_of_ok _ (Reader.int_eq_ok.mpr hfirst), if_neg hzero]
  exact bind_of_error _ hfault

/-- Where constants are laid out behind a count, in order and with as many slots as
the count leaves beside index 0, a pool is read that answers for them, up to the end of the
last constant. A pool is read from nothing else; in particular not where the last
constant is wide and has no slot but the last. -/
theorem read_layout (c : Cursor) :
    (∀ (ks : List Constant) (bs : Bytes) (count : UInt16) (d : Cursor),
      InOrder Constant.Laid ks bs → count.toNat = 1 + (ks.flatMap Constant.filled).length →
      c.Passes (FixedWidth.encode count ++ bs) d →
        ∃ pool, read c = .ok pool d ∧ pool.size = count.toNat ∧ pool.Answers ks) ∧
    (∀ (pool : ConstantPool) (d : Cursor), read c = .ok pool d →
      ∃ (ks : List Constant) (bs : Bytes) (count : UInt16), InOrder Constant.Laid ks bs ∧
        count.toNat = pool.size ∧ pool.Answers ks ∧
        c.Passes (FixedWidth.encode count ++ bs) d) ∧
    (∀ (ks : List Constant) (bs last : Bytes) (k : Constant) (count : UInt16) (d : Cursor),
      InOrder Constant.Laid ks bs → Constant.Laid k last → k.kind ∈ [.long, .double] →
      count.toNat = 2 + (ks.flatMap Constant.filled).length →
      c.Passes (FixedWidth.encode count ++ (bs ++ last)) d →
        read c = .error (.malformed (.widePastEnd (count.toNat - 1))) d) := by
  -- what is laid out is read, what is read was laid out, and the case that is neither
  refine ⟨?_, ?_, ?_⟩
  · intro ks bs count d hlaid hcount hpasses
    have hslots : (none :: ks.flatMap Constant.filled).toArray.toList =
        none :: ks.flatMap Constant.filled := rfl
    have hread := read_eq_ok.mpr ⟨ks, bs, count, hlaid, hcount, hslots, hpasses⟩
    have hanswers := answers_of_slots hslots
    exact ⟨_, hread, hanswers.size.trans hcount.symm, hanswers⟩
  · intro pool d hread
    obtain ⟨ks, bs, count, hlaid, hcount, hslots, hpasses⟩ := read_eq_ok.mp hread
    have hanswers := answers_of_slots hslots
    exact ⟨ks, bs, count, hlaid, hcount.trans hanswers.size.symm, hanswers, hpasses⟩
  · intro ks bs last k count d hlaid hlast hwide hcount hpasses
    exact read_of_widePastEnd hlaid hlast (Constant.Kind.isWide_iff.mpr hwide) hcount hpasses

/-- A long, a text and a number take four slots: the second of the long is empty, and the
byte behind them is left. Alone in the last slot, the long is malformed. -/
theorem read_layout_long :
    let long : Bytes := [5, 0, 0, 0, 0, 0, 0, 0, 42]
    let others : Bytes := [1, 0, 1, 0x78, 3, 0xFF, 0xFF, 0xFF, 0xFF]
    (∃ pool d, read (Cursor.ofBytes ([0, 5] ++ (long ++ others) ++ [0xAA])) = .ok pool d ∧
      d.ahead = [0xAA] ∧ pool.size = 5 ∧ pool.get 1 = .ok (.long 42) ∧
      pool.get 2 = .error (.malformed (.noConstant 2 5)) ∧ pool.get 3 = .ok (.utf8 "x") ∧
      pool.toList = [(1, .long 42), (3, .utf8 "x"), (4, .integer (-1))]) ∧
    ∃ d, read (Cursor.ofBytes ([0, 2] ++ long)) = .error (.malformed (.widePastEnd 1)) d := by
  intro long others
  have htext : Modified.decode [0x78] = .ok "x" := by decide +kernel
  have hlaid : InOrder Constant.Laid [.long 42, .utf8 "x", .integer (-1)] (long ++ others) :=
    InOrder.cons (Constant.Laid.long 42) (InOrder.cons (Constant.Laid.utf8 (by decide) htext)
      (InOrder.cons (Constant.Laid.integer (-1)) InOrder.nil))
  obtain ⟨d, hpasses, hahead⟩ := Cursor.exists_passes
    (c := Cursor.ofBytes ([0, 5] ++ (long ++ others) ++ [0xAA])) rfl
  obtain ⟨hread, -, -⟩ := read_layout (Cursor.ofBytes ([0, 5] ++ (long ++ others) ++ [0xAA]))
  obtain ⟨pool, hpool, hsize, hanswers⟩ := hread _ _ 5 d hlaid (by decide) hpasses
  -- the slot behind the long is empty
  have hbehind := (hanswers.get_eq_error 2).mpr
    (.inr (.inl ⟨1, .long 42, by decide, by decide, rfl⟩))
  rw [hsize] at hbehind
  obtain ⟨d', hpasses', -⟩ := Cursor.ofBytes_passes ([0, 2] ++ long)
  obtain ⟨-, -, hmalformed⟩ := read_layout (Cursor.ofBytes ([0, 2] ++ long))
  have hfault := hmalformed [] [] long (.long 42) 2 d' .nil (.long 42) (by decide) (by decide)
    hpasses'
  refine ⟨⟨pool, d, hpool, hahead, hsize, ?_, hbehind, ?_, hanswers.toList⟩, d', hfault⟩
  · exact (hanswers.get_eq_ok 1 _).mpr (by decide)
  · exact (hanswers.get_eq_ok 3 _).mpr (by decide)

end ConstantPool

end Backref
