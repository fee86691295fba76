import Backref.Proofs.Assembly.Builder
import Backref.Proofs.ClassFile.Accepted

/-!
# Where a class file ends

A class file says of each of its parts how many entries or bytes it has, so a
reader of class files finds the end of its last attribute by itself, and a
builder writes nothing behind it. The bytes up to there decide what is read:
whatever follows does not count, and where one of them is missing the reader
runs out of bytes. What is wrong in bytes that are there does not become right
by more of them.

Main result:

* `ClassFile.self_delimiting_ofBytes` — class files that go on or are cut off.
-/

namespace Backref

open Reader Cursor

/-- What a builder writes is read to its end. -/
theorem ClassBuilder.read_of_finish {name : String} {calls : List ClassCall} {b : ClassBuilder}
    {data : Bytes} (hcalls : performAll calls (.new name) = .ok b)
    (hbytes : b.finish = .ok data) :
    ∃ c e, ClassFile.read (.ofBytes data) = .ok c e ∧ e.pos = data.length := by
  obtain ⟨l, pool, hreads, -⟩ := reads_classFile hcalls hbytes
  obtain ⟨e, hpasses, -⟩ := ofBytes_passes data
  exact ⟨_, e, hreads _ e hpasses, hpasses.pos.trans (Nat.zero_add _)⟩

namespace ClassFile

/-- A byte string that is read as a class file has a part at its start that is
the whole class file, up to its last attribute. Every byte string that starts
with this part is read as the same class file, and every shorter part has too
few bytes. What a builder writes is read, and it is this part and no more. A
byte string that is refused for anything but its end is refused for that however
it goes on. -/
theorem self_delimiting_ofBytes (data : Bytes) :
    (∀ c, ofBytes data = .ok c → ∃ n ≤ data.length,
      (∃ x : ClassFrame, x.Fits ∧ x.Holds c ∧ data.take n = x.bytes) ∧
      (∀ other : Bytes, other.take n = data.take n → ofBytes other = .ok c) ∧
      (∀ k < n, ofBytes (data.take k) = .error .outOfBounds) ∧
      ∀ name calls b, ClassBuilder.performAll calls (.new name) = .ok b →
        b.finish = .ok data → n = data.length) ∧
    (∀ name calls b, ClassBuilder.performAll calls (.new name) = .ok b →
      b.finish = .ok data → (∃ c, ofBytes data = .ok c) ∧
        ∀ k < data.length, ofBytes (data.take k) = .error .outOfBounds) ∧
    ∀ f, ofBytes data = .error f → f ≠ .outOfBounds →
      ∀ more, ofBytes (data ++ more) = .error f := by
  refine ⟨fun c h => ?_, fun name calls b hcalls hbytes => ?_, fun f h hf more => ?_⟩
  · obtain ⟨e, hread⟩ := run_eq_ok.mp h
    obtain ⟨hle, -⟩ := selfDelimiting_read.reads_take hread
    obtain ⟨x, hfits, hholds, hpasses⟩ := ClassFrame.exists_of_read hread
    refine ⟨e.pos, hle, ⟨x, hfits, hholds, ?_⟩, fun other hother => ?_, fun k hk => ?_, ?_⟩
    · have hdata : data = x.bytes ++ e.ahead := hpasses.ahead
      have hpos : e.pos = x.bytes.length := hpasses.pos.trans (Nat.zero_add _)
      rw [hpos, hdata, List.take_left]
    · exact selfDelimiting_read.run_of_prefix hread (hother ▸ List.take_prefix _ other)
    · exact selfDelimiting_read.run_take hread hk
    · intro name calls b hcalls hbytes
      obtain ⟨c', e', hread', hend⟩ := ClassBuilder.read_of_finish hcalls hbytes
      obtain ⟨-, rfl⟩ := EStateM.Result.ok.inj (hread.symm.trans hread')
      exact hend
  · obtain ⟨c, e, hread, hend⟩ := ClassBuilder.read_of_finish hcalls hbytes
    exact ⟨⟨c, run_eq_ok.mpr ⟨e, hread⟩⟩, fun k hk =>
      selfDelimiting_read.run_take hread (hend ▸ hk)⟩
  · exact selfDelimiting_read.run_append_of_error h hf more

/-- The small class that a builder has written, with whatever follows it and cut
off anywhere; and a byte string that no class file starts with. -/
theorem self_delimiting_loadingBytes :
    (∃ c, (∀ more, ofBytes (ClassSpec.loadingBytes ++ more) = .ok c) ∧
      ∀ k < ClassSpec.loadingBytes.length,
        ofBytes (ClassSpec.loadingBytes.take k) = .error .outOfBounds) ∧
    ∀ more, ofBytes ([0xDE, 0xAD, 0xBE, 0xEF] ++ more) = .error (.magic 0xDEADBEEF) := by
  have hassembled := ClassSpec.assemble_loadingClass
  rw [ClassSpec.assemble_eq_performAll] at hassembled
  obtain ⟨b, hcalls, hbytes⟩ := except_bind_eq_ok.mp hassembled
  obtain ⟨haccepted, hwritten, -⟩ := self_delimiting_ofBytes ClassSpec.loadingBytes
  obtain ⟨⟨c, hread⟩, hshorter⟩ := hwritten _ _ b hcalls hbytes
  obtain ⟨n, -, -, hlonger, -, hend⟩ := haccepted c hread
  obtain rfl := hend _ _ b hcalls hbytes
  refine ⟨⟨c, fun more => hlonger _ ?_, hshorter⟩, ?_⟩
  · rw [List.take_left, List.take_length]
  · have hmagic : ofBytes [0xDE, 0xAD, 0xBE, 0xEF] = .error (.magic 0xDEADBEEF) := by
      decide +kernel
    obtain ⟨-, -, hrefused⟩ := self_delimiting_ofBytes [0xDE, 0xAD, 0xBE, 0xEF]
    exact hrefused _ hmagic (by decide)

end ClassFile

end Backref
