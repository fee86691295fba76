import Backref.Proofs.Constant.Chains
import Backref.Proofs.Faults

/-!
# Look-ups that fail

A look-up in a pool fails for want of a constant, or because there is one of
the wrong kind. Both are malformations; it never runs out of data.
-/

namespace Backref

/-- A look-up fails in one way only: the class file is malformed. -/
def OnlyMalformed {α : Type} (v : Except Fault α) : Prop :=
  ∀ f, v = .error f → ∃ cause, f = .malformed cause

namespace OnlyMalformed

variable {α β : Type}

theorem ok (a : α) : OnlyMalformed (.ok a) := RefusesWith.pure a

theorem error (cause : Malformation) : OnlyMalformed (.error (.malformed cause) : Except Fault α) :=
  RefusesWith.error ⟨cause, rfl⟩

theorem bind {v : Except Fault α} {g : α → Except Fault β} (hv : OnlyMalformed v)
    (hg : ∀ a, OnlyMalformed (g a)) : OnlyMalformed (v >>= g) := RefusesWith.bind hv hg

variable (pool : ConstantPool) (i : UInt16)

/-- Asking for a constant fails only as malformed input. -/
theorem get : OnlyMalformed (pool.get i) := by
  unfold ConstantPool.get
  split
  · exact ok _
  · exact error _

/-- A chain breaks with a malformation, wherever it does. -/
theorem of_decidedBy {pool : ConstantPool} {stops : List ConstantPool.Stop} {v : Except Fault α}
    (h : pool.DecidedBy stops v) : OnlyMalformed v := by
  cases hbreak : pool.firstBreak stops with
  | none =>
    obtain ⟨a, rfl⟩ := (ConstantPool.decidedBy_of_none hbreak).mp h
    exact ok a
  | some t =>
    rw [(ConstantPool.decidedBy_of_some hbreak).mp h]
    unfold ConstantPool.faultAt
    split
    · exact error _
    · exact error _

theorem utf8 : OnlyMalformed (pool.utf8 i) := of_decidedBy (ConstantPool.decidedBy_utf8 i)

theorem className : OnlyMalformed (pool.className i) :=
  of_decidedBy (ConstantPool.decidedBy_className i)

theorem memberRef : OnlyMalformed (pool.memberRef i) :=
  of_decidedBy (ConstantPool.decidedBy_memberRef i)

theorem methodHandle : OnlyMalformed (pool.methodHandle i) :=
  of_decidedBy (ConstantPool.decidedBy_methodHandle i)

theorem methodType : OnlyMalformed (pool.methodType i) :=
  of_decidedBy (ConstantPool.decidedBy_methodType i)

theorem callSite : OnlyMalformed (pool.callSite i) :=
  of_decidedBy (ConstantPool.decidedBy_callSite i)

end OnlyMalformed

end Backref
