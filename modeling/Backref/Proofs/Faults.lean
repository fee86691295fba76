import Backref.Bytes.Reader
import Backref.Proofs.Outcome

/-!
# Faults of one kind

What is put together from parts that fail with faults of one kind only fails
with such a fault itself.

Main results:

* `FailsWith.bind`, `RefusesWith.bind` — one computation after another;
* `FailsWith.run` — a reader over a byte string of its own.
-/

namespace Backref

/-- A computation with a state fails with faults of one kind only. -/
def FailsWith {σ α : Type} (P : Fault → Prop) (x : EStateM Fault σ α) : Prop :=
  ∀ s s' fault, x s = .error fault s' → P fault

/-- A computation without a state fails with faults of one kind only. -/
def RefusesWith {α : Type} (P : Fault → Prop) (x : Except Fault α) : Prop :=
  ∀ fault, x = .error fault → P fault

namespace FailsWith

variable {σ α β : Type} {P : Fault → Prop} {x : EStateM Fault σ α}

theorem pure (a : α) : FailsWith P (Pure.pure a : EStateM Fault σ α) := by
  intro s s' fault h
  cases h

/-- A fault is what a computation fails with when it gives up. -/
theorem throw {fault : Fault} (h : P fault) :
    FailsWith P (MonadExcept.throw fault : EStateM Fault σ α) := by
  intro s s' fault' hthrow
  cases hthrow
  exact h

/-- A sequence fails with the faults of its parts. -/
theorem bind {f : α → EStateM Fault σ β} (hx : FailsWith P x) (hf : ∀ a, FailsWith P (f a)) :
    FailsWith P (x >>= f) := by
  intro s s' fault h
  rcases bind_eq_error.mp h with hfirst | ⟨a, between, -, hrest⟩
  · exact hx s s' fault hfirst
  · exact hf a between s' fault hrest

/-- What fails with some faults fails with more of them. -/
theorem mono {Q : Fault → Prop} (hx : FailsWith P x) (h : ∀ fault, P fault → Q fault) :
    FailsWith Q x :=
  fun s s' fault herror => h fault (hx s s' fault herror)

end FailsWith

namespace RefusesWith

variable {α β : Type} {P : Fault → Prop} {x : Except Fault α}

theorem pure (a : α) : RefusesWith P (Pure.pure a : Except Fault α) := by
  intro fault h
  cases h

/-- An outcome that is a fault has no other. -/
theorem error {fault : Fault} (h : P fault) : RefusesWith P (.error fault : Except Fault α) := by
  intro fault' herror
  cases herror
  exact h

/-- A sequence of outcomes is refused as its parts are. -/
theorem bind {f : α → Except Fault β} (hx : RefusesWith P x) (hf : ∀ a, RefusesWith P (f a)) :
    RefusesWith P (x >>= f) := by
  intro fault h
  cases x with
  | ok a => exact hf a fault h
  | error fault' =>
    cases h
    exact hx fault rfl

/-- An outcome is refused as what it is made from. -/
theorem map {f : α → β} (hx : RefusesWith P x) : RefusesWith P (f <$> x) := by
  intro fault h
  cases x with
  | ok a => cases h
  | error fault' =>
    cases h
    exact hx fault rfl

end RefusesWith

/-- A reader over a byte string of its own fails as it does anywhere. -/
theorem FailsWith.run {α : Type} {P : Fault → Prop} {r : Reader α} (hr : FailsWith P r)
    (bytes : Bytes) : RefusesWith P (r.run bytes) := by
  intro fault h
  unfold Reader.run at h
  split at h
  · cases h
  · rename_i f d herror
    cases h
    exact hr _ _ _ herror

end Backref
