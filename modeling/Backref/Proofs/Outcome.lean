import Backref.Bytes.BigEndian

/-!
# Outcomes

Readers, encoders and searches are all computations with a state that may
fail. This module says once how such a computation comes to succeed: a
sequence succeeds when its parts do, one after the other.

Main results:

* `bind_eq_ok` — a sequence succeeds through an intermediate value and state;
* `bind_eq_error` — a sequence fails in one of its parts;
* `ofExcept_eq_ok` — an outcome without a state, taken up in a computation with one;
* `except_bind_eq_ok` — the same for computations without a state.
-/

namespace Backref

variable {ε σ α β : Type}

-- ---------------------------------------------------------------------------
-- With a state
-- ---------------------------------------------------------------------------

/-- A sequence succeeds exactly through a value and a state of its first part. -/
theorem bind_eq_ok {x : EStateM ε σ α} {f : α → EStateM ε σ β} {s t : σ} {b : β} :
    (x >>= f) s = .ok b t ↔ ∃ a u, x s = .ok a u ∧ f a u = .ok b t := by
  show EStateM.bind x f s = _ ↔ _
  unfold EStateM.bind
  -- the first part decides whether there is a value to go on with
  cases x s with
  | ok a u =>
    constructor
    · exact fun h => ⟨a, u, rfl, h⟩
    · rintro ⟨a', u', h, hf⟩
      cases h
      exact hf
  | error e u =>
    constructor
    · intro h
      cases h
    · rintro ⟨_, _, h, _⟩
      cases h

/-- A sequence fails in its first part, or in its second part after the first. -/
theorem bind_eq_error {x : EStateM ε σ α} {f : α → EStateM ε σ β} {s t : σ} {e : ε} :
    (x >>= f) s = .error e t ↔ x s = .error e t ∨ ∃ a u, x s = .ok a u ∧ f a u = .error e t := by
  show EStateM.bind x f s = _ ↔ _
  unfold EStateM.bind
  -- a fault of the first part is final; otherwise only the second part can fail
  cases x s with
  | ok a u =>
    constructor
    · intro h
      exact .inr ⟨a, u, rfl, h⟩
    · rintro (h | ⟨a', u', h, hf⟩)
      · cases h
      · cases h
        exact hf
  | error e' u =>
    show EStateM.Result.error e' u = _ ↔ _
    constructor
    · intro h
      cases h
      exact .inl rfl
    · rintro (h | ⟨_, _, h, -⟩)
      · cases h
        rfl
      · cases h

/-- Behind a part that succeeds, a sequence goes on with its value and state. -/
theorem bind_of_ok {x : EStateM ε σ α} {s u : σ} {a : α} (f : α → EStateM ε σ β)
    (h : x s = .ok a u) : (x >>= f) s = f a u := by
  show EStateM.bind x f s = _
  rw [EStateM.bind, h]

/-- A sequence ends where its first part fails. -/
theorem bind_of_error {x : EStateM ε σ α} {s u : σ} {e : ε} (f : α → EStateM ε σ β)
    (h : x s = .error e u) : (x >>= f) s = .error e u := by
  show EStateM.bind x f s = _
  rw [EStateM.bind, h]

/-- What goes on from the same outcome comes to the same. -/
theorem bind_of_eq {x y : EStateM ε σ α} {s t : σ} (f : α → EStateM ε σ β) (h : x s = y t) :
    (x >>= f) s = (y >>= f) t := by
  show EStateM.bind x f s = EStateM.bind y f t
  rw [EStateM.bind, EStateM.bind, h]

/-- A value succeeds as itself and leaves the state. -/
theorem pure_eq_ok {a b : α} {s t : σ} :
    (pure a : EStateM ε σ α) s = .ok b t ↔ a = b ∧ s = t := by
  show EStateM.Result.ok a s = _ ↔ _
  rw [EStateM.Result.ok.injEq]

/-- A fault is no success. -/
theorem throw_ne_ok {e : ε} {s t : σ} {b : α} :
    (throw e : EStateM ε σ α) s ≠ .ok b t := by
  intro h
  cases h

/-- Going on with an outcome succeeds if the outcome is a value, and leaves the state. -/
theorem ofExcept_eq_ok {v : Except ε α} {a : α} {s t : σ} :
    (MonadExcept.ofExcept v : EStateM ε σ α) s = .ok a t ↔ v = .ok a ∧ s = t := by
  cases v with
  | ok b =>
    show (pure b : EStateM ε σ α) s = _ ↔ _
    rw [pure_eq_ok, Except.ok.injEq]
  | error e =>
    constructor
    · exact fun h => absurd h throw_ne_ok
    · rintro ⟨h, -⟩
      cases h

-- ---------------------------------------------------------------------------
-- Without a state
-- ---------------------------------------------------------------------------

/-- A sequence without a state succeeds exactly through a value of its first part. -/
theorem except_bind_eq_ok {x : Except ε α} {f : α → Except ε β} {b : β} :
    (x >>= f) = .ok b ↔ ∃ a, x = .ok a ∧ f a = .ok b := by
  -- without a value of the first part there is nothing to go on with
  cases x with
  | ok a =>
    constructor
    · exact fun h => ⟨a, rfl, h⟩
    · rintro ⟨a', h, hf⟩
      cases h
      exact hf
  | error e =>
    constructor
    · intro h
      cases h
    · rintro ⟨_, h, _⟩
      cases h

theorem except_ok_bind (a : α) (f : α → Except ε β) : (.ok a >>= f) = f a := rfl

/-- A value succeeds as itself. -/
theorem except_pure_eq_ok {a b : α} : (pure a : Except ε α) = .ok b ↔ a = b := by
  show Except.ok a = _ ↔ _
  rw [Except.ok.injEq]

end Backref
