import BranchBound.Fault

/-!
# Actions on a state

An action reads and changes a state and may fail.  It leaves a state either way, so what an
action did before it failed stays done: bytes already written stay written and bytes already read
stay read.

Main results:

- `Action.run_bind`: a failed action runs nothing after it and keeps the state it failed in.
- `Action.run_within`: an action on a part of a state leaves the rest alone.
-/

namespace BranchBound

/-- An action on a state of type `σ` with a result of type `α`. -/
structure Action (σ α : Type) where
  /-- What the action gives from a state, and the state that it leaves. -/
  run : σ → Except Fault α × σ

namespace Action

variable {σ τ α β : Type}

/-- The action that only gives a result. -/
protected def pure (a : α) : Action σ α := ⟨fun s => (.ok a, s)⟩

/-- One action and, if it succeeds, another. -/
protected def bind (x : Action σ α) (f : α → Action σ β) : Action σ β :=
  ⟨fun s =>
    match x.run s with
    | (.ok a, s') => (f a).run s'
    | (.error e, s') => (.error e, s')⟩

instance : Monad (Action σ) where
  pure := Action.pure
  bind := Action.bind

/-- The action that fails. -/
def fail (e : Fault) : Action σ α := ⟨fun s => (.error e, s)⟩

/-- The state. -/
def state : Action σ σ := ⟨fun s => (.ok s, s)⟩

/-- Changes the state. -/
def update (f : σ → σ) : Action σ Unit := ⟨fun s => (.ok (), f s)⟩

/-- The result of a computation that has no state. -/
def ofExcept (x : Except Fault α) : Action σ α := ⟨fun s => (x, s)⟩

/-- An action on a part of the state. -/
def within (part : σ → τ) (put : τ → σ → σ) (x : Action τ α) : Action σ α :=
  ⟨fun s => let (r, t) := x.run (part s); (r, put t s)⟩

@[simp] theorem run_pure (a : α) (s : σ) : (pure a : Action σ α).run s = (.ok a, s) := rfl

@[simp] theorem run_fail (e : Fault) (s : σ) :
    (fail e : Action σ α).run s = (.error e, s) := rfl

@[simp] theorem run_state (s : σ) : (state : Action σ σ).run s = (.ok s, s) := rfl

@[simp] theorem run_update (f : σ → σ) (s : σ) : (update f).run s = (.ok (), f s) := rfl

@[simp] theorem run_ofExcept (x : Except Fault α) (s : σ) : (ofExcept x).run s = (x, s) := rfl

/-- A failed action runs nothing after it and keeps the state it failed in. -/
theorem run_bind (x : Action σ α) (f : α → Action σ β) (s : σ) :
    (x >>= f).run s =
      match x.run s with
      | (.ok a, s') => (f a).run s'
      | (.error e, s') => (.error e, s') := rfl

/-- After a success the second action goes on in the state that the first left. -/
@[simp] theorem run_bind_of_ok {x : Action σ α} {f : α → Action σ β} {s s' : σ} {a : α}
    (h : x.run s = (.ok a, s')) : (x >>= f).run s = (f a).run s' := by
  rw [run_bind, h]

/-- After a failure nothing else runs. -/
@[simp] theorem run_bind_of_error {x : Action σ α} {f : α → Action σ β} {s s' : σ} {e : Fault}
    (h : x.run s = (.error e, s')) : (x >>= f).run s = (.error e, s') := by
  rw [run_bind, h]

/-- An action on a part of the state leaves the rest alone. -/
theorem run_within (part : σ → τ) (put : τ → σ → σ) (x : Action τ α) (s : σ) :
    (x.within part put).run s = ((x.run (part s)).1, put (x.run (part s)).2 s) := rfl

end Action

end BranchBound
