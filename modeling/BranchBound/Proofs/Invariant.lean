import BranchBound.Action

/-!
# Invariants of actions

An action ensures something of its results, and keeps an invariant of the state, if it does so from
every state in which the invariant holds.  The invariant is kept even where the action fails, since
a failed action leaves a state as well.

Main results:

- Theorem `Action.Ensures.bind`: what the first action ensures can be used in the second.
- Theorem `Action.Ensures.within`: an invariant of a part is one of the whole.
-/

namespace BranchBound

namespace Action

variable {σ τ α β : Type} {P : σ → Prop} {Q : α → Prop} {R : β → Prop}

/-- An action keeps an invariant, and all its results have a property. -/
def Ensures (P : σ → Prop) (x : Action σ α) (Q : α → Prop) : Prop :=
  ∀ s, P s → P (x.run s).2 ∧ ∀ a, (x.run s).1 = .ok a → Q a

/-- An action keeps an invariant. -/
def Keeps (P : σ → Prop) (x : Action σ α) : Prop := ∀ s, P s → P (x.run s).2

theorem Ensures.keeps {x : Action σ α} (h : Ensures P x Q) : Keeps P x := by
  intro s hs
  exact (h s hs).1

theorem Keeps.ensures {x : Action σ α} (h : Keeps P x) : Ensures P x fun _ => True := by
  intro s hs
  exact ⟨h s hs, fun _ _ => trivial⟩

theorem keeps_pure (a : α) : Keeps P (pure a) := by
  intro s hs
  exact hs

theorem keeps_fail (fault : Fault) : Keeps P (fail fault : Action σ α) := by
  intro s hs
  exact hs

theorem ensures_state : Ensures P state P := by
  intro s hs
  refine ⟨hs, ?_⟩
  intro s' h
  cases h
  exact hs

theorem keeps_update {f : σ → σ} (h : ∀ s, P s → P (f s)) : Keeps P (update f) := h

theorem ensures_ofExcept {x : Except Fault α} (h : ∀ a, x = .ok a → Q a) :
    Ensures P (ofExcept x) Q := by
  intro s hs
  exact ⟨hs, h⟩

theorem keeps_ofExcept (x : Except Fault α) : Keeps P (ofExcept x) := by
  intro s hs
  exact hs

/-- What the first action ensures can be used in the second. -/
theorem Ensures.bind {x : Action σ α} {f : α → Action σ β} (hx : Ensures P x Q)
    (hf : ∀ a, Q a → Ensures P (f a) R) : Ensures P (x >>= f) R := by
  intro s hs
  rcases hx s hs with ⟨hkept, hresult⟩
  rw [run_bind]
  rcases hrun : x.run s with ⟨result, s'⟩
  rw [hrun] at hkept hresult
  cases result with
  | error fault =>
    refine ⟨hkept, ?_⟩
    intro b hb
    cases hb
  | ok a => exact hf a (hresult a rfl) s' hkept

theorem Ensures.bind_keeps {x : Action σ α} {f : α → Action σ β} (hx : Ensures P x Q)
    (hf : ∀ a, Q a → Keeps P (f a)) : Keeps P (x >>= f) :=
  (hx.bind fun a ha => (hf a ha).ensures).keeps

theorem Keeps.bind {x : Action σ α} {f : α → Action σ β} (hx : Keeps P x)
    (hf : ∀ a, Keeps P (f a)) : Keeps P (x >>= f) :=
  hx.ensures.bind_keeps fun a _ => hf a

/-- An invariant of a part is one of the whole, if the whole is put together again. -/
theorem Ensures.within {P' : τ → Prop} {part : σ → τ} {put : τ → σ → σ} {x : Action τ α}
    (hx : Ensures P' x Q) (hpart : ∀ s, P s → P' (part s))
    (hput : ∀ s t, P s → P' t → P (put t s)) : Ensures P (x.within part put) Q := by
  intro s hs
  rcases hx (part s) (hpart s hs) with ⟨hkept, hresult⟩
  rw [run_within]
  exact ⟨hput s _ hs hkept, hresult⟩

end Action

end BranchBound
