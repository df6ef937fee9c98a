import BranchBound.Proofs.Workspace.Upkeep

/-!
# What tasks leave as it was

Whatever is done in a workspace, nothing that is alive goes away, an object keeps its terms, and a
model whose cache is coherent keeps a coherent cache as long as it keeps its seed.

Main results:

- Theorem `Task.evolves`: all that a task can do to the store.
- Theorem `Workspace.evolves_perform`: the same for a step.
-/

namespace BranchBound

namespace Store

/-- Whether an object has the terms of the one that had its reference. -/
def KeepsTerms (s : Store) (id : Nat) (o : Object) : Prop :=
  ∀ o₀, s.objects[id]? = some o₀ → o.terms = o₀.terms

/-- Whether the model of a reference, if there is one, had a coherent cache for a seed. -/
def Vouches (s : Store) (id : Nat) (seed : Int) : Prop :=
  ∀ m, s.models[id]? = some m → m.weights.Coherent ∧ m.weights.seed = seed

/-- Whether a store can be what later became of a store. -/
structure Evolves (s s' : Store) : Prop where
  objects_le : s.objects.size ≤ s'.objects.size
  models_le : s.models.size ≤ s'.models.size
  terms : ∀ id o, s'.objects[id]? = some o → s.KeepsTerms id o
  coherent : ∀ id m, s'.models[id]? = some m →
    s.Vouches id m.weights.seed → m.weights.Coherent

theorem KeepsTerms.of_eq {s : Store} {id : Nat} {o o' : Object} (h : s.KeepsTerms id o)
    (heq : o'.terms = o.terms) : s.KeepsTerms id o' := by
  intro o₀ h₀
  rw [heq, h o₀ h₀]

theorem Evolves.refl (s : Store) : s.Evolves s where
  objects_le := Nat.le_refl _
  models_le := Nat.le_refl _
  terms := by
    intro id o h o₀ h₀
    rw [h, Option.some.injEq] at h₀
    rw [h₀]
  coherent := by
    intro id m h hvouched
    exact (hvouched m h).1

/-- What is required of a store that evolved: old objects with their terms, and coherent caches
where they were coherent for the seeds that there are. -/
def evolution (s : Store) : Requirement where
  objects := s.objects.size
  models := s.models.size
  object := s.KeepsTerms
  model id m := s.Vouches id m.weights.seed → m.weights.Coherent
  new_object := by
    intro id o hle o₀ h₀
    have hlt := (Array.getElem?_eq_some_iff.1 h₀).1
    exact absurd hle (Nat.not_le.2 hlt)
  new_model _ hcoherent _ _ := hcoherent
  revised ho hrevised := ho.of_eq hrevised.terms
  changed hm hweights _ := by rwa [hweights]
  drawn hm hkept := hkept _ hm

theorem blind_evolution (s : Store) : s.evolution.Blind where
  header e ho := ho.of_eq (Object.terms_setHeader e _)
  members _ hm := hm

theorem evolves_iff {s s' : Store} : s.Evolves s' ↔ s.evolution.Met s' :=
  ⟨fun h => ⟨h.objects_le, h.models_le, h.terms, h.coherent⟩,
    fun h => ⟨h.objects_le, h.models_le, h.object, h.model⟩⟩

end Store

/-! ## Tasks

Setting a seed is the exception: it keeps a cache coherent only if the seed is the one that the
model had before the task.
-/

/-- A model that gets the seed that it has keeps its cache. -/
theorem ModelTask.evolves_of_set_seed (d : Datum) (refs : References) (w : Workspace) :
    w.store.Evolves (((set .seed d).run refs).run w).2.store := by
  unfold run
  rcases Handle.modelId_cases refs.self with hfail | ⟨id, hid⟩
  · rw [hfail]
    exact Store.Evolves.refl _
  · rw [hid, Action.run_bind_of_ok (Action.run_pure id w)]
    cases hm : w.store.models[id]? with
    | none =>
      rw [Action.run_bind_of_error (Workspace.run_model_of_none hm)]
      exact Store.Evolves.refl _
    | some m =>
      rw [Action.run_bind_of_ok (Workspace.run_model hm)]
      dsimp only
      have hread := Action.run_ofExcept (m.setField .seed d) w
      cases hset : m.setField .seed d with
      | error fault =>
        rw [hset] at hread
        rw [Action.run_bind_of_error hread]
        exact Store.Evolves.refl _
      | ok m' =>
        rw [hset] at hread
        rw [Action.run_bind_of_ok hread, Store.evolves_iff]
        refine keeps_setModel ?_ w (Store.evolves_iff.1 (Store.Evolves.refl w.store))
        intro hvouched
        rcases hvouched m hm with ⟨hcoherent, hseed⟩
        unfold WeightCache.Coherent at hcoherent ⊢
        rwa [Model.drawn_of_setField hset, ← hseed]

/-- All that a task can do to the store. -/
theorem Task.evolves (t : Task) (refs : References) (w : Workspace) :
    w.store.Evolves ((t.run refs).run w).2.store := by
  by_cases hseed : ∃ d, t = .model (.set .seed d)
  · rcases hseed with ⟨d, rfl⟩
    exact ModelTask.evolves_of_set_seed d refs w
  · have hkept := t.keeps (fun d hd => hseed ⟨d, hd⟩) (Or.inr w.store.blind_evolution) refs
    exact Store.evolves_iff.2 (hkept w (Store.evolves_iff.1 (Store.Evolves.refl w.store)))

/-- All that a step can do to the store. -/
theorem Workspace.evolves_perform (w : Workspace) (s : Step) :
    w.store.Evolves (w.perform s).2.store := by
  cases hrefs : w.references s with
  | error name =>
    rw [perform_of_unknown hrefs]
    exact Store.Evolves.refl w.store
  | ok refs =>
    rw [store_perform hrefs]
    exact s.task.evolves refs w

end BranchBound
