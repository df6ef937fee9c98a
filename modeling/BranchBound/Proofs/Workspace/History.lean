import BranchBound.Proofs.Workspace.Evolution

/-!
# Hashes do not depend on history

Tasks are carried out one after another.  As long as a model keeps its seed, its cache is coherent
after all of them, and so it gives the weights of its seed; a row that was made from a list of terms
has its indices in order, and so none of them lies behind the weights that are drawn.

What hashing gives is therefore a value of the object and the seed, whatever was done before: which
objects were hashed, how many weights were asked for, and how bounds were branched on, fixed or
reset.

Main results:

- Theorem `Workspace.coherent_after`: a model that keeps its seed has a coherent cache.
- Theorem `Workspace.sorted_after`: a row that was made from terms has its indices in order.
- Theorem `Workspace.hashes_of_history`: weights and hashes are those of the seed.
-/

namespace BranchBound

/-- Whether a task makes an object from fields. -/
def Task.constructs : Task → Bool
  | newObject _ _ => true
  | _ => false

theorem Task.exists_of_constructs {t : Task} (h : t.constructs = true) :
    ∃ kind fields, t = newObject kind fields := by
  cases t with
  | newObject kind fields => exact ⟨kind, fields, rfl⟩
  | _ => cases h

namespace Workspace

/-- The workspace after some steps. -/
def after (w : Workspace) : List Step → Workspace
  | [] => w
  | s :: steps => (w.perform s).2.after steps

/-- Whether something holds before and after each of some steps. -/
def Throughout (P : Workspace → Prop) (w : Workspace) : List Step → Prop
  | [] => P w
  | s :: steps => P w ∧ Throughout P (w.perform s).2 steps

/-- Whether a reference is to an object that one of some steps made from fields. -/
def Constructs (w : Workspace) (id : Nat) : List Step → Prop
  | [] => False
  | s :: steps =>
    (s.task.constructs = true ∧ w.store.objects.size = id ∧
        id < (w.perform s).2.store.objects.size) ∨
      (w.perform s).2.Constructs id steps

/-- Whether the model of a reference, if there is one, has a seed. -/
def HasSeed (modelId : Nat) (seed : Int) (w : Workspace) : Prop :=
  ∀ m ∈ w.store.models[modelId]?, m.weights.seed = seed

instance decidableThroughout {P : Workspace → Prop} [DecidablePred P] (w : Workspace) :
    (steps : List Step) → Decidable (w.Throughout P steps)
  | [] => inferInstanceAs (Decidable (P w))
  | s :: steps =>
    have := decidableThroughout (P := P) (w.perform s).2 steps
    inferInstanceAs (Decidable (P w ∧ _))

instance decidableConstructs (w : Workspace) (id : Nat) :
    (steps : List Step) → Decidable (w.Constructs id steps)
  | [] => inferInstanceAs (Decidable False)
  | s :: steps =>
    have := decidableConstructs (w.perform s).2 id steps
    inferInstanceAs (Decidable (_ ∨ _))

instance (modelId : Nat) (seed : Int) : DecidablePred (HasSeed modelId seed) := fun w =>
  inferInstanceAs (Decidable (∀ m ∈ w.store.models[modelId]?, m.weights.seed = seed))

theorem Throughout.now {P : Workspace → Prop} {w : Workspace} {steps : List Step}
    (h : w.Throughout P steps) : P w := by
  cases steps with
  | nil => exact h
  | cons s steps => exact h.1

theorem Throughout.finally {P : Workspace → Prop} {w : Workspace} {steps : List Step}
    (h : w.Throughout P steps) : P (w.after steps) := by
  induction steps generalizing w with
  | nil => exact h
  | cons s steps ih => exact ih h.2

/-! ## What a run keeps -/

/-- A model that keeps its seed has a coherent cache. -/
theorem coherent_after {w : Workspace} {modelId : Nat} {seed : Int} {steps : List Step}
    (hseed : w.Throughout (HasSeed modelId seed) steps)
    (hw : ∀ m, w.store.models[modelId]? = some m → m.weights.Coherent) :
    ∀ m, (w.after steps).store.models[modelId]? = some m → m.weights.Coherent := by
  induction steps generalizing w with
  | nil => exact hw
  | cons s steps ih =>
    refine ih hseed.2 ?_
    intro m hm
    apply (evolves_perform w s).coherent modelId m hm
    intro m₀ hm₀
    refine ⟨hw m₀ hm₀, ?_⟩
    rw [hseed.now m₀ hm₀, hseed.2.now m hm]

/-- An object keeps its terms. -/
theorem terms_after {w : Workspace} {id : Nat} {o : Object} (ho : w.store.objects[id]? = some o)
    (steps : List Step) :
    ∃ o', (w.after steps).store.objects[id]? = some o' ∧ o'.terms = o.terms := by
  induction steps generalizing w o with
  | nil => exact ⟨o, ho, rfl⟩
  | cons s steps ih =>
    have hevolves := evolves_perform w s
    have hlt : id < (w.perform s).2.store.objects.size :=
      Nat.lt_of_lt_of_le (Array.getElem?_eq_some_iff.1 ho).1 hevolves.objects_le
    have ho₁ := Array.getElem?_eq_getElem hlt
    rcases ih ho₁ with ⟨o', ho', hterms⟩
    exact ⟨o', ho', hterms.trans (hevolves.terms id _ ho₁ o ho)⟩

end Workspace

/-- A new object has its indices in order. -/
theorem Object.sorted_of_build {kind : Kind} {fields : Fields} {o : Object}
    (h : build kind fields = .ok o) : o.terms.1.Pairwise (· ≤ ·) := by
  unfold build at h
  split at h
  · cases kind with
    | solution => cases h
    | entity | primal | dual =>
      rcases exists_of_map_eq_ok h with ⟨e, -, rfl⟩
      exact List.Pairwise.nil
    | column =>
      rcases exists_of_bind_eq_ok h with ⟨e, -, hdone⟩
      cases hdone
      exact List.Pairwise.nil
    | row =>
      rcases exists_of_bind_eq_ok h with ⟨e, -, h⟩
      rcases exists_of_bind_eq_ok h with ⟨indices, -, h⟩
      rcases exists_of_bind_eq_ok h with ⟨coefficients, -, h⟩
      rcases exists_of_bind_eq_ok h with ⟨r, hterms, hdone⟩
      cases hdone
      unfold Row.ofTerms at hterms
      split at hterms <;> cases hterms
      exact List.pairwise_map.2 (Row.sortTerms_sorted _)
  · cases h

namespace Workspace

/-- A step that makes an object from fields makes one with its indices in order. -/
theorem sorted_of_perform {w : Workspace} {s : Step} {kind : Kind} {fields : Fields}
    (htask : s.task = .newObject kind fields)
    (hgrown : w.store.objects.size < (w.perform s).2.store.objects.size) :
    ∃ o, (w.perform s).2.store.objects[w.store.objects.size]? = some o ∧
      o.terms.1.Pairwise (· ≤ ·) := by
  cases hrefs : w.references s with
  | error name =>
    rw [perform_of_unknown hrefs] at hgrown
    exact absurd hgrown (Nat.lt_irrefl _)
  | ok refs =>
    rw [store_perform hrefs, htask] at hgrown ⊢
    cases hbuild : Object.build kind fields with
    | error fault =>
      rw [Task.run, hbuild, Action.run_bind_of_error (Action.run_ofExcept _ w)] at hgrown
      exact absurd hgrown (Nat.lt_irrefl _)
    | ok o =>
      rw [Task.run, hbuild, Action.run_bind_of_ok (Action.run_ofExcept _ w)]
      exact ⟨o, Array.getElem?_push_size, Object.sorted_of_build hbuild⟩

/-- A row that was made from terms has its indices in order. -/
theorem sorted_after {w : Workspace} {id : Nat} {steps : List Step} (h : w.Constructs id steps) :
    ∃ o, (w.after steps).store.objects[id]? = some o ∧ o.terms.1.Pairwise (· ≤ ·) := by
  induction steps generalizing w with
  | nil => exact h.elim
  | cons s steps ih =>
    rcases h with ⟨hconstructs, rfl, hgrown⟩ | hlater
    · rcases Task.exists_of_constructs hconstructs with ⟨kind, fields, htask⟩
      rcases sorted_of_perform htask hgrown with ⟨o, ho, hsorted⟩
      rcases terms_after ho steps with ⟨o', ho', hterms⟩
      exact ⟨o', ho', by rwa [hterms]⟩
    · exact ih hlater

end Workspace

/-! ## Weights and hashes -/

namespace Workspace

/-- Where the weights of a reference to a model come from. -/
def weightsOf (w : Workspace) : Option Handle → WeightSource
  | none => .standard
  | some (.model id) => (w.store.models[id]?).elim .absent fun m => .cache m.weights
  | some _ => .absent

/-- Whether a model gives the weights that are drawn for a seed without a cache, and no others. -/
structure GivesWeights (w : Workspace) (modelId seed : Nat) : Prop where
  /-- Where the weights can be drawn, and the model has room for them, they are given. -/
  given : ∀ n uncached, Weights.stream n seed = .ok uncached →
    (w.weightsOf (some (.model modelId))).HasRoom n →
    ∃ w', ((Task.model (.weights n)).run { self := some (.model modelId) }).run w =
      (.ok { answer := .reals uncached.toList }, w')
  /-- Where the model has no room for them, nothing is given. -/
  refused : ∀ n, ¬ (w.weightsOf (some (.model modelId))).HasRoom n →
    ∃ w', ((Task.model (.weights n)).run { self := some (.model modelId) }).run w =
      (.error .noRoom, w')
  /-- Whatever is given, are those weights. -/
  only : ∀ n outcome w', 0 ≤ n →
    ((Task.model (.weights n)).run { self := some (.model modelId) }).run w = (.ok outcome, w') →
      outcome.answer = .reals (Weights.ofSeed n.toNat seed).toList
  /-- At every position stands the weight that is drawn by itself. -/
  single : ∀ n uncached, Weights.stream n seed = .ok uncached → ∀ k, k < uncached.size →
    uncached.toList[k]? = some (Weights.nth seed k)

/-- Whether renewing the hash of an object gives the value for a seed, unless there is no room for
the weights that it takes. -/
def Rehashes (w : Workspace) (id : Nat) (o : Object) (model : Option Handle) (seed : Nat) : Prop :=
  let run := ((Task.object .rehash).run { self := some (.object id), model }).run w
  (∃ w', run = (.ok {}, w') ∧ w'.store.objects[id]? =
      some (o.mapHeader fun e => { e with hash := o.identity.hash seed })) ∨
    ¬ (w.weightsOf model).HasRoom o.identity.demand ∧ ∃ w', run = (.error .noRoom, w')

variable {w : Workspace}

theorem weightsOf_model {modelId : Nat} {m : Model} (hm : w.store.models[modelId]? = some m) :
    w.weightsOf (some (.model modelId)) = .cache m.weights := by
  rw [weightsOf, hm, Option.elim_some]

/-- The workspace with another cache in a model. -/
def withCache (w : Workspace) (modelId : Nat) (m : Model) (weights : WeightCache) : Workspace :=
  { w with
    store := { w.store with models := w.store.models.setIfInBounds modelId { m with weights } } }

theorem models_withCache {modelId : Nat} {m : Model} (hm : w.store.models[modelId]? = some m)
    (weights : WeightCache) :
    (w.withCache modelId m weights).store.models[modelId]? = some { m with weights } :=
  Array.getElem?_setIfInBounds_self_of_lt (Array.getElem?_eq_some_iff.1 hm).1

/-- An action on the weights of a model gives what it gives from its cache, and changes nothing but
the cache. -/
theorem run_onWeights {α : Type} {modelId : Nat} {m : Model}
    (hm : w.store.models[modelId]? = some m) (x : Action WeightSource α) :
    (onWeights (some (.model modelId)) x).run w = ((x.run (.cache m.weights)).1,
      w.withCache modelId m ((x.run (.cache m.weights)).2.cache?.getD m.weights)) := by
  have hmodel : (Store.model modelId).run w.store = (.ok m, w.store) := by
    simp only [Store.model, hm]
  rw [onWeights, run_onStore, Store.onWeights, Action.run_bind_of_ok hmodel]
  rfl

theorem run_weights {modelId : Nat} {m : Model} (hm : w.store.models[modelId]? = some m)
    (n : Int) :
    ((Task.model (.weights n)).run { self := some (.model modelId) }).run w =
      ((((WeightCache.weights n).run m.weights).1.map Weights.toList).map
          fun xs => { answer := .reals xs },
        w.withCache modelId m ((WeightCache.weights n).run m.weights).2) := by
  have hself : (Handle.modelId (some (.model modelId))).run w = (.ok modelId, w) := rfl
  have hrun := run_onWeights hm (WeightSource.weights n)
  rw [onWeights, WeightSource.run_weights_cache] at hrun
  rw [Task.run, ModelTask.run, Action.run_bind_of_ok hself, Action.run_bind_of_ok (run_model hm)]
  dsimp only
  rw [Action.run_bind, hrun]
  cases ((WeightCache.weights n).run m.weights).1 with
  | error fault => rfl
  | ok ws => rfl

/-- A model with a coherent cache gives the weights of its seed. -/
theorem givesWeights_of_coherent {modelId seed : Nat} {m : Model}
    (hm : w.store.models[modelId]? = some m) (hcoherent : m.weights.Coherent)
    (hseed : m.weights.seed = seed) : w.GivesWeights modelId seed := by
  have hnonneg : 0 ≤ m.weights.seed := by omega
  have hnat : m.weights.seed.toNat = seed := by omega
  have hsource := weightsOf_model hm
  constructor
  · intro n uncached hstream hroom
    rw [hsource] at hroom
    rcases Weights.stream_eq_ok_iff.1 hstream with ⟨hn, -, -, rfl⟩
    rcases hcoherent.run_weights hnonneg hn with
      ⟨-, ws, c', hrun, -, -, hsize, hbegins⟩ | ⟨hnone, -⟩
    · rw [hnat] at hbegins
      rw [run_weights hm, hrun, Int.toNat_natCast, ← hsize, ← hbegins.toList_eq]
      exact ⟨_, rfl⟩
    · exact absurd hroom hnone
  · intro n hroom
    rw [hsource] at hroom
    rw [run_weights hm, WeightCache.run_weights_of_no_room hnonneg hroom]
    exact ⟨_, rfl⟩
  · intro n outcome w' hn houtcome
    rw [run_weights hm] at houtcome
    rcases hcoherent.run_weights hnonneg hn with
      ⟨-, ws, c', hrun, -, -, hsize, hbegins⟩ | ⟨-, hrun⟩
    · rw [hnat] at hbegins
      rw [hrun] at houtcome
      cases houtcome
      rw [← hsize, ← hbegins.toList_eq]
    · rw [hrun] at houtcome
      cases houtcome
  · intro n uncached hstream k hk
    rcases Weights.stream_eq_ok_iff.1 hstream with ⟨-, -, -, rfl⟩
    rw [Weights.getElem?_toList hk, Weights.begins_ofSeed _ _ k hk, Int.toNat_natCast]

theorem run_rehash {id : Nat} {o : Object} (ho : w.store.objects[id]? = some o)
    (model : Option Handle) :
    ((Task.object .rehash).run { self := some (.object id), model }).run w =
      (ObjectTask.rehashWith id o model).run w := by
  have hself : (Handle.objectId (some (.object id))).run w = (.ok id, w) := rfl
  rw [Task.run, ObjectTask.run, Action.run_bind_of_ok hself, Action.run_bind_of_ok (run_object ho)]

/-- Hashing with the weights of a source that serves a seed gives the value for the seed. -/
theorem rehashes_of_serves {id seed : Nat} {o : Object} {model : Option Handle}
    {source : WeightSource} {w' : Workspace} (ho : w.store.objects[id]? = some o)
    (hascending : o.identity.Ascending) (hserves : source.Serves seed)
    (hrun : (onWeights model o.hashing).run w = ((o.hashing.run source).1, w'))
    (hkept : w'.store.objects = w.store.objects)
    (henough : (w.weightsOf model).HasRoom o.identity.demand → source.HasRoom o.identity.demand) :
    w.Rehashes id o model seed := by
  unfold Rehashes
  rw [run_rehash ho, ObjectTask.rehashWith]
  rcases Object.run_hashing hascending hserves with ⟨source', hhash, -⟩ | ⟨hroom, hhash⟩
  · rw [hhash] at hrun
    rw [Action.run_bind_of_ok hrun]
    left
    refine ⟨_, rfl, ?_⟩
    have hlt := (Array.getElem?_eq_some_iff.1 ho).1
    exact Array.getElem?_setIfInBounds_self_of_lt (by rwa [hkept])
  · rw [hhash] at hrun
    rw [Action.run_bind_of_error hrun]
    exact Or.inr ⟨fun h => hroom (henough h), w', rfl⟩

/-- Hashing against a model with a coherent cache gives the value for its seed. -/
theorem rehashes_of_coherent {id modelId seed : Nat} {o : Object} {m : Model}
    (ho : w.store.objects[id]? = some o) (hascending : o.identity.Ascending)
    (hm : w.store.models[modelId]? = some m) (hcoherent : m.weights.Coherent)
    (hseed : m.weights.seed = seed) : w.Rehashes id o (some (.model modelId)) seed := by
  have hserves : (WeightSource.cache m.weights).Serves seed := ⟨hcoherent, hseed⟩
  refine rehashes_of_serves ho hascending hserves (run_onWeights hm o.hashing) rfl ?_
  rw [weightsOf_model hm]
  exact fun h => h

/-- Hashing without a model gives the value for the default seed. -/
theorem rehashes_of_standard {id : Nat} {o : Object} (ho : w.store.objects[id]? = some o)
    (hascending : o.identity.Ascending) : w.Rehashes id o none Weights.defaultSeed.toNat := by
  have hserves : WeightSource.standard.Serves Weights.defaultSeed.toNat := by
    unfold WeightSource.Serves
    decide
  have hrun : (onWeights none o.hashing).run w = ((o.hashing.run .standard).1, w) := rfl
  exact rehashes_of_serves ho hascending hserves hrun rfl fun h => h

/-- Weights and hashes are those of the seed, whatever was done before. -/
theorem hashes_of_history {steps : List Step} {modelId seed : Nat} {m : Model}
    (hm : (initial.after steps).store.models[modelId]? = some m)
    (hseed : initial.Throughout (HasSeed modelId seed) steps) :
    (initial.after steps).GivesWeights modelId seed ∧
      ∀ id o, (initial.after steps).store.objects[id]? = some o →
        (∀ r, o = .row r → initial.Constructs id steps ∧ ∀ i ∈ r.indices, 0 ≤ i) →
          (initial.after steps).Rehashes id o (some (.model modelId)) seed ∧
          (initial.after steps).Rehashes id o none Weights.defaultSeed.toNat := by
  have hcoherent : m.weights.Coherent := by
    refine coherent_after hseed ?_ m hm
    intro m₀ h
    cases h
  have hfinal : m.weights.seed = seed := hseed.finally m hm
  refine ⟨givesWeights_of_coherent hm hcoherent hfinal, ?_⟩
  intro id o ho hrow
  have hascending : o.identity.Ascending := by
    cases o with
    | entity e | primal e | dual e | column c => trivial
    | row r =>
      rcases hrow r rfl with ⟨hmade, hnonneg⟩
      rcases sorted_after hmade with ⟨o', ho', hsorted⟩
      rw [ho, Option.some.injEq] at ho'
      subst ho'
      exact ⟨hsorted, hnonneg⟩
  exact ⟨rehashes_of_coherent ho hascending hm hcoherent hfinal,
    rehashes_of_standard ho hascending⟩

/-- A run in which weights are drawn for a row and for a column, which is branched on between. -/
def sharedRun : List Step := [
  { task := .newModel [(.seed, .integer 7)], result := some "model" },
  { task := .newObject .column {}, result := some "column" },
  { task := .newObject .row
      { indices := some (.sequence [.integer 3]), coefficients := some (.sequence [.integer 2]) },
    result := some "row" },
  { task := .model .place, self := some "model", source := some "column" },
  { task := .object .rehash, self := some "column", model := some "model" },
  { task := .model (.weights 2), self := some "model" },
  { task := .object .rehash, self := some "row", model := some "model" },
  { task := .newBranch 0 (-1) .nothing ⟨.integer 0, .integer 0⟩ ⟨.integer 1, .integer 1⟩,
    result := some "branch" },
  { task := .apply .nothing, self := some "column", source := some "branch" },
  { task := .object .fix, self := some "column", model := some "model" },
  { task := .object .resetBounds, self := some "column" },
  { task := .model (.weights 9), self := some "model" }]

theorem hashes_of_history_sharedRun :
    ∃ m o, (initial.after sharedRun).store.models[0]? = some m ∧
      (initial.after sharedRun).store.objects[1]? = some o ∧ o.terms.1 = [3] ∧
      (initial.after sharedRun).GivesWeights 0 7 ∧
      (initial.after sharedRun).Rehashes 1 o (some (.model 0)) 7 ∧
      (initial.after sharedRun).Rehashes 1 o none Weights.defaultSeed.toNat := by
  have hseed : initial.Throughout (HasSeed 0 7) sharedRun := by decide +kernel
  have hconstructs : initial.Constructs 1 sharedRun := by decide +kernel
  have hmodel : (initial.after sharedRun).store.models[0]?.isSome = true := by decide +kernel
  have hindices : (initial.after sharedRun).store.objects[1]?.map (·.terms.1) = some [3] := by
    decide +kernel
  rcases Option.isSome_iff_exists.1 hmodel with ⟨m, hm⟩
  rcases Option.map_eq_some_iff.1 hindices with ⟨o, ho, hterms⟩
  rcases hashes_of_history hm hseed with ⟨hweights, hhashes⟩
  refine ⟨m, o, hm, ho, hterms, hweights, hhashes 1 o ho ?_⟩
  rintro r rfl
  refine ⟨hconstructs, ?_⟩
  change r.indices = [3] at hterms
  rw [hterms]
  decide

end Workspace

end BranchBound
