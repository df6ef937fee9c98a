import BranchBound.Proofs.Weights.Reseeding
import BranchBound.Proofs.Workspace.History

/-!
# Hashes after a change of the seed

The seed of a model can be set at any time, and the weights that its cache holds are not thrown
away.  A model that was new answers every request, and hashes every object, with the weights of one
of two seeds: the one that it had at the last drawing, where there are enough of these weights, and
the present one, where there are not.

So after a change of the seed two objects can be hashed with the weights of two seeds, and which
ones these are depends on all the requests before.

Main results:

- Theorem `Workspace.holds_afterRequests`: what the cache of a model holds after requests.
- Theorem `Workspace.HoldsAt.givesWeights_iff`: a model gives the weights of its seed exactly if those
  that it holds are of this seed.
- Theorem `Workspace.stocks_afterRequests`: what a model answers after requests.
-/

namespace BranchBound

/-- The task of a request to a model. -/
def WeightRequest.task : WeightRequest → Task
  | weights n => .model (.weights n)
  | reseed seed => .model (.set .seed (.integer seed))

namespace Workspace

/-- The workspace after a request to a model. -/
def afterRequest (w : Workspace) (id : Nat) (r : WeightRequest) : Workspace :=
  ((r.task.run { self := some (.model id) }).run w).2

/-- The workspace after some requests to a model. -/
def afterRequests (w : Workspace) (id : Nat) (requests : List WeightRequest) : Workspace :=
  requests.foldl (afterRequest · id) w

/-- Whether the cache of a model holds what is said. -/
def HoldsAt (w : Workspace) (id : Nat) (h : Holding) : Prop :=
  ∃ m, w.store.models[id]? = some m ∧ m.weights.Holds h

/-- What a model with a stock of weights answers. -/
structure Stocks (w : Workspace) (id : Nat) (h : Holding) : Prop where
  /-- Weights are of the seed that the request meets, unless there is no room for them. -/
  weights : ∀ n : Nat, ∃ w',
    ((Task.model (.weights n)).run { self := some (.model id) }).run w =
      (if h.HasRoom n
        then .ok { answer := .reals (Weights.ofSeed n (h.seedFor n)).toList }
        else .error .noRoom, w')
  /-- Hashes are of the seed that the number of weights for them meets. -/
  hashes : ∀ objectId o, w.store.objects[objectId]? = some o → o.identity.Ascending →
    w.Rehashes objectId o (some (.model id)) (h.seedFor o.identity.demand)

variable {w : Workspace} {id : Nat} {m : Model} {h : Holding}

theorem reals_eq_reals {xs ys : List Binary64} :
    Answer.reals xs = Answer.reals ys ↔ xs = ys := by
  rw [Answer.reals, Answer.reals, Answer.list.injEq,
    List.map_inj_right fun _ _ heq => Answer.real.inj heq]

/-! ## What a request leaves -/

theorem run_reseed (hm : w.store.models[id]? = some m) (seed : Nat) :
    ((Task.model (.set .seed (.integer seed))).run { self := some (.model id) }).run w =
      (.ok {}, w.withCache id m { m.weights with seed }) := by
  have hself : (Handle.modelId (some (.model id))).run w = (.ok id, w) := rfl
  have hset : m.setField .seed (.integer seed) =
      .ok { m with weights := { m.weights with seed } } := by
    rw [Model.setField, Datum.toWhole_integer]
    rfl
  rw [Task.run, ModelTask.run, Action.run_bind_of_ok hself, Action.run_bind_of_ok (run_model hm)]
  dsimp only
  rw [hset, Action.run_bind_of_ok (Action.run_ofExcept _ w)]
  rfl

/-- A request changes what the cache holds, and no object. -/
theorem holds_afterRequest (hw : w.HoldsAt id h) (r : WeightRequest) :
    (w.afterRequest id r).HoldsAt id (h.next r) ∧
      (w.afterRequest id r).store.objects = w.store.objects := by
  rcases hw with ⟨m, hm, hc⟩
  cases r with
  | weights n =>
    rw [afterRequest, WeightRequest.task, run_weights hm]
    exact ⟨⟨_, models_withCache hm _, hc.after_weights n⟩, rfl⟩
  | reseed seed =>
    rw [afterRequest, WeightRequest.task, run_reseed hm]
    exact ⟨⟨_, models_withCache hm _, hc.reseed seed⟩, rfl⟩

/-- What the cache of a model holds after requests. -/
theorem holds_afterRequests (hw : w.HoldsAt id h) (requests : List WeightRequest) :
    (w.afterRequests id requests).HoldsAt id (h.after requests) ∧
      (w.afterRequests id requests).store.objects = w.store.objects := by
  induction requests generalizing w h with
  | nil => exact ⟨hw, rfl⟩
  | cons r requests ih =>
    rcases holds_afterRequest hw r with ⟨hnext, hkept⟩
    rcases ih hnext with ⟨hafter, hkept'⟩
    exact ⟨hafter, hkept'.trans hkept⟩

/-! ## What a model answers -/

/-- A model answers with the weights of the seed that a request meets. -/
theorem HoldsAt.stocks (hw : w.HoldsAt id h) : w.Stocks id h := by
  rcases hw with ⟨m, hm, hc⟩
  constructor
  · intro n
    rw [run_weights hm, hc.run_weights_natCast]
    split
    · exact ⟨_, rfl⟩
    · exact ⟨_, rfl⟩
  · intro objectId o ho hascending
    have hserves := hc.standIn_serves o.identity.demand
    have hrun := run_onWeights hm o.hashing
    rw [Object.run_hashing_congr (hc.run_source_eq _)] at hrun
    refine rehashes_of_serves ho hascending hserves hrun rfl ?_
    rw [weightsOf_model hm]
    exact (WeightCache.hasRoom_congr (hc.size_standIn _) _).2

/-- A model gives the weights of its seed exactly if those that it holds are of this seed. -/
theorem HoldsAt.givesWeights_iff (hw : w.HoldsAt id h) :
    w.GivesWeights id h.seed ↔
      (Weights.ofSeed h.size h.origin).toList = (Weights.ofSeed h.size h.seed).toList := by
  rcases hw with ⟨m, hm, hc⟩
  constructor
  · intro hgives
    rcases (HoldsAt.stocks ⟨m, hm, hc⟩).weights h.size with ⟨w', hrun⟩
    have hroom : h.HasRoom h.size := Or.inl (Nat.le_refl _)
    rw [if_pos hroom, Holding.seedFor, if_pos (Int.le_refl _)] at hrun
    have honly := hgives.only h.size _ w' (Int.natCast_nonneg _) hrun
    rwa [Int.toNat_natCast, reals_eq_reals] at honly
  · intro heq
    exact givesWeights_of_coherent hm (hc.coherent_iff.2 heq) hc.seed

/-! ## Models that were new -/

theorem holdsAt_of_new {seed : Nat} (hm : w.store.models[id]? = some m)
    (hnew : m.weights = ⟨seed, .empty⟩) : w.HoldsAt id (.initial seed) := by
  refine ⟨m, hm, ?_⟩
  rw [hnew]
  exact WeightCache.holds_initial seed

/-- What a model that was new answers after requests, and when all of it is of its seed. -/
theorem stocks_afterRequests {seed : Nat} (hm : w.store.models[id]? = some m)
    (hnew : m.weights = ⟨seed, .empty⟩) (requests : List WeightRequest) :
    let h := (Holding.initial seed).after requests
    let w' := w.afterRequests id requests
    (∃ m', w'.store.models[id]? = some m' ∧ m'.weights.seed = h.seed) ∧
      w'.Stocks id h ∧
      (w'.GivesWeights id h.seed ↔
        (Weights.ofSeed h.size h.origin).toList = (Weights.ofSeed h.size h.seed).toList) := by
  intro h w'
  have hafter : w'.HoldsAt id h := (holds_afterRequests (holdsAt_of_new hm hnew) requests).1
  refine ⟨?_, hafter.stocks, hafter.givesWeights_iff⟩
  rcases hafter with ⟨m', hm', hc⟩
  exact ⟨m', hm', hc.seed⟩

/-- A workspace with a new model of the seed 7. -/
def sown : Workspace :=
  initial.after [{ task := .newModel [(.seed, .integer 7)], result := some "model" }]

/-- The model in it. -/
def sownModel : Model := .ofRelaxation .initial 7

theorem models_sown : sown.store.models[0]? = some sownModel := rfl

/-- Requests between which the seed is changed to 8 and back. -/
def mixedRequests : List WeightRequest :=
  [.weights 2, .reseed 8, .weights 1, .weights 3, .reseed 7]

theorem stocks_afterRequests_mixedRequests :
    (Holding.initial 7).after mixedRequests = ⟨7, 4, 8⟩ ∧
      (sown.afterRequests 0 mixedRequests).Stocks 0 ⟨7, 4, 8⟩ ∧
      ¬ (sown.afterRequests 0 mixedRequests).GivesWeights 0 7 := by
  have hafter : (Holding.initial 7).after mixedRequests = ⟨7, 4, 8⟩ := by decide
  rcases stocks_afterRequests models_sown rfl mixedRequests with ⟨-, hstocks, hgives⟩
  rw [hafter] at hstocks hgives
  have hdiffer : (Weights.ofSeed 4 8).toList ≠ (Weights.ofSeed 4 7).toList := by decide +kernel
  exact ⟨hafter, hstocks, fun h => hdiffer (hgives.1 h)⟩

/-- After its seed was changed to 8, a model still gives two weights of the seed 7, and does not
give those of the seed that it has. -/
theorem stale_after_reseed :
    let w := sown.afterRequests 0 [.weights 2, .reseed 8]
    (∃ m, w.store.models[0]? = some m ∧ m.weights.seed = 8) ∧
      (∃ w', ((Task.model (.weights 2)).run { self := some (.model 0) }).run w =
        (.ok { answer := .reals (Weights.ofSeed 2 7).toList }, w')) ∧
      (Weights.ofSeed 2 7).toList ≠ (Weights.ofSeed 2 8).toList ∧
      ¬ w.GivesWeights 0 8 := by
  intro w
  have hafter : w.HoldsAt 0 ⟨8, 2, 7⟩ :=
    (holds_afterRequests (holdsAt_of_new models_sown rfl) [.weights 2, .reseed 8]).1
  have hdiffer : (Weights.ofSeed 2 7).toList ≠ (Weights.ofSeed 2 8).toList := by decide +kernel
  rcases hafter.stocks.weights 2 with ⟨w', hanswer⟩
  rw [if_pos (by decide)] at hanswer
  refine ⟨?_, ⟨w', hanswer⟩, hdiffer, fun h => hdiffer (hafter.givesWeights_iff.1 h)⟩
  rcases hafter with ⟨m, hm, hc⟩
  exact ⟨m, hm, hc.seed⟩

end Workspace

end BranchBound
