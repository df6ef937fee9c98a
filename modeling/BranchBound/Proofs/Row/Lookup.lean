import BranchBound.Proofs.Row.Construction
import BranchBound.Proofs.Weights.Hashing

/-!
# What a row looks up

For its activity a row looks up a value at each of its indices, and for its hash a weight.  An index
that is not negative finds what belongs to its variable, or nothing.  A negative one counts from the
end, and finds what belongs to the variable of another index.

How many weights there are to count from is the last index and one, whatever a cache holds.  Only
below minus one the last index leaves that to the cache: then a row may have a hash or none, with
one model and one seed.

Main results:

- Theorem `Row.combine_eq_ok_iff`: what the values that were found are combined to.
- Theorem `Row.readsOwn_iff`: a row reads what belongs to its own variables alone exactly if none of
  its indices is negative.
- Theorem `Row.hashedAlike_iff`: its hash does not depend on how many weights were drawn exactly if
  its last index is not below minus one.
-/

namespace BranchBound

/-! ## Positions in lists and in weights -/

/-- There is a length whose positions, counted from either end, some integers are. -/
theorem exists_length (positions : List Int) :
    ∃ n : Nat, ∀ i ∈ positions, -(n : Int) ≤ i ∧ i < n := by
  induction positions with
  | nil => exact ⟨0, fun i hi => absurd hi List.not_mem_nil⟩
  | cons i positions ih =>
    rcases ih with ⟨n, hn⟩
    refine ⟨max n (i.natAbs + 1), List.forall_mem_cons.2 ⟨by omega, fun j hj => ?_⟩⟩
    have hj' := hn j hj
    omega

namespace Weights

/-- As many weights of one seed are the same weights. -/
theorem Begins.get?_eq_get? {ws ws' : Weights} {seed : Nat} (h : ws.Begins seed)
    (h' : ws'.Begins seed) (hsize : ws.size = ws'.size) : ws.get? = ws'.get? := by
  funext i
  rw [get?_eq_signedGet?, get?_eq_signedGet?, h.toList_eq, h'.toList_eq, hsize]

/-- Exactly the positions outside the weights find nothing. -/
theorem get?_eq_none_iff (ws : Weights) (i : Int) :
    ws.get? i = none ↔ (ws.size : Int) ≤ i ∨ i < -ws.size := by
  rw [get?_eq_signedGet?, signedGet?_eq_none_iff, length_toList]

end Weights

namespace WeightSource

/-- A cache that holds enough weights gives the first of them, and stays as it is. -/
theorem run_weights_of_le {c : WeightCache} {n : Int} (h : n ≤ c.drawn.size) :
    (weights n).run (cache c) = (.ok (c.drawn.take n), cache c) := by
  rw [run_weights_cache, WeightCache.run_weights_of_le h]

end WeightSource

namespace Row

variable {r : Row Binary64} {find : Int → Option Binary64} {v : Binary64}

/-! ## Looking up and combining -/

/-- Numbers are found at some positions exactly if there is one at each of them. -/
theorem gather_eq_ok_iff {N : Type} {find : Int → Option N} {positions : List Int} {ys : List N} :
    gather find positions = .ok ys ↔ positions.map find = ys.map some := by
  unfold gather
  induction positions generalizing ys with
  | nil =>
    cases ys with
    | nil => exact iff_of_true rfl rfl
    | cons y ys => exact iff_of_false nofun nofun
  | cons i positions ih =>
    rw [List.mapM_cons, List.map_cons]
    cases hfirst : find i with
    | none =>
      constructor
      · intro h
        cases h
      · intro h
        cases ys <;> cases h
    | some y =>
      constructor
      · intro h
        rcases exists_of_bind_eq_ok h with ⟨y', hy, h⟩
        rcases exists_of_bind_eq_ok h with ⟨ys', hys, h⟩
        cases hy
        cases h
        rw [List.map_cons, ih.1 hys]
      · intro h
        cases ys with
        | nil => cases h
        | cons y' ys =>
          rw [List.map_cons, List.cons.injEq] at h
          rcases h with ⟨hy, hys⟩
          cases hy
          rw [ih.2 hys]
          rfl

/-- A position where there is no number is out of bounds. -/
theorem gather_eq_error {N : Type} {find : Int → Option N} {positions : List Int} {i : Int}
    (hi : i ∈ positions) (hnone : find i = none) :
    gather find positions = .error .outOfBounds := by
  unfold gather
  induction positions with
  | nil => exact absurd hi List.not_mem_nil
  | cons j positions ih =>
    rw [List.mapM_cons]
    cases hfirst : find j with
    | none => rfl
    | some y =>
      rcases List.mem_cons.1 hi with rfl | hi
      · rw [hnone] at hfirst
        cases hfirst
      · rw [ih hi]
        rfl

/-- The numbers found at all indices are combined with the coefficients. -/
theorem combine_eq_ok_iff :
    r.combine find = .ok v ↔
      ∃ ys, r.indices.map find = ys.map some ∧ v = dot r.coefficients ys := by
  unfold combine
  cases hgather : gather find r.indices with
  | ok ys =>
    have hfound := gather_eq_ok_iff.1 hgather
    rw [Except.ok.injEq]
    constructor
    · rintro rfl
      exact ⟨ys, hfound, rfl⟩
    · rintro ⟨ys', hfound', rfl⟩
      rw [hfound, List.map_inj_right fun _ _ => Option.some.inj] at hfound'
      rw [hfound']
  | error fault =>
    refine iff_of_false nofun ?_
    rintro ⟨ys, hfound, -⟩
    rw [gather_eq_ok_iff.2 hfound] at hgather
    cases hgather

theorem combine_of_missing {i : Int} (hi : i ∈ r.indices) (hnone : find i = none) :
    r.combine find = .error .outOfBounds := by
  rw [combine, gather_eq_error hi hnone]

theorem combine_of_found (h : ∀ i ∈ r.indices, find i ≠ none) : ∃ v, r.combine find = .ok v := by
  have hfind : ∀ i ∈ r.indices, find i = some ((find i).getD 0.0) := by
    intro i hi
    rcases Option.ne_none_iff_exists'.1 (h i hi) with ⟨y, hy⟩
    rw [hy, Option.getD_some]
  refine ⟨_, combine_eq_ok_iff.2 ⟨r.indices.map fun i => (find i).getD 0.0, ?_, rfl⟩⟩
  rw [List.map_map]
  exact List.map_congr_left hfind

/-- The activity of a row combines the values of the relaxation. -/
theorem activity_eq_combine (r : Row Binary64) (x : Relaxation Binary64) :
    r.activity x = r.combine (signedGet? x.solution) := by
  unfold activity
  split
  · rename_i hempty
    rw [List.isEmpty_iff] at hempty
    have hdot : dot r.coefficients [] = (0.0 : Binary64) := by
      rw [dot, List.zipWith_nil_right]
      rfl
    rw [combine, hempty, ← hdot]
    rfl
  · rfl

/-! ## Hashing step by step -/

/-- How many weights are asked for. -/
def demand (r : Row Binary64) : Int := (Object.row r).identity.demand

theorem demand_eq {last : Int} (hlast : r.indices.getLast? = some last) : r.demand = last + 1 := by
  rw [demand, Object.identity, Identity.demand, hlast]
  rfl

theorem demand_of_nil (hnil : r.indices = []) : r.demand = 0 := by
  rw [demand, Object.identity, Identity.demand, hnil]
  rfl

variable {source source' : WeightSource} {ws : Weights} {fault : Fault}

theorem run_hashing_of_ok (hne : r.indices ≠ [])
    (hweights : (WeightSource.weights r.demand).run source = (.ok ws, source')) :
    r.hashing.run source = ((r.combine ws.get?).map (boundHash r.hard + ·), source') := by
  have hlast := List.getLast?_eq_some_getLast hne
  rw [demand_eq hlast] at hweights
  simp only [hashing, hlast]
  rw [Action.run_bind_of_ok hweights]
  cases r.combine ws.get? <;> rfl

theorem run_hashing_of_error (hne : r.indices ≠ [])
    (hweights : (WeightSource.weights r.demand).run source = (.error fault, source')) :
    r.hashing.run source = (.error fault, source') := by
  have hlast := List.getLast?_eq_some_getLast hne
  rw [demand_eq hlast] at hweights
  simp only [hashing, hlast]
  rw [Action.run_bind_of_error hweights]

/-- A row has a hash if there is a weight for every index. -/
theorem exists_run_hashing_of_found (hne : r.indices ≠ [])
    (hweights : (WeightSource.weights r.demand).run source = (.ok ws, source'))
    (hfound : ∀ i ∈ r.indices, ws.get? i ≠ none) :
    ∃ v, r.hashing.run source = (.ok v, source') := by
  rcases combine_of_found hfound with ⟨terms, hterms⟩
  refine ⟨boundHash r.hard + terms, ?_⟩
  rw [run_hashing_of_ok hne hweights, hterms]
  rfl

/-- An index without a weight is out of bounds. -/
theorem run_hashing_of_missing {i : Int} (hi : i ∈ r.indices)
    (hweights : (WeightSource.weights r.demand).run source = (.ok ws, source'))
    (hnone : ws.get? i = none) :
    r.hashing.run source = (.error .outOfBounds, source') := by
  rw [run_hashing_of_ok (List.ne_nil_of_mem hi) hweights, combine_of_missing hi hnone]
  rfl

theorem run_hashing_eq_ok (hne : r.indices ≠ [])
    (h : r.hashing.run source = (.ok v, source')) :
    ∃ ws terms, (WeightSource.weights r.demand).run source = (.ok ws, source') ∧
      r.combine ws.get? = .ok terms ∧ v = boundHash r.hard + terms := by
  cases hweights : (WeightSource.weights r.demand).run source with
  | mk result source'' =>
    cases result with
    | error fault =>
      rw [run_hashing_of_error hne hweights] at h
      cases h
    | ok ws =>
      rw [run_hashing_of_ok hne hweights, Prod.mk.injEq] at h
      rcases exists_of_map_eq_ok h.1 with ⟨terms, hterms, hv⟩
      rw [← h.2]
      exact ⟨ws, terms, rfl, hterms, hv⟩

/-! ## Reading what is one's own -/

/-- Whether a number combines what a list holds at the indices of a row, none of which is
negative. -/
def CombinesOwn (r : Row Binary64) (xs : List Binary64) (v : Binary64) : Prop :=
  (∀ i ∈ r.indices, 0 ≤ i) ∧
    ∃ ys, (r.indices.map fun i => xs[i.toNat]?) = ys.map some ∧ v = dot r.coefficients ys

/-- Whether a row reads what belongs to its own variables alone, whatever the relaxation and
wherever its weights come from. -/
structure ReadsOwn (r : Row Binary64) : Prop where
  /-- The activity combines the values of the relaxation. -/
  activity : ∀ x v, r.activity x = .ok v → r.CombinesOwn x.solution v
  /-- The hash combines the weights that are given. -/
  hashing : ∀ source source' v, r.hashing.run source = (.ok v, source') →
    r.indices = [] ∧ v = boundHash r.hard ∨
      ∃ ws terms, (WeightSource.weights r.demand).run source = (.ok ws, source') ∧
        r.CombinesOwn ws.toList terms ∧ v = boundHash r.hard + terms

/-- At indices that are not negative a list is read from its front. -/
theorem combinesOwn_of_combine {xs : List Binary64} (hpos : ∀ i ∈ r.indices, 0 ≤ i)
    (h : r.combine (signedGet? xs) = .ok v) : r.CombinesOwn xs v := by
  rcases combine_eq_ok_iff.1 h with ⟨ys, hfound, rfl⟩
  refine ⟨hpos, ys, ?_, rfl⟩
  rw [← hfound]
  refine List.map_congr_left fun i hi => ?_
  rw [← signedGet?_ofNat, Int.toNat_of_nonneg (hpos i hi)]

/-- A row reads what belongs to its own variables alone exactly if none of its indices is
negative. -/
theorem readsOwn_iff : r.ReadsOwn ↔ ∀ i ∈ r.indices, 0 ≤ i := by
  constructor
  · intro hown
    rcases exists_length r.indices with ⟨n, hn⟩
    -- a relaxation with so many values has one for every index, from one end or the other
    let x : Relaxation Binary64 := { Relaxation.initial with solution := List.replicate n 0.0 }
    have hfound : ∀ i ∈ r.indices, signedGet? x.solution i ≠ none := by
      intro i hi
      have hin := hn i hi
      rw [Ne, signedGet?_eq_none_iff, show x.solution.length = n from List.length_replicate]
      omega
    rcases combine_of_found hfound with ⟨v, hv⟩
    rw [← activity_eq_combine] at hv
    exact (hown.activity x v hv).1
  · intro hpos
    constructor
    · intro x v hv
      rw [activity_eq_combine] at hv
      exact combinesOwn_of_combine hpos hv
    · intro source source' v hrun
      by_cases hne : r.indices = []
      · left
        rw [run_hashing_of_nil hne, Prod.mk.injEq, Except.ok.injEq] at hrun
        exact ⟨hne, hrun.1.symm⟩
      · right
        rcases run_hashing_eq_ok hne hrun with ⟨ws, terms, hweights, hterms, hv⟩
        rw [show ws.get? = signedGet? ws.toList from funext ws.get?_eq_signedGet?] at hterms
        exact ⟨ws, terms, hweights, combinesOwn_of_combine hpos hterms, hv⟩

/-! ## The growth of a cache -/

/-- Whether the hash of a row, or the fault in its place, is the same with all sources that give the
weights of one seed and have room for those of the row. -/
def HashedAlike (r : Row Binary64) : Prop :=
  ∀ seed source source', source.Serves seed → source'.Serves seed →
    source.HasRoom r.demand → source'.HasRoom r.demand →
    (r.hashing.run source).1 = (r.hashing.run source').1

/-- With as many weights as there are for every source, the hash is the same. -/
theorem hashedAlike_of_nonneg (hdemand : 0 ≤ r.demand) : r.HashedAlike := by
  have hdrawn {seed : Nat} {source : WeightSource} (hs : source.Serves seed)
      (hroom : source.HasRoom r.demand) :
      ∃ ws source', (WeightSource.weights r.demand).run source = (.ok ws, source') ∧
        ws.size = r.demand.toNat ∧ ws.Begins seed := by
    rcases hs.run_weights hdemand with ⟨-, ws, source', hrun, -, hsize, hbegins⟩ | ⟨hnone, -⟩
    · exact ⟨ws, source', hrun, hsize, hbegins⟩
    · exact absurd hroom hnone
  intro seed source source' hs hs' hroom hroom'
  by_cases hne : r.indices = []
  · rw [run_hashing_of_nil hne, run_hashing_of_nil hne]
  · rcases hdrawn hs hroom with ⟨ws, after, hrun, hsize, hbegins⟩
    rcases hdrawn hs' hroom' with ⟨ws', after', hrun', hsize', hbegins'⟩
    rw [run_hashing_of_ok hne hrun, run_hashing_of_ok hne hrun',
      hbegins.get?_eq_get? hbegins' (hsize.trans hsize'.symm)]

/-- Where a negative number of weights is asked for, an empty cache has none. -/
theorem run_hashing_of_empty (hdemand : r.demand < 0) {i : Int} (hi : i ∈ r.indices)
    {c : WeightCache} (hc : c.drawn.size = 0) :
    r.hashing.run (.cache c) = (.error .outOfBounds, .cache c) := by
  have hdrawn : (c.drawn.take r.demand).size = 0 :=
    Nat.le_zero.1 (hc ▸ signedCount_le c.drawn.size r.demand)
  have hnone : (c.drawn.take r.demand).get? i = none := by
    rw [Weights.get?_eq_none_iff, hdrawn]
    omega
  exact run_hashing_of_missing hi (WeightSource.run_weights_of_le (by omega)) hnone

/-- Where a negative number of weights is asked for, a cache with enough weights has one for every
index. -/
theorem exists_run_hashing_of_large (hdemand : r.demand < 0) (hne : r.indices ≠ []) {n : Nat}
    (hn : ∀ i ∈ r.indices, -(n : Int) ≤ i ∧ i < n) {c : WeightCache}
    (hc : c.drawn.size = n + r.demand.natAbs) :
    ∃ v, r.hashing.run (.cache c) = (.ok v, .cache c) := by
  have hdrawn : (c.drawn.take r.demand).size = n := by
    show signedCount c.drawn.size r.demand = n
    rw [signedCount, if_neg (Int.not_le.2 hdemand)]
    omega
  refine exists_run_hashing_of_found hne (WeightSource.run_weights_of_le (by omega)) ?_
  intro i hi
  have hin := hn i hi
  rw [Ne, Weights.get?_eq_none_iff, hdrawn]
  omega

/-- Where a negative number of weights is asked for, one cache gives no hash at first, and a hash
once enough weights were drawn. -/
theorem not_hashedAlike_of_neg (hdemand : r.demand < 0) : ¬ r.HashedAlike := by
  have hne : r.indices ≠ [] := by
    intro hnil
    rw [demand_of_nil hnil] at hdemand
    exact absurd hdemand (Int.lt_irrefl 0)
  rcases exists_length r.indices with ⟨n, hn⟩
  rcases List.exists_mem_of_ne_nil _ hne with ⟨i, hi⟩
  let cold : WeightCache := ⟨(0 : Nat), .ofSeed 0 0⟩
  let warm : WeightCache := ⟨(0 : Nat), .ofSeed (n + r.demand.natAbs) 0⟩
  have hcold := run_hashing_of_empty hdemand hi (c := cold) rfl
  rcases exists_run_hashing_of_large hdemand hne hn (c := warm) rfl with ⟨v, hwarm⟩
  have hroom (c : WeightCache) : (WeightSource.cache c).HasRoom r.demand := by
    left
    omega
  intro halike
  have hsame := halike 0 (.cache cold) (.cache warm) ⟨Weights.begins_ofSeed _ 0, rfl⟩
    ⟨Weights.begins_ofSeed _ 0, rfl⟩ (hroom cold) (hroom warm)
  rw [hcold, hwarm] at hsame
  cases hsame

/-- The hash of a row does not depend on how many weights were drawn, as far as there is room for
its weights, exactly if it does not ask for a negative number of them. -/
theorem hashedAlike_iff : r.HashedAlike ↔ 0 ≤ r.demand := by
  constructor
  · intro halike
    exact Int.not_lt.1 fun hdemand => not_hashedAlike_of_neg hdemand halike
  · exact hashedAlike_of_nonneg

/-! ## Own data and one answer -/

/-- A row reads what belongs to its own variables alone exactly if none of its indices is negative,
and its hash does not depend on how many weights were drawn, as far as there is room for its
weights, exactly if its last index is not below minus one. -/
theorem readsOwn_and_hashedAlike_iff (r : Row Binary64) :
    (r.ReadsOwn ↔ ∀ i ∈ r.indices, 0 ≤ i) ∧
      (r.HashedAlike ↔ ∀ last, r.indices.getLast? = some last → -1 ≤ last) := by
  refine ⟨readsOwn_iff, ?_⟩
  rw [hashedAlike_iff]
  cases hlast : r.indices.getLast? with
  | none =>
    have hdemand := demand_of_nil (List.getLast?_eq_none_iff.1 hlast)
    exact iff_of_true (by omega) nofun
  | some last =>
    rw [demand_eq hlast]
    constructor
    · rintro hle _ ⟨⟩
      omega
    · intro hle
      have hle' := hle last rfl
      omega

/-- The activity of a row whose index is minus one takes the last value for its own.  A row whose
index is minus two has no hash with a new cache, and has one once four weights were drawn. -/
theorem negative_indices_read_others :
    Object.build .row (Object.rowFields [-1] [1.0]) = .ok (.row (ofTerm (-1) 1.0)) ∧
      (ofTerm (-1) 1.0).activity { Relaxation.initial with solution := [5.0, 7.0] } = .ok 7.0 ∧
      Object.build .row (Object.rowFields [-2] [1.0]) = .ok (.row (ofTerm (-2) 1.0)) ∧
      ((ofTerm (-2) 1.0).hashing.run (.cache ⟨0, .ofSeed 0 0⟩)).1 = .error .outOfBounds ∧
      ∃ v, ((ofTerm (-2) 1.0).hashing.run (.cache ⟨0, .ofSeed 4 0⟩)).1 = .ok v := by
  have hdemand : (ofTerm (-2) 1.0).demand < 0 := by decide
  refine ⟨Object.build_ofTerm (by decide) 1.0, ?_, Object.build_ofTerm (by decide) 1.0, ?_, ?_⟩
  · rw [activity_eq_combine, combine_eq_ok_iff]
    exact ⟨[7.0], by decide +kernel, by decide +kernel⟩
  · rw [run_hashing_of_empty hdemand List.mem_cons_self rfl]
  · rcases exists_run_hashing_of_large hdemand (List.cons_ne_nil _ _) (n := 3) (by decide)
      (c := ⟨0, .ofSeed 4 0⟩) rfl with ⟨v, hv⟩
    exact ⟨v, by rw [hv]⟩

end Row

end BranchBound
