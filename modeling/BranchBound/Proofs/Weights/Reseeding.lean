import BranchBound.Proofs.Row.Lookup

/-!
# Caches whose seed is changed

A cache keeps its weights when its seed is changed, and does not know of which seed they are.  As
long as there are enough of them they are given, whatever the seed is by then; only a request for
more than there are draws weights of the present seed.

So the weights of a cache are those of the seed that it had at its last drawing, and each request is
answered as a coherent cache would answer it, though not always of the same seed: a short request of
the older one, a long request of the present one.  An object is hashed with the weights of one or
the other, according to how many weights it takes.

Main results:

- Theorem `WeightCache.Holds.after_weights`: what a request leaves in a cache.
- Theorem `WeightCache.Holds.run_weights_eq`: a request is answered by a coherent cache of the seed
  that it meets.
- Theorem `Object.run_hashing_congr`: a hash depends on nothing but the answer to one request.
-/

namespace BranchBound

/-- What can be done to the weights of a model. -/
inductive WeightRequest where
  /-- Ask for the first weights. -/
  | weights (n : Nat)
  /-- Set the seed. -/
  | reseed (seed : Nat)

/-- What a cache holds. -/
structure Holding where
  /-- The seed of the next drawing. -/
  seed : Nat
  /-- How many weights there are. -/
  size : Nat
  /-- The seed that the weights were drawn with. -/
  origin : Nat
  deriving DecidableEq

namespace Holding

/-- What a cache of a seed holds before anything is drawn. -/
def initial (seed : Nat) : Holding := ⟨seed, 0, seed⟩

/-- Whether there are enough weights for a request, or there is room for at least twice as many as
there are. -/
def HasRoom (h : Holding) (n : Nat) : Prop :=
  n ≤ h.size ∨ max n (2 * h.size) ≤ Weights.greatestSize

instance (h : Holding) (n : Nat) : Decidable (h.HasRoom n) := inferInstanceAs (Decidable (_ ∨ _))

/-- What a cache holds after a request: weights are drawn if too few are there, at least twice as
many as before, and a new seed is only noted. -/
def next (h : Holding) : WeightRequest → Holding
  | .weights n =>
    if h.size < n ∧ h.HasRoom n then ⟨h.seed, max n (2 * h.size), h.seed⟩ else h
  | .reseed seed => { h with seed }

/-- What a cache holds after some requests. -/
def after (h : Holding) (requests : List WeightRequest) : Holding := requests.foldl next h

/-- The seed whose weights answer a request for some weights. -/
def seedFor (h : Holding) (n : Int) : Nat := if n ≤ h.size then h.origin else h.seed

end Holding

namespace WeightCache

/-- Whether a cache holds what is said. -/
structure Holds (c : WeightCache) (h : Holding) : Prop where
  seed : c.seed = h.seed
  size : c.drawn.size = h.size
  begins : c.drawn.Begins h.origin

/-- A cache with the seed that answers a request in it, and with weights of that seed. -/
def standIn (c : WeightCache) (h : Holding) (n : Int) : WeightCache :=
  if n ≤ h.size then ⟨h.origin, c.drawn⟩ else ⟨h.seed, .ofSeed h.size h.seed⟩

variable {c : WeightCache} {h : Holding}

theorem holds_initial (seed : Nat) : Holds ⟨seed, .empty⟩ (.initial seed) where
  seed := rfl
  size := Weights.size_ofSeed 0 0
  begins := Weights.begins_empty seed

theorem Holds.seed_nonneg (hc : c.Holds h) : 0 ≤ c.seed := by
  rw [hc.seed]
  exact Int.natCast_nonneg _

theorem Holds.growth_eq (hc : c.Holds h) (n : Nat) :
    c.growth n = (max n (2 * h.size) : Nat) := by
  rw [growth, hc.size]
  omega

/-- There is as much room in the cache as is said. -/
theorem Holds.hasRoom_iff (hc : c.Holds h) {n : Nat} : c.HasRoom n ↔ h.HasRoom n := by
  rw [HasRoom, Holding.HasRoom, hc.growth_eq, hc.size]
  omega

/-- Where there is room, more weights than there are are drawn with the present seed. -/
theorem Holds.run_weights_of_few (hc : c.Holds h) {n : Nat} (hfew : h.size < n)
    (hroom : h.HasRoom n) :
    (weights n).run c = (.ok ((Weights.ofSeed (max n (2 * h.size)) h.seed).take n),
      ⟨h.seed, .ofSeed (max n (2 * h.size)) h.seed⟩) := by
  have hfew' : (c.drawn.size : Int) < n := by
    rw [hc.size]
    omega
  have hstream := stream_growth hc.seed_nonneg hfew' (hc.hasRoom_iff.2 hroom)
  rw [(run_weights_of_lt hfew' hstream).1, hc.growth_eq, hc.seed, Int.toNat_natCast,
    Int.toNat_natCast]

theorem Holds.run_weights_of_no_room (hc : c.Holds h) {n : Nat} (hroom : ¬ h.HasRoom n) :
    (weights n).run c = (.error .noRoom, c) :=
  WeightCache.run_weights_of_no_room hc.seed_nonneg fun h => hroom (hc.hasRoom_iff.1 h)

/-- A request draws weights of the present seed, if there are too few. -/
theorem Holds.after_weights (hc : c.Holds h) (n : Nat) :
    ((weights n).run c).2.Holds (h.next (.weights n)) := by
  by_cases hfew : h.size < n
  · by_cases hroom : h.HasRoom n
    · rw [hc.run_weights_of_few hfew hroom, Holding.next, if_pos ⟨hfew, hroom⟩]
      exact ⟨rfl, rfl, Weights.begins_ofSeed _ _⟩
    · rw [hc.run_weights_of_no_room hroom, Holding.next, if_neg fun h => hroom h.2]
      exact hc
  · rw [run_weights_of_le (by rw [hc.size]; omega), Holding.next, if_neg (by omega)]
    exact hc

/-- A new seed is noted, and the weights stay. -/
theorem Holds.reseed (hc : c.Holds h) (seed : Nat) :
    Holds { c with seed } (h.next (.reseed seed)) :=
  ⟨rfl, hc.size, hc.begins⟩

theorem Holds.standIn_serves (hc : c.Holds h) (n : Int) :
    (WeightSource.cache (c.standIn h n)).Serves (h.seedFor n) := by
  unfold standIn Holding.seedFor
  split
  · exact ⟨hc.begins, rfl⟩
  · exact ⟨Weights.begins_ofSeed _ _, rfl⟩

theorem Holds.size_standIn (hc : c.Holds h) (n : Int) :
    (c.standIn h n).drawn.size = c.drawn.size := by
  unfold standIn
  split
  · rfl
  · exact hc.size.symm

/-- A request is answered by the coherent cache that stands in. -/
theorem Holds.run_weights_eq (hc : c.Holds h) (n : Int) :
    ((weights n).run c).1 = ((weights n).run (c.standIn h n)).1 := by
  have hsize := hc.size_standIn n
  have hgrowth : (c.standIn h n).growth n = c.growth n := by
    rw [growth, growth, hsize]
  by_cases hle : n ≤ h.size
  · have hdrawn : (c.standIn h n).drawn = c.drawn := by
      rw [standIn, if_pos hle]
    rw [← hc.size] at hle
    rw [run_weights_of_le hle, run_weights_of_le (hsize ▸ hle), hdrawn]
  · have hseed : (c.standIn h n).seed = c.seed := by
      rw [standIn, if_neg hle, hc.seed]
    rw [← hc.size] at hle
    have hfew : (c.drawn.size : Int) < n := Int.not_le.1 hle
    have hfew' : ((c.standIn h n).drawn.size : Int) < n := hsize ▸ hfew
    cases hdrawn : Weights.stream (c.growth n) c.seed with
    | error fault =>
      rw [run_weights_of_error hfew hdrawn,
        run_weights_of_error hfew' (by rw [hgrowth, hseed, hdrawn])]
    | ok drawn =>
      rw [(run_weights_of_lt hfew hdrawn).1,
        (run_weights_of_lt hfew' (by rw [hgrowth, hseed, hdrawn])).1]

theorem Holds.run_source_eq (hc : c.Holds h) (n : Int) :
    ((WeightSource.weights n).run (.cache c)).1 =
      ((WeightSource.weights n).run (.cache (c.standIn h n))).1 := by
  rw [WeightSource.run_weights_cache, WeightSource.run_weights_cache, hc.run_weights_eq]

/-- A request gives the weights of the seed that it meets, unless there is no room for them. -/
theorem Holds.run_weights_natCast (hc : c.Holds h) (n : Nat) :
    ((weights n).run c).1.map Weights.toList =
      if h.HasRoom n then .ok (Weights.ofSeed n (h.seedFor n)).toList else .error .noRoom := by
  by_cases hroom : h.HasRoom n
  · rw [if_pos hroom, Holding.seedFor]
    by_cases hle : n ≤ h.size
    · have hle' : n ≤ c.drawn.size := by rwa [hc.size]
      rw [run_weights_of_le (by omega), if_pos (by omega), Except.map,
        hc.begins.toList_take hle']
    · rw [hc.run_weights_of_few (by omega) hroom, if_neg (by omega), Except.map,
        (Weights.begins_ofSeed _ _).toList_take (Nat.le_max_left _ _)]
  · rw [if_neg hroom, hc.run_weights_of_no_room hroom, Except.map]

/-- A cache gives the weights of its present seed exactly if those that it holds are of that seed
as well. -/
theorem Holds.coherent_iff (hc : c.Holds h) :
    c.Coherent ↔
      (Weights.ofSeed h.size h.origin).toList = (Weights.ofSeed h.size h.seed).toList := by
  have hlist := hc.begins.toList_eq
  rw [hc.size] at hlist
  constructor
  · intro hcoherent
    have hlist' := Weights.Begins.toList_eq hcoherent
    rw [hc.seed, hc.size, Int.toNat_natCast] at hlist'
    rw [← hlist, hlist']
  · intro heq k hk
    have hk' : k < h.size := by rwa [← hc.size]
    have hentry := Weights.getElem?_toList hk
    rw [hlist, heq, Weights.getElem?_toList hk', Option.some.injEq] at hentry
    rw [← hentry, hc.seed, Int.toNat_natCast, Weights.begins_ofSeed _ _ k hk']

end WeightCache

/-! ## Hashing -/

theorem Column.run_hashing_congr {c : Column Binary64} {s t : WeightSource}
    (h : ((WeightSource.weights (c.index + 1)).run s).1 =
      ((WeightSource.weights (c.index + 1)).run t).1) :
    (c.hashing.run s).1 = (c.hashing.run t).1 := by
  unfold hashing
  split
  · rfl
  · rw [Action.run_bind, Action.run_bind]
    rcases hs : (WeightSource.weights (c.index + 1)).run s with ⟨answer, s'⟩
    rcases ht : (WeightSource.weights (c.index + 1)).run t with ⟨answer', t'⟩
    obtain rfl : answer = answer' := by
      rw [hs, ht] at h
      exact h
    cases answer with
    | error fault => rfl
    | ok ws =>
      dsimp only
      cases ws.get? c.index <;> rfl

theorem Row.run_hashing_congr {r : Row Binary64} {s t : WeightSource}
    (h : ((WeightSource.weights r.demand).run s).1 = ((WeightSource.weights r.demand).run t).1) :
    (r.hashing.run s).1 = (r.hashing.run t).1 := by
  by_cases hnil : r.indices = []
  · rw [run_hashing_of_nil hnil, run_hashing_of_nil hnil]
  · rcases hs : (WeightSource.weights r.demand).run s with ⟨answer, s'⟩
    rcases ht : (WeightSource.weights r.demand).run t with ⟨answer', t'⟩
    obtain rfl : answer = answer' := by
      rw [hs, ht] at h
      exact h
    cases answer with
    | error fault => rw [run_hashing_of_error hnil hs, run_hashing_of_error hnil ht]
    | ok ws => rw [run_hashing_of_ok hnil hs, run_hashing_of_ok hnil ht]

/-- A hash depends on nothing but the answer to one request. -/
theorem Object.run_hashing_congr {o : Object} {s t : WeightSource}
    (h : ((WeightSource.weights o.identity.demand).run s).1 =
      ((WeightSource.weights o.identity.demand).run t).1) :
    (o.hashing.run s).1 = (o.hashing.run t).1 := by
  cases o with
  | entity e | primal e | dual e => rfl
  | column c => exact Column.run_hashing_congr h
  | row r => exact Row.run_hashing_congr h

end BranchBound
