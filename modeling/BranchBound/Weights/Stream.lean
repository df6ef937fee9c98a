import BranchBound.Action
import BranchBound.Sequence
import BranchBound.Weights.Generator

/-!
# Weights

Duplicate objects are found by hashes that combine pseudo-random weights, one for every index.
The weights of a seed form one stream of numbers between one half and three halves; asking for
fewer weights gives the beginning of what asking for more gives.

The beginning of a stream is held as the generator that it starts from and its size.  A single
weight is found in it without those before, so that an object far back has its hash as soon as any
other.

A cache keeps the weights drawn so far, and draws twice as many when it has too few.  It keeps
them when its seed is changed.

Main results:

- `Weights.get?_eq_signedGet?` and `Weights.toList_take`: finding a weight and keeping some of the
  weights are what they are on the list of the weights.
- `Weights.take_toList`: a shorter stream is the beginning of a longer one.
- `WeightCache.run_weights_of_le`: what is in the cache is not drawn again.
-/

namespace BranchBound

/-- The beginning of a stream of weights. -/
structure Weights where
  /-- The generator before the first draw. -/
  generator : Generator
  /-- The number of weights. -/
  size : Nat

namespace Weights

/-- The seed used where none is given. -/
def defaultSeed : Int := 1234567

/-- The greatest number of weights whose bytes, eight for each, are counted in 63 bits. -/
def greatestSize : Nat := 0xfffffffffffffff

/-- The weight of a drawn word: one half, and its 53 leading bits as a fraction. -/
def weight (w : BitVec 64) : Binary64 :=
  0.5 + .rounded false ((w >>> 11).toNat * Grid.one) 0x20000000000000

/-- The first weights of a seed. -/
def ofSeed (size seed : Nat) : Weights := ⟨.ofSeed seed, size⟩

/-- No weights. -/
def empty : Weights := ofSeed 0 0

/-- The weights in order. -/
def toList (ws : Weights) : List Binary64 :=
  ws.generator.draws ws.size |>.map weight

/-- The weight at a natural position of the stream. -/
def entry (ws : Weights) (k : Nat) : Binary64 :=
  weight (ws.generator.skip (k + 1)).output

/-- The weight at a signed position. -/
def get? (ws : Weights) (i : Int) : Option Binary64 :=
  (signedPosition? ws.size i).map ws.entry

/-- The weights that a signed count keeps. -/
def take (ws : Weights) (n : Int) : Weights := { ws with size := signedCount ws.size n }

/-- The first weights of a seed, if their number can be counted and the seed is not negative. -/
def stream (size seed : Int) : Except Fault Weights :=
  if size < 0 ∨ seed < 0 then .error .negativeCount
  else if greatestSize < size then .error .noRoom
  else .ok (ofSeed size.toNat seed.toNat)

@[simp] theorem length_toList (ws : Weights) : ws.toList.length = ws.size := by
  simp [toList]

@[simp] theorem toList_empty : empty.toList = [] := rfl

/-- A shorter stream is the beginning of a longer one. -/
theorem take_toList {g : Generator} {m n : Nat} (h : m ≤ n) :
    (toList ⟨g, n⟩).take m = toList ⟨g, m⟩ := by
  simp only [toList]
  rw [← List.map_take, Generator.draws_take h]

/-- Keeping some of the weights keeps as many of their list. -/
theorem toList_take (ws : Weights) (n : Int) : (ws.take n).toList = signedTake ws.toList n := by
  rw [signedTake, length_toList]
  exact (take_toList (signedCount_le ws.size n)).symm

/-- The weight at a position of the stream stands there in the list. -/
theorem getElem?_toList {ws : Weights} {k : Nat} (h : k < ws.size) :
    ws.toList[k]? = some (ws.entry k) := by
  simp [toList, entry, Generator.getElem?_draws h]

/-- What is found at a signed position is what stands there in the list. -/
theorem get?_eq_signedGet? (ws : Weights) (i : Int) : ws.get? i = signedGet? ws.toList i := by
  unfold get? signedGet?
  rw [length_toList]
  cases h : signedPosition? ws.size i with
  | none => rfl
  | some k => simp [getElem?_toList (lt_of_signedPosition? h)]

end Weights

/-- A seed and the weights that have been drawn. -/
structure WeightCache where
  /-- The seed of the next drawing. -/
  seed : Int
  /-- The weights drawn last. -/
  drawn : Weights

namespace WeightCache

/-- How many weights are drawn when there are fewer than are asked for: at least twice as many as
there are. -/
def growth (cache : WeightCache) (size : Int) : Int := max size (2 * cache.drawn.size)

/-- The first weights, as many as a signed size keeps of those that are drawn. -/
def weights (size : Int) : Action WeightCache Weights := do
  let cache ← .state
  if (cache.drawn.size : Int) < size then
    let drawn ← .ofExcept (Weights.stream (cache.growth size) cache.seed)
    .update fun cache => { cache with drawn }
    return drawn.take size
  else
    return cache.drawn.take size

/-- What is in the cache is not drawn again. -/
theorem run_weights_of_le {cache : WeightCache} {size : Int}
    (h : size ≤ cache.drawn.size) :
    (weights size).run cache = (.ok (cache.drawn.take size), cache) := by
  have : ¬ (cache.drawn.size : Int) < size := by omega
  rw [weights, Action.run_bind_of_ok (Action.run_state cache)]
  simp [this]

end WeightCache

/-- Where weights come from. -/
inductive WeightSource where
  /-- The default stream. -/
  | standard
  /-- The cache of a model. -/
  | cache (c : WeightCache)
  /-- Something that has no weights. -/
  | absent

namespace WeightSource

/-- The cache of a source, if it is one. -/
def cache? : WeightSource → Option WeightCache
  | cache c => some c
  | _ => none

/-- The first weights of a source. -/
def weights (size : Int) : Action WeightSource Weights :=
  ⟨fun
    | standard => (Weights.stream size Weights.defaultSeed, standard)
    | cache c => let (r, c') := (WeightCache.weights size).run c; (r, cache c')
    | absent => (.error .unsupported, absent)⟩

end WeightSource

end BranchBound
