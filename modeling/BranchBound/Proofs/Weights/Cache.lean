import BranchBound.Proofs.Invariant
import BranchBound.Weights.Stream

/-!
# Coherent caches

The weights that a cache holds are the beginning of one stream, that of its seed.  Drawing more of
them starts the stream again, and so does not depend on how many were held before: whatever is
asked for first, the cache gives the same weights as a drawing without a cache.  Only where there
are too many of them to be drawn it gives none.

A change of the seed does not empty a cache.  Only a cache whose seed is kept is coherent.

Main results:

- Theorem `Weights.Begins.toList_eq`: the beginning of a stream is determined by its size.
- Theorem `WeightCache.after_weights_cases`: what a request leaves.
- Theorem `WeightCache.Coherent.run_weights`: a coherent cache gives the weights of its seed, and
  stays coherent.
- Theorem `WeightSource.Serves.run_weights`: so does every source that serves a seed.
-/

namespace BranchBound

namespace Weights

/-- The weight at a position of the stream of a seed, drawn by itself. -/
def nth (seed k : Nat) : Binary64 := (ofSeed (k + 1) seed).entry k

/-- Whether weights are the beginning of the stream of a seed. -/
def Begins (ws : Weights) (seed : Nat) : Prop := ∀ k, k < ws.size → ws.entry k = nth seed k

@[simp] theorem size_ofSeed (n seed : Nat) : (ofSeed n seed).size = n := rfl

theorem begins_ofSeed (n seed : Nat) : (ofSeed n seed).Begins seed := by
  intro k hk
  simp only [nth, entry, ofSeed]

theorem begins_empty (seed : Nat) : empty.Begins seed := by
  intro k hk
  exact absurd hk (Nat.not_lt_zero k)

theorem Begins.take {ws : Weights} {seed : Nat} (h : ws.Begins seed) (n : Int) :
    (ws.take n).Begins seed := by
  intro k hk
  have hlt : k < ws.size := Nat.lt_of_lt_of_le hk (signedCount_le ws.size n)
  have hentry : (ws.take n).entry k = ws.entry k := by
    simp only [entry, Weights.take]
  rw [hentry, h k hlt]

/-- The beginning of a stream is determined by its size. -/
theorem Begins.toList_eq {ws : Weights} {seed : Nat} (h : ws.Begins seed) :
    ws.toList = (ofSeed ws.size seed).toList := by
  apply List.ext_getElem?
  intro k
  by_cases hk : k < ws.size
  · have hk' : k < (ofSeed ws.size seed).size := by rwa [size_ofSeed]
    rw [getElem?_toList hk, getElem?_toList hk', h k hk, begins_ofSeed _ _ k hk']
  · rw [List.getElem?_eq_none (by rw [length_toList]; omega),
      List.getElem?_eq_none (by rw [length_toList, size_ofSeed]; omega)]

theorem size_take {ws : Weights} {n : Int} (hn : 0 ≤ n) (hle : n.toNat ≤ ws.size) :
    (ws.take n).size = n.toNat := by
  rw [Weights.take, signedCount, if_pos hn, Nat.min_eq_left hle]

/-- Some of the first weights are those that a shorter drawing gives. -/
theorem Begins.toList_take {ws : Weights} {seed n : Nat} (h : ws.Begins seed) (hle : n ≤ ws.size) :
    (ws.take n).toList = (ofSeed n seed).toList := by
  have hsize : (ws.take n).size = n := size_take (Int.natCast_nonneg n) hle
  rw [(h.take n).toList_eq, hsize]

/-- Every position in the beginning of a stream holds the weight drawn by itself. -/
theorem Begins.get?_eq {ws : Weights} {seed : Nat} (h : ws.Begins seed) {i : Int} (hi : 0 ≤ i)
    (hlt : i < ws.size) : ws.get? i = some (nth seed i.toNat) := by
  have hposition : signedPosition? ws.size i = some i.toNat := by
    rw [signedPosition?, if_pos hi, if_pos hlt]
  rw [get?, hposition, Option.map_some, h i.toNat (by omega)]

/-- A stream that is drawn without a cache. -/
theorem stream_eq_ok_iff {n seed : Int} {ws : Weights} :
    stream n seed = .ok ws ↔
      0 ≤ n ∧ 0 ≤ seed ∧ n ≤ greatestSize ∧ ws = ofSeed n.toNat seed.toNat := by
  unfold stream
  by_cases hneg : n < 0 ∨ seed < 0
  · rw [if_pos hneg]
    constructor
    · intro h
      cases h
    · rintro ⟨hn, hseed, -, -⟩
      omega
  · rw [if_neg hneg]
    by_cases hroom : greatestSize < n
    · rw [if_pos hroom]
      constructor
      · intro h
        cases h
      · rintro ⟨-, -, hle, -⟩
        omega
    · rw [if_neg hroom, Except.ok.injEq]
      constructor
      · intro h
        exact ⟨by omega, by omega, by omega, h.symm⟩
      · rintro ⟨-, -, -, h⟩
        exact h.symm

end Weights

namespace WeightCache

/-- Whether the weights that a cache holds are those of its seed. -/
def Coherent (c : WeightCache) : Prop := c.drawn.Begins c.seed.toNat

/-- Whether a cache holds some number of weights, or there is room for those that it draws when it
is asked for so many. -/
def HasRoom (c : WeightCache) (n : Int) : Prop :=
  n ≤ c.drawn.size ∨ c.growth n ≤ Weights.greatestSize

/-- There is as much room in a cache as in another one that holds as many weights. -/
theorem hasRoom_congr {c c' : WeightCache} (h : c.drawn.size = c'.drawn.size) (n : Int) :
    c.HasRoom n ↔ c'.HasRoom n := by
  rw [HasRoom, HasRoom, growth, growth, h]

theorem le_growth (c : WeightCache) (n : Int) : n ≤ c.growth n := by
  unfold growth
  omega

/-- A cache that draws weights anew is coherent, and has as many as were asked for. -/
theorem run_weights_of_lt {c : WeightCache} {n : Int} (h : (c.drawn.size : Int) < n)
    {drawn : Weights} (hdrawn : Weights.stream (c.growth n) c.seed = .ok drawn) :
    (weights n).run c = (.ok (drawn.take n), ⟨c.seed, drawn⟩) ∧
      drawn.Begins c.seed.toNat ∧ n.toNat ≤ drawn.size := by
  constructor
  · rw [weights, Action.run_bind_of_ok (Action.run_state c), if_pos h, hdrawn]
    rfl
  · rcases Weights.stream_eq_ok_iff.1 hdrawn with ⟨-, -, -, rfl⟩
    have hle := c.le_growth n
    rw [Weights.size_ofSeed]
    exact ⟨Weights.begins_ofSeed _ _, by omega⟩

theorem run_weights_of_error {c : WeightCache} {n : Int} (h : (c.drawn.size : Int) < n)
    {fault : Fault} (hdrawn : Weights.stream (c.growth n) c.seed = .error fault) :
    (weights n).run c = (.error fault, c) := by
  rw [weights, Action.run_bind_of_ok (Action.run_state c), if_pos h, hdrawn]
  rfl

/-- Where there is room, a cache that is asked for more weights than it holds draws them. -/
theorem stream_growth {c : WeightCache} (hseed : 0 ≤ c.seed) {n : Int}
    (hfew : (c.drawn.size : Int) < n) (hroom : c.HasRoom n) :
    Weights.stream (c.growth n) c.seed = .ok (.ofSeed (c.growth n).toNat c.seed.toNat) := by
  have hle := c.le_growth n
  exact Weights.stream_eq_ok_iff.2
    ⟨by omega, hseed, hroom.resolve_left (Int.not_le.2 hfew), rfl⟩

/-- Without room nothing is given, and nothing changes. -/
theorem run_weights_of_no_room {c : WeightCache} (hseed : 0 ≤ c.seed) {n : Int}
    (hroom : ¬ c.HasRoom n) : (weights n).run c = (.error .noRoom, c) := by
  rw [HasRoom, not_or, Int.not_le, Int.not_le] at hroom
  have hle := c.le_growth n
  apply run_weights_of_error hroom.1
  rw [Weights.stream, if_neg (by omega), if_pos hroom.2]

/-- A request leaves a cache as it is, or with weights of its seed drawn anew. -/
theorem after_weights_cases (c : WeightCache) (n : Int) :
    ((weights n).run c).2 = c ∨
      ∃ drawn : Weights, drawn.Begins c.seed.toNat ∧ ((weights n).run c).2 = ⟨c.seed, drawn⟩ := by
  by_cases hfew : (c.drawn.size : Int) < n
  · cases hdrawn : Weights.stream (c.growth n) c.seed with
    | error fault =>
      left
      rw [run_weights_of_error hfew hdrawn]
    | ok drawn =>
      right
      rcases run_weights_of_lt hfew hdrawn with ⟨hrun, hbegins, -⟩
      exact ⟨drawn, hbegins, by rw [hrun]⟩
  · left
    rw [run_weights_of_le (by omega)]

/-- A coherent cache stays coherent, whatever is asked of it. -/
theorem Coherent.after_weights {c : WeightCache} (h : c.Coherent) (n : Int) :
    ((weights n).run c).2.Coherent := by
  rcases c.after_weights_cases n with hsame | ⟨drawn, hbegins, hdrawn⟩
  · rwa [hsame]
  · rw [hdrawn]
    exact hbegins

/-- The seed is kept, whatever is asked. -/
theorem seed_after_weights (c : WeightCache) (n : Int) : ((weights n).run c).2.seed = c.seed := by
  rcases c.after_weights_cases n with hsame | ⟨drawn, -, hdrawn⟩
  · rw [hsame]
  · rw [hdrawn]

/-- Where there is room, a cache gives as many weights as are asked for, and a coherent one those of
its seed. -/
theorem run_weights_of_room {c : WeightCache} (hseed : 0 ≤ c.seed) {n : Int} (hn : 0 ≤ n)
    (hroom : c.HasRoom n) :
    ∃ ws c', (weights n).run c = (.ok ws, c') ∧ ws.size = n.toNat ∧
      (c.Coherent → ws.Begins c.seed.toNat) := by
  by_cases hfew : (c.drawn.size : Int) < n
  · rcases run_weights_of_lt hfew (stream_growth hseed hfew hroom) with ⟨hrun, hbegins, hsize⟩
    exact ⟨_, _, hrun, Weights.size_take hn hsize, fun _ => hbegins.take n⟩
  · exact ⟨_, _, run_weights_of_le (by omega), Weights.size_take hn (by omega),
      fun h => Weights.Begins.take h n⟩

/-- A coherent cache gives the weights of its seed, unless there is no room for them. -/
theorem Coherent.run_weights {c : WeightCache} (h : c.Coherent) (hseed : 0 ≤ c.seed) {n : Int}
    (hn : 0 ≤ n) :
    (c.HasRoom n ∧ ∃ ws c', (weights n).run c = (.ok ws, c') ∧ c'.Coherent ∧ c'.seed = c.seed ∧
        ws.size = n.toNat ∧ ws.Begins c.seed.toNat) ∨
      ¬ c.HasRoom n ∧ (weights n).run c = (.error .noRoom, c) := by
  by_cases hroom : c.HasRoom n
  · rcases run_weights_of_room hseed hn hroom with ⟨ws, c', hrun, hsize, hbegins⟩
    have hcoherent := h.after_weights n
    have hkept := c.seed_after_weights n
    rw [hrun] at hcoherent hkept
    exact Or.inl ⟨hroom, ws, c', hrun, hcoherent, hkept, hsize, hbegins h⟩
  · exact Or.inr ⟨hroom, run_weights_of_no_room hseed hroom⟩

end WeightCache

namespace WeightSource

/-- Whether a source gives the weights of a seed. -/
def Serves (seed : Nat) : WeightSource → Prop
  | standard => (seed : Int) = Weights.defaultSeed
  | cache c => c.Coherent ∧ c.seed = seed
  | absent => False

theorem run_weights_standard (n : Int) :
    (weights n).run standard = (Weights.stream n Weights.defaultSeed, standard) := rfl

theorem run_weights_cache (n : Int) (c : WeightCache) :
    (weights n).run (cache c) =
      (((WeightCache.weights n).run c).1, cache ((WeightCache.weights n).run c).2) := rfl

/-- Whether there is room in a source for some number of weights. -/
def HasRoom : WeightSource → Int → Prop
  | cache c, n => c.HasRoom n
  | standard, n | absent, n => n ≤ Weights.greatestSize

/-- There is always room for no weights. -/
theorem hasRoom_zero (source : WeightSource) : source.HasRoom 0 := by
  have hnone : (0 : Int) ≤ Weights.greatestSize := Int.natCast_nonneg _
  cases source with
  | cache c => exact Or.inl (Int.natCast_nonneg _)
  | standard | absent => exact hnone

/-- Where there is room, the default stream has its weights. -/
theorem run_weights_standard_of_room {n : Int} (hn : 0 ≤ n) (hroom : standard.HasRoom n) :
    (weights n).run standard =
      (.ok (.ofSeed n.toNat Weights.defaultSeed.toNat), standard) := by
  have hstream := Weights.stream_eq_ok_iff.2
    ⟨hn, show 0 ≤ Weights.defaultSeed by decide, hroom, rfl⟩
  rw [run_weights_standard, hstream]

theorem run_weights_standard_of_no_room {n : Int} (hroom : ¬ standard.HasRoom n) :
    (weights n).run standard = (.error .noRoom, standard) := by
  have hmany : (Weights.greatestSize : Int) < n := Int.not_le.1 hroom
  have hseed : ¬ Weights.defaultSeed < 0 := by decide
  rw [run_weights_standard, Weights.stream, if_neg (by omega), if_pos hmany]

/-- A source gives the weights of the seed that it serves, unless there is no room for them. -/
theorem Serves.run_weights {seed : Nat} {source : WeightSource} (h : source.Serves seed) {n : Int}
    (hn : 0 ≤ n) :
    (source.HasRoom n ∧ ∃ ws source', (weights n).run source = (.ok ws, source') ∧
        source'.Serves seed ∧ ws.size = n.toNat ∧ ws.Begins seed) ∨
      ¬ source.HasRoom n ∧ (weights n).run source = (.error .noRoom, source) := by
  cases source with
  | absent => exact h.elim
  | standard =>
    have hseed : (Weights.defaultSeed).toNat = seed := by
      unfold Serves at h
      omega
    by_cases hroom : standard.HasRoom n
    · rw [run_weights_standard_of_room hn hroom, hseed]
      exact Or.inl ⟨hroom, _, _, rfl, h, rfl, Weights.begins_ofSeed _ _⟩
    · exact Or.inr ⟨hroom, run_weights_standard_of_no_room hroom⟩
  | cache c =>
    rcases h with ⟨hcoherent, hseed⟩
    rcases hcoherent.run_weights (by omega) hn with
      ⟨hroom, ws, c', hweights, hc', hkept, hsize, hbegins⟩ | ⟨hroom, hweights⟩
    · rw [run_weights_cache, hweights]
      rw [hseed, Int.toNat_natCast] at hbegins
      exact Or.inl ⟨hroom, ws, _, rfl, ⟨hc', by rw [hkept, hseed]⟩, hsize, hbegins⟩
    · rw [run_weights_cache, hweights]
      exact Or.inr ⟨hroom, rfl⟩

/-- Whether a source that is a cache is coherent, if its seed has a property. -/
def CoherentIf (A : Int → Prop) : WeightSource → Prop
  | cache c => A c.seed → c.Coherent
  | _ => True

/-- A source stays coherent, whatever is asked of it. -/
theorem keeps_weights (A : Int → Prop) (n : Int) :
    Action.Keeps (CoherentIf A) (weights n) := by
  intro source h
  cases source with
  | standard | absent => trivial
  | cache c =>
    intro hseed
    have hkept := WeightCache.seed_after_weights c n
    apply WeightCache.Coherent.after_weights
    apply h
    rwa [← hkept]

end WeightSource

end BranchBound
