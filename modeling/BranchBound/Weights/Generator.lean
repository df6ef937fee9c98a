import BranchBound.Binary64.Arith
import BranchBound.Weights.Seed

/-!
# A permuted congruential generator

The state of the generator is a number of 128 bits that is multiplied and incremented at every
draw.  What is drawn are 64 bits: the two halves of the state combined, turned by as many places
as its six leading bits say.

A change of the state that is made many times is a change of the same form, and doubling finds it
in as many steps as the number of times has digits.  So a word far ahead is drawn without those
before it.

Main results:

- `Stride.repeated_succ`: a repeated change is made once more by making it first.
- `Generator.length_draws`: as many words are drawn as are asked for.
- `Generator.draws_take`: fewer draws give the beginning of more.
- `Generator.getElem?_draws`: the word at a position is drawn after a skip to it.
-/

namespace BranchBound

/-- A change of the state of a generator: a product and a sum. -/
structure Stride where
  /-- What the state is multiplied by. -/
  factor : BitVec 128
  /-- What is added. -/
  summand : BitVec 128

namespace Stride

/-- The state after a change. -/
def apply (s : Stride) (x : BitVec 128) : BitVec 128 := x * s.factor + s.summand

/-- A change made twice. -/
def twice (s : Stride) : Stride := ⟨s.factor * s.factor, s.summand * s.factor + s.summand⟩

/-- The state after a change is made a number of times. -/
def repeated (s : Stride) (n : Nat) (x : BitVec 128) : BitVec 128 :=
  if n = 0 then x
  else s.twice.repeated (n / 2) (if n % 2 = 1 then s.apply x else x)
termination_by n
decreasing_by omega

theorem apply_twice (s : Stride) (x : BitVec 128) : s.twice.apply x = s.apply (s.apply x) := by
  simp only [apply, twice, BitVec.add_mul, BitVec.mul_assoc, BitVec.add_assoc]

@[simp] theorem repeated_zero (s : Stride) (x : BitVec 128) : s.repeated 0 x = x := by
  simp [repeated]

/-- A repeated change is a repetition of the change made twice, after one that is left over. -/
theorem repeated_eq (s : Stride) (n : Nat) (x : BitVec 128) :
    s.repeated n x = s.twice.repeated (n / 2) (if n % 2 = 1 then s.apply x else x) := by
  by_cases h : n = 0
  · simp [h]
  · rw [repeated, if_neg h]

/-- A change is made once more by making it first. -/
theorem repeated_succ (s : Stride) (n : Nat) (x : BitVec 128) :
    s.repeated (n + 1) x = s.repeated n (s.apply x) := by
  induction n using Nat.strongRecOn generalizing s x with
  | ind n ih =>
    rw [repeated_eq s (n + 1) x, repeated_eq s n (s.apply x)]
    rcases Nat.mod_two_eq_zero_or_one n with h | h
    · rw [if_pos (by omega), if_neg (by omega), show (n + 1) / 2 = n / 2 by omega]
    · rw [if_neg (by omega), if_pos h, show (n + 1) / 2 = n / 2 + 1 by omega,
        ih (n / 2) (by omega), apply_twice]

end Stride

/-- A generator of words of 64 bits. -/
structure Generator where
  /-- The state that the next draw starts from. -/
  state : BitVec 128
  /-- How the state changes at every draw. -/
  stride : Stride

namespace Generator

/-- What the state is multiplied by at every draw. -/
def multiplier : BitVec 128 := 0x2360ed051fc65da44385df649fccf645#128

/-- The generator after one change of its state. -/
def advance (g : Generator) : Generator := { g with state := g.stride.apply g.state }

/-- The generator after a number of changes of its state. -/
def skip (n : Nat) (g : Generator) : Generator :=
  { g with state := g.stride.repeated n g.state }

/-- The word of a state: its halves combined, turned right by its six leading bits. -/
def output (g : Generator) : BitVec 64 :=
  let combined := g.state.extractLsb' 64 64 ^^^ g.state.extractLsb' 0 64
  combined.rotateRight (g.state.extractLsb' 122 6).toNat

/-- Words of 32 bits put together to one number, the least first. -/
def join (ws : List UInt32) : Nat := ws.foldr (fun w n => w.toNat + 0x100000000 * n) 0

/-- The generator of a seed. -/
def ofSeed (seed : Nat) : Generator :=
  let ws := Seed.draw 8 seed
  let high := join (ws.take 2)
  let low := join ((ws.drop 2).take 2)
  let start := BitVec.ofNat 128 (high * 0x10000000000000000 + low)
  let high := join ((ws.drop 4).take 2)
  let low := join (ws.drop 6)
  let increment := BitVec.ofNat 128 ((high * 0x10000000000000000 + low) * 2 + 1)
  advance ⟨start + increment, ⟨multiplier, increment⟩⟩

/-- The words of the next draws. -/
def draws : Nat → Generator → List (BitVec 64)
  | 0, _ => []
  | n + 1, g => g.advance.output :: draws n g.advance

@[simp] theorem length_draws (n : Nat) (g : Generator) : (draws n g).length = n := by
  induction n generalizing g with
  | zero => rfl
  | succ n ih => simp [draws, ih]

/-- Fewer draws give the beginning of more. -/
theorem draws_take {m n : Nat} (h : m ≤ n) (g : Generator) :
    (draws n g).take m = draws m g := by
  induction m generalizing n g with
  | zero => rfl
  | succ m ih =>
    obtain ⟨n, rfl⟩ : ∃ k, n = k + 1 := ⟨n - 1, by omega⟩
    simp [draws, ih (by omega : m ≤ n)]

@[simp] theorem skip_zero (g : Generator) : g.skip 0 = g := by
  rw [skip, Stride.repeated_zero]

theorem skip_succ (n : Nat) (g : Generator) : g.skip (n + 1) = g.advance.skip n := by
  obtain ⟨x, s⟩ := g
  show Generator.mk (s.repeated (n + 1) x) s = Generator.mk (s.repeated n (s.apply x)) s
  rw [Stride.repeated_succ]

/-- The word at a position is drawn after a skip to it. -/
theorem getElem?_draws {n k : Nat} (h : k < n) (g : Generator) :
    (draws n g)[k]? = some (g.skip (k + 1)).output := by
  induction k generalizing n g with
  | zero =>
    obtain ⟨n, rfl⟩ : ∃ m, n = m + 1 := ⟨n - 1, by omega⟩
    rw [draws, List.getElem?_cons_zero, skip_succ, skip_zero]
  | succ k ih =>
    obtain ⟨n, rfl⟩ : ∃ m, n = m + 1 := ⟨n - 1, by omega⟩
    rw [draws, List.getElem?_cons_succ, ih (by omega), skip_succ (k + 1)]

end Generator

end BranchBound
