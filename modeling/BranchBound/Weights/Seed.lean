/-!
# Seeding

A seed of any size is spread over a pool of four words, and the pool is drawn out into as many
words as a generator needs.  Words have 32 bits, and their arithmetic wraps.

Every word that enters the pool is scrambled with a multiplier that changes from word to word,
and every word of the pool is mixed with every other, so that each bit of the seed bears on each
bit of the state.

Main results:

- `Seed.length_draw`: as many words are drawn as are asked for.
-/

namespace BranchBound

namespace Seed

/-- The words of a seed, the least first; zero has one word. -/
def words (n : Nat) : List UInt32 :=
  if h : n < 0x100000000 then [UInt32.ofNat n]
  else UInt32.ofNat n :: words (n / 0x100000000)
termination_by n
decreasing_by omega

/-- A word with its upper half folded onto its lower one. -/
def fold (w : UInt32) : UInt32 := w ^^^ (w >>> 16)

/-- The first multiplier of scrambling. -/
def scrambleStart : UInt32 := 0x43b0d7e5

/-- What the multiplier of scrambling is multiplied by from word to word. -/
def scrambleStep : UInt32 := 0x931e8875

/-- The first multiplier of drawing. -/
def drawStart : UInt32 := 0x8b51f9dd

/-- What the multiplier of drawing is multiplied by from word to word. -/
def drawStep : UInt32 := 0x58f38ded

/-- A word scrambled with a multiplier, and the next multiplier. -/
def scramble (step multiplier w : UInt32) : UInt32 × UInt32 :=
  let next := multiplier * step
  (fold ((w ^^^ multiplier) * next), next)

/-- Two words mixed into one. -/
def mix (a b : UInt32) : UInt32 := fold (a * 0xca01f9dd - b * 0x4973f715)

/-- Four words, and the multiplier for the next word that is scrambled. -/
structure Pool where
  /-- The words. -/
  entries : Vector UInt32 4
  /-- The multiplier. -/
  multiplier : UInt32

namespace Pool

/-- Sets a word of the pool to the scrambled word given. -/
def enter (p : Pool) (i : Fin 4) (w : UInt32) : Pool :=
  let (s, multiplier) := scramble scrambleStep p.multiplier w
  ⟨p.entries.set i s, multiplier⟩

/-- Mixes a scrambled word into a word of the pool. -/
def stir (p : Pool) (i : Fin 4) (w : UInt32) : Pool :=
  let (s, multiplier) := scramble scrambleStep p.multiplier w
  ⟨p.entries.set i (mix p.entries[i] s), multiplier⟩

/-- Mixes a word into every word of the pool. -/
def stirAll (p : Pool) (w : UInt32) : Pool := (List.finRange 4).foldl (·.stir · w) p

/-- Mixes a word of the pool into every other. -/
def spread (p : Pool) (i : Fin 4) : Pool :=
  (List.finRange 4).foldl (fun p j => if i = j then p else p.stir j p.entries[i]) p

/-- The pool of the words of a seed: the first four enter it, they are mixed with each other, and
the words after them are mixed in. -/
def ofWords (ws : List UInt32) : Pool :=
  let empty : Pool := ⟨.replicate 4 0, scrambleStart⟩
  let entered := (List.finRange 4).foldl (fun p i => p.enter i (ws.getD i 0)) empty
  let spread := (List.finRange 4).foldl spread entered
  (ws.drop 4).foldl stirAll spread

end Pool

/-- The scrambled words of a list, with multipliers that start from the one given. -/
def drawAll (multiplier : UInt32) : List UInt32 → List UInt32
  | [] => []
  | w :: ws =>
    let (s, next) := scramble drawStep multiplier w
    s :: drawAll next ws

/-- Words drawn from the pool of a seed, its four words taken in turn. -/
def draw (count seed : Nat) : List UInt32 :=
  let pool := Pool.ofWords (words seed)
  drawAll drawStart <|
    (List.range count).map fun i => pool.entries.get ⟨i % 4, Nat.mod_lt i (by decide)⟩

theorem length_drawAll (multiplier : UInt32) (ws : List UInt32) :
    (drawAll multiplier ws).length = ws.length := by
  induction ws generalizing multiplier with
  | nil => rfl
  | cons w ws ih => simp [drawAll, ih]

/-- As many words are drawn as are asked for. -/
theorem length_draw (count seed : Nat) : (draw count seed).length = count := by
  simp [draw, length_drawAll]

end Seed

end BranchBound
