import BranchBound.Proofs.Row.Lookup
import BranchBound.Proofs.Workspace.History

/-!
# The order of a row

A row that is built has its indices in ascending order.  A row that is read has them in the order in
which they were sent, whatever that is: only the bytes decide whether they ascend.

To hash a row as many weights are drawn as its last index needs.  If that index is the greatest, as
it is in ascending order, there is a weight for every other one; if it is not, the greatest index is
out of bounds.

Main results:

- Theorem `Row.Origin.sorted_iff`: which rows have their indices in ascending order.
- Theorem `Row.hashedByLast`: a row of natural indices has a hash exactly if the last one is the
  greatest, as far as there is room for its weights.
- Theorem `Row.sorted_iff_and_hashedByLast`: so every row in order has a hash, and every row that
  is built.
-/

namespace BranchBound

/-! ## Where rows come from -/

namespace Row

variable {r : Row Binary64}

/-- The indices among the bytes of a row, as they were sent: the header is followed by their number,
and that by themselves. -/
def sentIndices (bs : List UInt8) : List Int :=
  let array := bs.drop 53
  let count := (Wire.decodeInt (array.take 4)).toNat
  Buffer.decodeEach 4 Wire.decodeInt count ((array.drop 4).take (count * 4))

/-- A row that bytes stand for has the indices that were sent. -/
theorem sentIndices_eq {bs : List UInt8} (h : grammar bs r) (rest : List UInt8) :
    sentIndices (bs ++ rest) = r.indices := by
  rcases h with ⟨front, reals, hheader, hlength, hindices, -, -, rfl⟩
  rcases (Grammar.each_iff fun _ _ => Grammar.int_iff).1 (Grammar.each_int_iff.2 ⟨hindices, rfl⟩)
    with ⟨hbytes, hvalues⟩
  simp only [sentIndices, indexBytes, List.append_assoc,
    List.drop_left' (Grammar.length_header hheader), List.take_left' (Wire.length_encodeInt _),
    List.drop_left' (Wire.length_encodeInt _), Wire.decodeInt_encodeInt hlength, Int.toNat_natCast,
    List.take_left' hbytes]
  exact hvalues.symm

/-- What a row is made from: fields, or the bytes that come next in a buffer. -/
inductive Origin where
  /-- A row is built from fields. -/
  | fields (f : Fields)
  /-- A row is read from a buffer. -/
  | buffer (b : Buffer)

namespace Origin

/-- Whether a row is what is made from an origin. -/
def Gives : Origin → Row Binary64 → Prop
  | fields f, r => Object.build .row f = .ok (.row r)
  | buffer b, r => b.cursor ≤ b.size ∧ ∃ b', decode.run b = (.ok r, b')

/-- Whether what is made from an origin has its indices in order. -/
def InOrder : Origin → Prop
  | fields _ => True
  | buffer b => (sentIndices b.unread).Pairwise (· ≤ ·)

/-- Rows that are built have their indices in ascending order, and so have those that are read in
this order. -/
theorem sorted_iff {origin : Origin} (h : origin.Gives r) :
    r.indices.Pairwise (· ≤ ·) ↔ origin.InOrder := by
  cases origin with
  | fields f => exact iff_of_true (Object.sorted_of_build h) trivial
  | buffer b =>
    rcases h with ⟨hb, b', hrun⟩
    rcases reads_decode.sound hb hrun with ⟨bs, rest, hnext, hrow, -⟩
    rw [InOrder, hnext, sentIndices_eq hrow]

end Origin

end Row

/-! ## Drawing weights -/

namespace WeightSource

/-- Whether weights can be drawn from a source: the default stream, or a cache whose seed is not
negative, whatever it holds. -/
def Open : WeightSource → Prop
  | standard => True
  | cache c => 0 ≤ c.seed
  | absent => False

/-- Where there is room, as many weights are given as were asked for. -/
theorem Open.run_weights_of_room {source : WeightSource} {n : Int} (h : source.Open) (hn : 0 ≤ n)
    (hroom : source.HasRoom n) :
    ∃ ws source', (weights n).run source = (.ok ws, source') ∧ ws.size = n.toNat := by
  cases source with
  | absent => exact h.elim
  | standard => exact ⟨_, _, run_weights_standard_of_room hn hroom, Weights.size_ofSeed _ _⟩
  | cache c =>
    rcases WeightCache.run_weights_of_room h hn hroom with ⟨ws, c', hrun, hsize, -⟩
    rw [run_weights_cache, hrun]
    exact ⟨ws, _, rfl, hsize⟩

/-- Where there is none, nothing changes. -/
theorem Open.run_weights_of_no_room {source : WeightSource} {n : Int} (h : source.Open)
    (hroom : ¬ source.HasRoom n) : (weights n).run source = (.error .noRoom, source) := by
  cases source with
  | absent => exact h.elim
  | standard => exact run_weights_standard_of_no_room hroom
  | cache c => rw [run_weights_cache, WeightCache.run_weights_of_no_room h hroom]

end WeightSource

/-! ## Hashing in and out of order -/

namespace Row

variable {r : Row Binary64} {source : WeightSource}

/-- Whether no index of a row is greater than its last one. -/
def LastGreatest (r : Row Binary64) : Prop :=
  ∀ last, r.indices.getLast? = some last → ∀ i ∈ r.indices, i ≤ last

/-- What hashing a row comes to with some source of weights. -/
structure HashedByLast (r : Row Binary64) (source : WeightSource) : Prop where
  /-- There is a hash if the last index is the greatest. -/
  hashed : source.HasRoom r.demand → r.LastGreatest →
    ∃ v source', r.hashing.run source = (.ok v, source')
  /-- An index is out of bounds if it is not. -/
  outOfBounds : source.HasRoom r.demand → ¬ r.LastGreatest →
    ∃ source', r.hashing.run source = (.error .outOfBounds, source')
  /-- There is no hash without room for the weights. -/
  noRoom : ¬ source.HasRoom r.demand → r.hashing.run source = (.error .noRoom, source)

theorem lastGreatest_of_sorted (h : r.indices.Pairwise (· ≤ ·)) : r.LastGreatest :=
  fun _ hlast => le_last h hlast

theorem demand_nonneg (hpos : ∀ i ∈ r.indices, 0 ≤ i) : 0 ≤ r.demand := by
  cases hlast : r.indices.getLast? with
  | none => exact Int.le_of_eq (demand_of_nil (List.getLast?_eq_none_iff.1 hlast)).symm
  | some last =>
    have hnonneg := hpos last (List.mem_of_getLast? hlast)
    rw [demand_eq hlast]
    omega

theorem exists_greater {last : Int} (hlast : r.indices.getLast? = some last)
    (hnot : ¬ r.LastGreatest) : ∃ i ∈ r.indices, last < i := by
  apply Classical.byContradiction
  intro hnone
  apply hnot
  intro last' hlast' i hi
  rw [hlast, Option.some.injEq] at hlast'
  have hle : ¬ last < i := fun hlt => hnone ⟨i, hi, hlt⟩
  omega

/-- Up to the last index there are weights for all indices. -/
theorem exists_run_hashing {last : Int} (hpos : ∀ i ∈ r.indices, 0 ≤ i) (hs : source.Open)
    (hroom : source.HasRoom r.demand) (hlast : r.indices.getLast? = some last)
    (hle : ∀ i ∈ r.indices, i ≤ last) :
    ∃ v source', r.hashing.run source = (.ok v, source') := by
  have hne : r.indices ≠ [] := List.ne_nil_of_mem (List.mem_of_getLast? hlast)
  have hdemand := demand_eq hlast
  rcases hs.run_weights_of_room (demand_nonneg hpos) hroom with ⟨ws, source', hrun, hsize⟩
  have hfound : ∀ i ∈ r.indices, ws.get? i ≠ none := by
    intro i hi
    have hi_nonneg := hpos i hi
    have hi_le := hle i hi
    rw [Ne, Weights.get?_eq_none_iff]
    omega
  rcases exists_run_hashing_of_found hne hrun hfound with ⟨v, hv⟩
  exact ⟨v, source', hv⟩

/-- A greater index than the last one is out of bounds. -/
theorem run_hashing_of_greater {last i : Int} (hpos : ∀ i ∈ r.indices, 0 ≤ i) (hs : source.Open)
    (hroom : source.HasRoom r.demand) (hlast : r.indices.getLast? = some last)
    (hi : i ∈ r.indices) (hgreater : last < i) :
    ∃ source', r.hashing.run source = (.error .outOfBounds, source') := by
  have hdemand := demand_eq hlast
  rcases hs.run_weights_of_room (demand_nonneg hpos) hroom with ⟨ws, source', hrun, hsize⟩
  have hnone : ws.get? i = none := by
    rw [Weights.get?_eq_none_iff]
    omega
  exact ⟨source', run_hashing_of_missing hi hrun hnone⟩

/-- A row of natural indices has a hash exactly if the last one is the greatest, as far as there is
room for its weights. -/
theorem hashedByLast (hpos : ∀ i ∈ r.indices, 0 ≤ i) (hs : source.Open) :
    r.HashedByLast source := by
  cases hlast : r.indices.getLast? with
  | none =>
    have hnil := List.getLast?_eq_none_iff.1 hlast
    have hgreatest : r.LastGreatest := by
      intro last hsome
      rw [hlast] at hsome
      cases hsome
    have hroom : source.HasRoom r.demand := by
      rw [demand_of_nil hnil]
      exact source.hasRoom_zero
    constructor
    · exact fun _ _ => ⟨_, source, run_hashing_of_nil hnil source⟩
    · exact fun _ hnot => absurd hgreatest hnot
    · exact fun hnone => absurd hroom hnone
  | some last =>
    constructor
    · exact fun hroom hgreatest => exists_run_hashing hpos hs hroom hlast (hgreatest last hlast)
    · intro hroom hnot
      rcases exists_greater hlast hnot with ⟨i, hi, hgreater⟩
      exact run_hashing_of_greater hpos hs hroom hlast hi hgreater
    · intro hnone
      exact run_hashing_of_error (List.ne_nil_of_mem (List.mem_of_getLast? hlast))
        (hs.run_weights_of_no_room hnone)

/-! ## Rows of any origin -/

/-- Rows that are built have their indices in ascending order, and rows that are read exactly if
this is the order in which they were sent.  Any of them, if its indices are natural, has a hash in
that order, as far as there is room for its weights; in another order it has one exactly if its last
index is the greatest. -/
theorem sorted_iff_and_hashedByLast {origin : Origin} (h : origin.Gives r) :
    (r.indices.Pairwise (· ≤ ·) ↔ origin.InOrder) ∧
      (origin.InOrder → r.LastGreatest) ∧
      ((∀ i ∈ r.indices, 0 ≤ i) →
        ∀ source : WeightSource, source.Open → r.HashedByLast source) := by
  have hsorted := Origin.sorted_iff h
  exact ⟨hsorted, fun horder => lastGreatest_of_sorted (hsorted.2 horder),
    fun hpos _ hs => hashedByLast hpos hs⟩

/-- A row with its greater index first. -/
def disordered : Row Binary64 := { initial with indices := [3, 1], coefficients := [2.0, 1.0] }

/-- The buffer that the record of that row was written to. -/
def disorderedBuffer : Buffer := { bytes := disordered.record }

/-- The row is read from that buffer. -/
theorem gives_disordered : (Origin.buffer disorderedBuffer).Gives disordered := by
  have hfits : disordered.Fits := by
    constructor
    · decide
    · decide
    · decide
    · simp only [disordered, List.length_cons, List.length_nil]
  have hunread : disorderedBuffer.unread = disordered.record ++ [] := (List.append_nil _).symm
  exact ⟨Nat.zero_le _, _,
    reads_decode.complete (Nat.zero_le _) hunread (grammar_record hfits)⟩

/-- For that row. -/
theorem sorted_iff_and_hashedByLast_disordered :
    (disordered.indices.Pairwise (· ≤ ·) ↔ (Origin.buffer disorderedBuffer).InOrder) ∧
      ((Origin.buffer disorderedBuffer).InOrder → disordered.LastGreatest) ∧
      ((∀ i ∈ disordered.indices, 0 ≤ i) →
        ∀ source : WeightSource, source.Open → disordered.HashedByLast source) :=
  sorted_iff_and_hashedByLast gives_disordered

/-- The row is read without a fault and its indices are natural, but they are not in ascending order
and it has no hash. -/
theorem disordered_has_no_hash :
    (Origin.buffer disorderedBuffer).Gives disordered ∧ (∀ i ∈ disordered.indices, 0 ≤ i) ∧
      ¬ disordered.indices.Pairwise (· ≤ ·) ∧
      ∃ source', disordered.hashing.run .standard = (.error .outOfBounds, source') := by
  have hpos : ∀ i ∈ disordered.indices, 0 ≤ i := by decide
  have hlast : disordered.indices.getLast? = some 1 := rfl
  have hmem : 3 ∈ disordered.indices := by decide
  have hroom : WeightSource.standard.HasRoom disordered.demand := by
    show (2 : Int) ≤ Weights.greatestSize
    decide
  refine ⟨gives_disordered, hpos, by decide, ?_⟩
  exact run_hashing_of_greater hpos trivial hroom hlast hmem (by decide)

end Row

end BranchBound
