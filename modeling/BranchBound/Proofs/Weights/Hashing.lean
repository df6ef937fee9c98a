import BranchBound.Object.Search
import BranchBound.Proofs.Weights.Cache

/-!
# Hashes as values

The hash of an object is a value of what identifies the object and of a seed.  A column is
identified by its index, and a row by its hard bounds, its indices and its coefficients; what else
an object has, its soft bounds among it, does not enter.

The value is put together from single weights, each drawn by itself: those of the seed for the
indices, and two of a seed of their own for the bounds.  It is what hashing gives with every source
that serves the seed, whatever the source was asked before.

Main results:

- Theorem `Identity.bounds_eq_boundHash`: what the bounds add to the hash of a row.
- Theorem `Object.run_hashing`: hashing gives the value of the identity of an object.
- Theorem `Object.keeps_hashing`: hashing leaves a coherent source coherent.
-/

namespace BranchBound

/-- What the hash of an object depends on. -/
inductive Identity where
  /-- Nothing; the hash is zero. -/
  | nothing
  /-- An index. -/
  | place (index : Int)
  /-- Hard bounds and terms. -/
  | terms (hard : Interval Binary64) (indices : List Int) (coefficients : List Binary64)

namespace Identity

/-- The inverse tangents of two bounds, with the first weights of the seed after the default one. -/
def bounds (hard : Interval Binary64) : Binary64 :=
  Weights.nth (Weights.defaultSeed + 1).toNat 0 * hard.lower.arctan +
    Weights.nth (Weights.defaultSeed + 1).toNat 1 * hard.upper.arctan

/-- The hash of an identity, from weights that are drawn one by one. -/
def hash (seed : Nat) : Identity → Binary64
  | nothing => 0.0
  | place index => if index < 0 then 0.0 else Weights.nth seed index.toNat
  | terms hard indices coefficients =>
    if indices.isEmpty then bounds hard
    else bounds hard + dot coefficients (indices.map fun i => Weights.nth seed i.toNat)

/-- How many weights are asked for. -/
def demand : Identity → Int
  | nothing => 0
  | place index => index + 1
  | terms _ indices _ => (indices.getLast?.map (· + 1)).getD 0

/-- What the bounds add to the hash of a row. -/
theorem bounds_eq_boundHash (hard : Interval Binary64) : bounds hard = Row.boundHash hard := by
  have hseed : (Weights.defaultSeed + 1).toNat = Row.boundSeed := by decide
  have hentry {k : Nat} (hk : k < 2) :
      (Weights.ofSeed 2 Row.boundSeed).entry k = Weights.nth Row.boundSeed k :=
    Weights.begins_ofSeed 2 _ k hk
  rw [bounds, hseed, Row.boundHash_eq, hentry (by decide), hentry (by decide)]

/-- Whether the indices of terms are natural numbers in ascending order. -/
def Ascending : Identity → Prop
  | terms _ indices _ => indices.Pairwise (· ≤ ·) ∧ ∀ i ∈ indices, 0 ≤ i
  | _ => True

end Identity

/-- What the hash of an object depends on. -/
def Object.identity : Object → Identity
  | column c => .place c.index
  | row r => .terms r.hard r.indices r.coefficients
  | _ => .nothing

/-! ## Rows -/

namespace Row

theorem gather_eq_ok {N : Type} {find : Int → Option N} {g : Int → N} {positions : List Int}
    (h : ∀ i ∈ positions, find i = some (g i)) :
    gather find positions = .ok (positions.map g) := by
  induction positions with
  | nil => rfl
  | cons i positions ih =>
    rw [List.forall_mem_cons] at h
    have hrest := ih h.2
    unfold gather at hrest ⊢
    rw [List.mapM_cons, h.1, hrest]
    rfl

/-- In ascending indices the last one is the greatest. -/
theorem le_last {indices : List Int} {last : Int} (hsorted : indices.Pairwise (· ≤ ·))
    (hlast : indices.getLast? = some last) : ∀ i ∈ indices, i ≤ last := by
  induction indices with
  | nil => simp
  | cons i indices ih =>
    rw [List.pairwise_cons] at hsorted
    intro j hj
    cases indices with
    | nil =>
      rcases List.mem_singleton.1 hj with rfl
      rw [List.getLast?_singleton, Option.some.injEq] at hlast
      omega
    | cons i' rest =>
      rw [List.getLast?_cons_cons] at hlast
      have hlast' := ih hsorted.2 hlast
      rcases List.mem_cons.1 hj with rfl | hj
      · have hnext := hsorted.1 i' List.mem_cons_self
        have hend := hlast' i' List.mem_cons_self
        omega
      · exact hlast' j hj

/-- The weights up to the last index hold those of all indices. -/
theorem combine_eq_ok {r : Row Binary64} {seed : Nat} {ws : Weights} {last : Int}
    (hsorted : r.indices.Pairwise (· ≤ ·)) (hpos : ∀ i ∈ r.indices, 0 ≤ i)
    (hlast : r.indices.getLast? = some last) (hsize : ws.size = (last + 1).toNat)
    (hws : ws.Begins seed) :
    r.combine ws.get? =
      .ok (dot r.coefficients (r.indices.map fun i => Weights.nth seed i.toNat)) := by
  have hfind : ∀ i ∈ r.indices, ws.get? i = some (Weights.nth seed i.toNat) := by
    intro i hi
    have hle := le_last hsorted hlast i hi
    have hnonneg := hpos i hi
    exact hws.get?_eq hnonneg (by omega)
  unfold combine
  rw [gather_eq_ok hfind]

end Row

/-! ## Hashing -/

theorem Column.run_hashing {c : Column Binary64} {seed : Nat} {source : WeightSource}
    (hs : source.Serves seed) :
    (∃ source', c.hashing.run source =
        (.ok (Identity.hash seed (.place c.index)), source') ∧ source'.Serves seed) ∨
      ¬ source.HasRoom (c.index + 1) ∧ c.hashing.run source = (.error .noRoom, source) := by
  by_cases hneg : c.index < 0
  · left
    exact ⟨source, by rw [run_hashing_of_unplaced hneg, Identity.hash, if_pos hneg], hs⟩
  · rcases hs.run_weights (n := c.index + 1) (by omega) with
      ⟨-, ws, source', hrun, hs', hsize, hws⟩ | ⟨hroom, hrun⟩
    · left
      have hget := hws.get?_eq (i := c.index) (by omega) (by omega)
      refine ⟨source', ?_, hs'⟩
      rw [hashing, if_neg hneg, Action.run_bind_of_ok hrun]
      simp only [hget, Identity.hash, if_neg hneg, Action.run_pure]
    · right
      exact ⟨hroom, by rw [hashing, if_neg hneg, Action.run_bind_of_error hrun]⟩

theorem Row.run_hashing {r : Row Binary64} {seed : Nat} {source : WeightSource}
    (hsorted : r.indices.Pairwise (· ≤ ·)) (hpos : ∀ i ∈ r.indices, 0 ≤ i)
    (hs : source.Serves seed) :
    (∃ source', r.hashing.run source =
        (.ok (Identity.hash seed (.terms r.hard r.indices r.coefficients)), source') ∧
          source'.Serves seed) ∨
      ¬ source.HasRoom (Identity.demand (.terms r.hard r.indices r.coefficients)) ∧
        r.hashing.run source = (.error .noRoom, source) := by
  cases hlast : r.indices.getLast? with
  | none =>
    have hnil := List.getLast?_eq_none_iff.1 hlast
    left
    refine ⟨source, ?_, hs⟩
    rw [run_hashing_of_nil hnil, Identity.hash, hnil, Identity.bounds_eq_boundHash]
    rfl
  | some last =>
    have hmem := List.mem_of_getLast? hlast
    have hempty : r.indices.isEmpty = false := by
      rw [List.isEmpty_eq_false_iff]
      exact List.ne_nil_of_mem hmem
    have hnonneg := hpos last hmem
    have hdemand : Identity.demand (.terms r.hard r.indices r.coefficients) = last + 1 := by
      rw [Identity.demand, hlast]
      rfl
    rcases hs.run_weights (n := last + 1) (by omega) with
      ⟨-, ws, source', hrun, hs', hsize, hws⟩ | ⟨hroom, hrun⟩
    · left
      have hterms := combine_eq_ok hsorted hpos hlast hsize hws
      refine ⟨source', ?_, hs'⟩
      simp only [hashing, hlast]
      rw [Action.run_bind_of_ok hrun, hterms, Identity.hash, hempty,
        Identity.bounds_eq_boundHash]
      rfl
    · right
      refine ⟨by rw [hdemand]; exact hroom, ?_⟩
      simp only [hashing, hlast]
      rw [Action.run_bind_of_error hrun]

namespace Object

/-- Hashing gives the value of the identity of an object, unless there is no room for the
weights. -/
theorem run_hashing {o : Object} {seed : Nat} {source : WeightSource} (ho : o.identity.Ascending)
    (hs : source.Serves seed) :
    (∃ source', o.hashing.run source = (.ok (o.identity.hash seed), source') ∧
        source'.Serves seed) ∨
      ¬ source.HasRoom o.identity.demand ∧
        o.hashing.run source = (.error .noRoom, source) := by
  cases o with
  | entity e | primal e | dual e => exact Or.inl ⟨source, rfl, hs⟩
  | column c => exact Column.run_hashing hs
  | row r => exact Row.run_hashing ho.1 ho.2 hs

/-- Hashing leaves a coherent source coherent, also where it fails. -/
theorem keeps_hashing (A : Int → Prop) (o : Object) :
    Action.Keeps (WeightSource.CoherentIf A) o.hashing := by
  cases o with
  | entity e | primal e | dual e => exact Action.keeps_pure _
  | column c =>
    show Action.Keeps _ c.hashing
    unfold Column.hashing
    split
    · exact Action.keeps_pure _
    · refine (WeightSource.keeps_weights A _).bind fun weights => ?_
      split
      · exact Action.keeps_pure _
      · exact Action.keeps_fail _
  | row r =>
    show Action.Keeps _ r.hashing
    unfold Row.hashing
    split
    · exact Action.keeps_pure _
    · refine (WeightSource.keeps_weights A _).bind fun weights => ?_
      exact (Action.keeps_ofExcept _).bind fun terms => Action.keeps_pure _

end Object

end BranchBound
