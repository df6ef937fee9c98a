import BranchBound.Branch
import BranchBound.Relaxation
import BranchBound.Sequence

/-!
# Rows

A row is a linear constraint: the sum of some variables, each times a coefficient, has to lie in
the soft range.  That sum, taken over the values of the relaxation, is the activity of the row.
Rows are never branched on.  Their infeasibility is the distance of the activity to the soft
range, squashed below one half so that it compares with that of columns.

A row that is built from a list of terms holds them in ascending order of their indices, terms of
one index in the order given.

Main results:

- `Row.sortTerms_perm` and `Row.sortTerms_sorted`: building a row only orders its terms.
- `Row.activity_nil`: an empty row has activity zero in every relaxation.
-/

namespace BranchBound

/-- A linear constraint. -/
structure Row (N : Type) extends Entity N where
  /-- The indices of the variables. -/
  indices : List Int
  /-- The coefficients of the variables. -/
  coefficients : List N
  deriving DecidableEq

namespace Row

variable {N : Type}

/-- Terms in ascending order of their indices; terms of one index keep their order. -/
def sortTerms (terms : List (Int × N)) : List (Int × N) :=
  terms.mergeSort fun s t => s.1 ≤ t.1

/-- The row of an entity with some terms. -/
def ofTerms (e : Entity N) (indices : List Int) (coefficients : List N) :
    Except Fault (Row N) :=
  if indices.length = coefficients.length then
    let terms := sortTerms (indices.zip coefficients)
    .ok { e with indices := terms.map Prod.fst, coefficients := terms.map Prod.snd }
  else .error (.unevenCoefficients indices.length coefficients.length)

/-- The numbers that are found at some positions. -/
def gather (find : Int → Option N) (positions : List Int) : Except Fault (List N) :=
  positions.mapM fun i =>
    match find i with
    | some x => .ok x
    | none => .error .outOfBounds

/-- Ordering the terms of a row loses and adds none. -/
theorem sortTerms_perm (terms : List (Int × N)) : (sortTerms terms).Perm terms :=
  List.mergeSort_perm terms _

/-- The order of terms by their indices is transitive. -/
theorem index_le_trans (s t u : Int × N) : decide (s.1 ≤ t.1) = true →
    decide (t.1 ≤ u.1) = true → decide (s.1 ≤ u.1) = true := by
  simp only [decide_eq_true_eq]
  omega

/-- Any two terms are in this order, one way or the other. -/
theorem index_le_total (s t : Int × N) :
    (decide (s.1 ≤ t.1) || decide (t.1 ≤ s.1)) = true := by
  simp only [Bool.or_eq_true, decide_eq_true_eq]
  omega

/-- The ordered terms ascend. -/
theorem sortTerms_sorted (terms : List (Int × N)) :
    (sortTerms terms).Pairwise fun s t => s.1 ≤ t.1 := by
  simpa [sortTerms] using List.pairwise_mergeSort index_le_trans index_le_total terms

variable [NumberSystem N]

/-- The sum of the coefficients times the numbers that are found at the indices of the row. -/
def combine (r : Row N) (find : Int → Option N) : Except Fault N :=
  match gather find r.indices with
  | .ok ys => .ok (dot r.coefficients ys)
  | .error e => .error e

/-- The value of the row in a relaxation. -/
def activity (r : Row N) (x : Relaxation N) : Except Fault N :=
  if r.indices.isEmpty then .ok 0.0 else r.combine (signedGet? x.solution)

/-- A distance squashed below one half. -/
def squash (violation : N) : Except Fault N :=
  if Same (1.0 + violation) (0.0 : N) then .error .divisionByZero
  else .ok (0.5 * violation / (1.0 + violation))

/-- The infeasibility of an activity, and the direction in which the activity should move. -/
def score (r : Row N) (tolerance activity : N) : Except Fault (N × Option Direction) :=
  if activity < r.soft.lower - tolerance then
    (squash (r.soft.lower - activity)).map (·, some .up)
  else if r.soft.upper + tolerance < activity then
    (squash (activity - r.soft.upper)).map (·, some .down)
  else .ok (0.0, none)

/-- The infeasibility of the row in a relaxation. -/
def infeasibility (r : Row N) (x : Relaxation N) : Except Fault (N × Option Direction) :=
  match r.activity x with
  | .ok activity => r.score x.feasibilityTolerance activity
  | .error e => .error e

/-- The row with its soft bounds set to an activity, moved into the hard range. -/
def settle (r : Row N) (activity : N) : Row N :=
  { r with toEntity := r.fixAt (clamp r.hard.lower r.hard.upper activity) }

/-- The row with its soft bounds set to its activity, moved into the hard range. -/
def fix (r : Row N) (x : Relaxation N) : Except Fault (Row N) :=
  (r.activity x).map r.settle

/-- An empty row has activity zero in every relaxation. -/
theorem activity_nil {r : Row N} (h : r.indices = []) (x : Relaxation N) :
    r.activity x = .ok 0.0 := by
  simp [activity, h]

end Row

end BranchBound
