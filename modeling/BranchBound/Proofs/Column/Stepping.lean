import BranchBound.Proofs.Column.Fixing

/-!
# Single steps of a column

A step moves a column by one from the integer nearest to its value, and looks only at the end of the
soft range that it moves towards.  The other end cannot be passed: the value is in the range and the
nearest integer at most one half away from it, so that the integer after that is beyond the value.
This holds of every bounded range, although the nearest integer itself may be outside it.

The sign of the reduced cost, in the sense of the objective, decides which of the two steps is
preferred, and the other step is the opposite one.

One may be too small to be added to an integer or taken from it exactly; that happens only to
integers of more than 53 bits.

Main results:

- Theorem `Binary64.stepsExactly_of_lt`: which integers are a step away from their neighbours.
- Theorem `Column.moves_stepTowards`: a step in either direction.
- Theorem `Object.steps_opposed`: the preferred step and the other one.
-/

namespace BranchBound

open Binary64

-- The number of units in one has 1075 bits and is never to be evaluated.
attribute [local irreducible] Grid.one

namespace Direction

/-- The other direction. -/
def opposite : Direction → Direction
  | down => up
  | up => down

@[simp] theorem code_opposite (d : Direction) : d.opposite.code = -d.code := by
  cases d <;> rfl

theorem cast_code_down : ((down.code : ℤ) : ℚ) = -1 := by norm_num [code]

theorem cast_code_up : ((up.code : ℤ) : ℚ) = 1 := by norm_num [code]

end Direction

namespace Binary64

variable {n : Binary64}

/-- Whether one is taken from a number and added to it without rounding. -/
def StepsExactly (n : Binary64) : Prop :=
  (n - (1.0 : Binary64)).toRat = n.toRat - 1 ∧ (n + (1.0 : Binary64)).toRat = n.toRat + 1

theorem toRat_neg_one :
    (-1.0 : Binary64).isFinite = true ∧ (-1.0 : Binary64).toRat = -1 := by
  refine ⟨by rw [isFinite_neg, toRat_one.1], ?_⟩
  rw [toRat_neg, toRat_one.2]

/-- A sum that is an integer of at most 53 bits is exact. -/
theorem toRat_add_of_natAbs_le {x y : Binary64} (hx : x.isFinite = true) (hy : y.isFinite = true)
    {m : ℤ} (hm : x.toRat + y.toRat = m) (hle : m.natAbs ≤ 2 * Grid.step) :
    (x + y).toRat = x.toRat + y.toRat := by
  rcases Grid.exists_place_of_le hle with ⟨k, hk, hunits⟩
  refine (add_exact hx hy hk ?_).2
  have hsum : x.units + y.units = m * (Grid.one : ℤ) := by
    rw [toRat, toRat, ← add_div, div_eq_iff one_cast_pos.ne'] at hm
    exact_mod_cast hm
  rw [hunits, hsum, Int.natAbs_mul, Int.natAbs_natCast]

/-- The integers of at most 53 bits are a step away from their neighbours. -/
theorem stepsExactly_of_lt (hn : n.IsInteger) (hlt : |n.toRat| < 2 ^ 53) : n.StepsExactly := by
  rcases hn.2 with ⟨m, hm⟩
  have hm' : m.natAbs + 1 ≤ 2 * Grid.step := by
    have habs : |m| < 2 ^ 53 := by
      rw [hm] at hlt
      exact_mod_cast hlt
    have hstep := Grid.step_eq_two_pow
    rw [abs_lt] at habs
    omega
  constructor
  · have hsum : n.toRat + (-1.0 : Binary64).toRat = (m - 1 : ℤ) := by
      rw [hm, toRat_neg_one.2]
      push_cast
      ring
    rw [sub_eq_add_neg, toRat_add_of_natAbs_le hn.isFinite toRat_neg_one.1 hsum (by omega),
      toRat_neg_one.2]
    ring
  · have hsum : n.toRat + (1.0 : Binary64).toRat = (m + 1 : ℤ) := by
      rw [hm, toRat_one.2]
      push_cast
      ring
    rw [toRat_add_of_natAbs_le hn.isFinite toRat_one.1 hsum (by omega), toRat_one.2]

end Binary64

namespace Column

variable {c : Column Binary64} {n t v : Binary64} {way : Direction}

/-! ## One step -/

/-- A branching whose first child is the integer one away from `n` in a direction, in the soft range
of a column, and whose other child does not hold that integer. -/
structure IsStep (c : Column Binary64) (n : Binary64) (way : Direction) (t : Binary64)
    (b : Branch Binary64) : Prop where
  /-- The branching is one of the column. -/
  index : b.index = c.index
  /-- The child to explore first is that of the direction. -/
  first : b.way = way.code
  /-- That child is a single point. -/
  point : b.bounds way = ⟨t, t⟩
  /-- The point is an integer. -/
  isInteger : t.IsInteger
  /-- It is one away in the direction. -/
  toRat : t.toRat = n.toRat + way.code
  /-- It does not pass the lower soft bound. -/
  lower_le : c.soft.lower ≤ t
  /-- It does not pass the upper soft bound. -/
  le_upper : t ≤ c.soft.upper
  /-- The other child does not hold it. -/
  not_mem : ¬ ((b.bounds way.opposite).lower ≤ t ∧ t ≤ (b.bounds way.opposite).upper)

/-- An answer is a step in a direction, or there is no answer because the step would leave the soft
range. -/
def Moves (c : Column Binary64) (n : Binary64) (way : Direction) : Option (Branch Binary64) → Prop
  | some b => ∃ t, c.IsStep n way t b
  | none => ¬ (c.soft.lower.toRat ≤ n.toRat + way.code ∧ n.toRat + way.code ≤ c.soft.upper.toRat)

/-- The step in a direction. -/
def stepTowards (c : Column Binary64) (v : Binary64) : Direction → Option (Branch Binary64)
  | .down => c.stepDown? v
  | .up => c.stepUp? v

theorem moves_stepDown (hsoft : c.soft.Bounded) (hv : v.isFinite = true) (hhigh : v ≤ c.soft.upper)
    (hexact : v.nearest.StepsExactly) : c.Moves v.nearest .down (c.stepDown? v) := by
  rcases nearest_exact hv with ⟨hnear, hdist⟩
  have htarget := (isInteger_sub_one hnear).1
  have htoRat := hexact.1
  have hgap := (abs_le.1 hdist).1
  rw [le_iff_toRat hv hsoft.finite_upper] at hhigh
  by_cases hin : v.nearest - (1.0 : Binary64) < c.soft.lower
  · rw [show c.stepDown? v = none from if_pos hin]
    rintro ⟨hlow, -⟩
    rw [lt_iff_toRat htarget.isFinite hsoft.finite_lower] at hin
    rw [Direction.cast_code_down] at hlow
    linarith
  · rw [show c.stepDown? v = some _ from if_neg hin]
    rw [not_lt_iff (ne_nan_of_isFinite htarget.isFinite)
      (ne_nan_of_isFinite hsoft.finite_lower)] at hin
    refine ⟨v.nearest - (1.0 : Binary64), rfl, rfl, rfl, htarget, ?_, hin, ?_, ?_⟩
    · rw [htoRat, Direction.cast_code_down]
      ring
    · -- the upper end is not looked at, but the step leads away from it
      rw [le_iff_toRat htarget.isFinite hsoft.finite_upper]
      linarith
    · rintro ⟨hle, -⟩
      have hle' := (le_iff_toRat hnear.isFinite htarget.isFinite).1 hle
      linarith

theorem moves_stepUp (hsoft : c.soft.Bounded) (hv : v.isFinite = true) (hlow : c.soft.lower ≤ v)
    (hexact : v.nearest.StepsExactly) : c.Moves v.nearest .up (c.stepUp? v) := by
  rcases nearest_exact hv with ⟨hnear, hdist⟩
  have htarget := (isInteger_add_one hnear).1
  have htoRat := hexact.2
  have hgap := (abs_le.1 hdist).2
  rw [le_iff_toRat hsoft.finite_lower hv] at hlow
  by_cases hin : c.soft.upper < v.nearest + (1.0 : Binary64)
  · rw [show c.stepUp? v = none from if_pos hin]
    rintro ⟨-, hhigh⟩
    rw [lt_iff_toRat hsoft.finite_upper htarget.isFinite] at hin
    rw [Direction.cast_code_up] at hhigh
    linarith
  · rw [show c.stepUp? v = some _ from if_neg hin]
    rw [not_lt_iff (ne_nan_of_isFinite hsoft.finite_upper)
      (ne_nan_of_isFinite htarget.isFinite)] at hin
    refine ⟨v.nearest + (1.0 : Binary64), rfl, rfl, rfl, htarget, ?_, ?_, hin, ?_⟩
    · rw [htoRat, Direction.cast_code_up]
    · -- nor is the lower end here
      rw [le_iff_toRat hsoft.finite_lower htarget.isFinite]
      linarith
    · rintro ⟨-, hle⟩
      have hle' := (le_iff_toRat htarget.isFinite hnear.isFinite).1 hle
      linarith

/-- From a value of the soft range the step in a direction leads to the integer one away from the
nearest one, unless that is outside the range. -/
theorem moves_stepTowards (hsoft : c.soft.Bounded) (hv : v.isFinite = true)
    (hlow : c.soft.lower ≤ v) (hhigh : v ≤ c.soft.upper) (hexact : v.nearest.StepsExactly)
    (way : Direction) : c.Moves v.nearest way (c.stepTowards v way) := by
  cases way with
  | down => exact moves_stepDown hsoft hv hhigh hexact
  | up => exact moves_stepUp hsoft hv hlow hexact

/-! ## The preferred step and the other one -/

/-- The direction that lowers the objective for a reduced cost, down if the cost is zero. -/
def downhill (slope : Binary64) : Direction := if (0.0 : Binary64) ≤ slope then .down else .up

/-- Which of the two directions is taken. -/
def direction (slope : Binary64) (preferred : Bool) : Direction :=
  if preferred then downhill slope else (downhill slope).opposite

/-- A step of a column with a value and a reduced cost is one in the direction of its slope. -/
theorem step?_eq {r : Relaxation Binary64} {costs : List Binary64} {cost : Binary64}
    (hvalue : c.value? r = some v) (hcosts : r.reducedCosts = some costs)
    (hcost : costs[c.index.toNat]? = some cost) (hslope : (cost * r.sense).isFinite = true)
    (preferred : Bool) :
    c.step? r preferred = .ok (c.stepTowards v (direction (cost * r.sense) preferred)) := by
  have hlt : cost * r.sense < (0.0 : Binary64) ↔ ¬ (0.0 : Binary64) ≤ cost * r.sense := by
    rw [← not_lt_iff (ne_nan_of_isFinite hslope) (ne_nan_of_isFinite toRat_zero.1), not_not]
  simp only [step?, hvalue, hcosts, hcost, direction, downhill]
  by_cases hup : (0.0 : Binary64) ≤ cost * r.sense
  · cases preferred <;> simp [hlt, hup, Direction.opposite, stepTowards]
  · cases preferred <;> simp [hlt, hup, Direction.opposite, stepTowards]

/-- Moving downhill does not raise the objective. -/
theorem toRat_mul_downhill_le {slope : Binary64} (hslope : slope.isFinite = true) :
    slope.toRat * (downhill slope).code ≤ 0 := by
  unfold downhill
  split
  · rename_i hle
    rw [le_iff_toRat toRat_zero.1 hslope, toRat_zero.2] at hle
    rw [Direction.cast_code_down]
    linarith
  · rename_i hnot
    rw [le_iff_toRat toRat_zero.1 hslope, toRat_zero.2, not_le] at hnot
    rw [Direction.cast_code_up]
    linarith

end Column

namespace Object

variable {c : Column Binary64} {x : Outline Binary64} {y cost sense : Binary64}

/-- A model that gives a column a finite value and a finite reduced cost, where the objective is
minimised or maximised. -/
structure Prices (x : Outline Binary64) (c : Column Binary64) (y cost sense : Binary64) : Prop where
  /-- The column has an index. -/
  placed : 0 ≤ c.index
  /-- The solution has a value at the index. -/
  value : x.solution[c.index.toNat]? = some y
  /-- The value is finite. -/
  finite_value : y.isFinite = true
  /-- There are reduced costs, one of them at the index. -/
  priced : ∃ costs, x.reducedCosts = some costs ∧ costs[c.index.toNat]? = some cost
  /-- The reduced cost is finite. -/
  finite_cost : cost.isFinite = true
  /-- The sense is set. -/
  sensed : x.sense = some sense
  /-- It is one or minus one. -/
  sense_cases : sense = 1.0 ∨ sense = -1.0

namespace Prices

/-- The reduced cost in the sense of the objective is exact. -/
theorem slope_exact (hx : Prices x c y cost sense) :
    (cost * sense).isFinite = true ∧ (cost * sense).toRat = cost.toRat * sense.toRat := by
  rcases hx.sense_cases with hone | hone
  · rw [hone, mul_one_exact hx.finite_cost, toRat_one.2, mul_one]
    exact ⟨hx.finite_cost, rfl⟩
  · rw [hone, mul_neg_one_exact hx.finite_cost, toRat_neg_one.2, isFinite_neg, toRat_neg,
      mul_neg, mul_one]
    exact ⟨hx.finite_cost, rfl⟩

/-- With prices the question for a step has an answer. -/
theorem step_eq (hx : Prices x c y cost sense) (preferred : Bool) :
    (column c).step (some x) preferred =
      .ok (c.stepTowards (c.valueAt y) (Column.direction (cost * sense) preferred)) := by
  rcases hx.priced with ⟨costs, hcosts, hcost⟩
  have hvalue := @Column.value?_of_solution c x.filled _ hx.placed hx.value
  have hsense : x.filled.sense = sense := by
    simp only [Outline.filled, hx.sensed, Option.getD_some]
  have hparameter : x.withParameter .sense = .ok x.filled := by
    have hset : x.parameter? .sense = some sense := hx.sensed
    rw [Outline.withParameter, hset]
  have hstep := @Column.step?_eq c _ x.filled costs cost hvalue hcosts hcost
    (by rw [hsense]; exact hx.slope_exact.1) preferred
  rw [hsense] at hstep
  simp only [step, Column.stepBy, hstep, hcosts, Option.isSome_some, if_true, Column.withParameter,
    hvalue, hparameter, bind, Except.bind, pure, Except.pure]

end Prices

/-- Of a column with a bounded soft range and prices, the preferred step and the other one go in
opposite directions.  Each leads to the integer one away from the integer nearest to the value, and
apart from the other child; there is no step only if that integer is outside the soft range.  The
preferred step does not raise the objective as far as the reduced cost tells, and the other one does
not lower it. -/
theorem steps_opposed (hsoft : c.soft.Bounded) (hx : Prices x c y cost sense)
    (hexact : (c.valueAt y).nearest.StepsExactly) :
    ∃ way : Direction,
      cost.toRat * sense.toRat * way.code ≤ 0 ∧
      0 ≤ cost.toRat * sense.toRat * way.opposite.code ∧
      (∃ a, (column c).step (some x) true = .ok a ∧ c.Moves (c.valueAt y).nearest way a) ∧
      ∃ b, (column c).step (some x) false = .ok b ∧
        c.Moves (c.valueAt y).nearest way.opposite b := by
  rcases Column.valueAt_mem_soft hsoft hx.finite_value with ⟨hfinite, hlow, hhigh⟩
  rcases hx.slope_exact with ⟨hslope, hproduct⟩
  have hdownhill := Column.toRat_mul_downhill_le hslope
  rw [hproduct] at hdownhill
  have hmoves := Column.moves_stepTowards hsoft hfinite hlow hhigh hexact
  have hpreferred := hx.step_eq true
  have hother := hx.step_eq false
  rw [Column.direction, if_pos rfl] at hpreferred
  rw [Column.direction, if_neg Bool.false_ne_true] at hother
  generalize Column.downhill (cost * sense) = way at *
  refine ⟨way, hdownhill, ?_, ⟨_, hpreferred, hmoves way⟩, _, hother, hmoves way.opposite⟩
  rw [Direction.code_opposite, Int.cast_neg, mul_neg]
  exact neg_nonneg.2 hdownhill

/-- A column with ends that are no integers, in the first place of a model. -/
def wideColumn : Column Binary64 :=
  { Column.initial with index := 0, hard := ⟨0.4, 2.6⟩, soft := ⟨0.4, 2.6⟩ }

/-- A model that maximises, where the first variable has a positive reduced cost. -/
def pricedOutline : Outline Binary64 :=
  { Outline.ofRelaxation Relaxation.initial with
    solution := [1.2]
    reducedCosts := some [2.0]
    sense := some (-1.0) }

/-- Near one the wide column can step up to two, but not down to zero. -/
theorem steps_opposed_wide :
    wideColumn.soft.Bounded ∧ Prices pricedOutline wideColumn 1.2 2.0 (-1.0) ∧
      (wideColumn.valueAt 1.2).nearest.StepsExactly ∧
      ∃ way : Direction,
        (2.0 : Binary64).toRat * (-1.0 : Binary64).toRat * way.code ≤ 0 ∧
        0 ≤ (2.0 : Binary64).toRat * (-1.0 : Binary64).toRat * way.opposite.code ∧
        (∃ a, (column wideColumn).step (some pricedOutline) true = .ok a ∧
          wideColumn.Moves (wideColumn.valueAt 1.2).nearest way a) ∧
        ∃ b, (column wideColumn).step (some pricedOutline) false = .ok b ∧
          wideColumn.Moves (wideColumn.valueAt 1.2).nearest way.opposite b := by
  have hsoft : wideColumn.soft.Bounded := ⟨by decide +kernel, by decide +kernel, by decide +kernel⟩
  have hprices : Prices pricedOutline wideColumn 1.2 2.0 (-1.0) := by
    refine ⟨by decide, rfl, by decide +kernel, ⟨_, rfl, rfl⟩, by decide +kernel, rfl, ?_⟩
    exact Or.inr rfl
  have hnear : (wideColumn.valueAt 1.2).nearest = 1.0 := by decide +kernel
  have hexact : (wideColumn.valueAt 1.2).nearest.StepsExactly := by
    rw [hnear]
    refine stepsExactly_of_lt isInteger_one ?_
    rw [toRat_one.2]
    norm_num
  exact ⟨hsoft, hprices, hexact, steps_opposed hsoft hprices hexact⟩

end Object

end BranchBound
