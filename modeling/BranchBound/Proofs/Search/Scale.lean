import BranchBound.Proofs.Column.Binary
import BranchBound.Proofs.Row.Lookup
import BranchBound.Proofs.Row.Scale

/-!
# The scale of infeasibilities

Columns and rows are compared by their infeasibilities, which are meant to lie between zero and one
half.  They do so as long as everything is finite.  An infinite value of a column has no distance to
an integer, and the column is judged by no number, to be branched on upwards; so it is for a row
whose activity is infinitely far outside its range.

Main results:

- Theorem `Column.inScale_infeasibility_iff`: a column is judged on the scale exactly if its value
  is finite.
- Theorem `Object.inScale_iff`: which columns and which rows are judged on the scale.
-/

namespace BranchBound

open Binary64

-- The number of units in one has 1075 bits and is never to be evaluated.
attribute [local irreducible] Grid.one

namespace Column

variable {c : Column Binary64} {r : Relaxation Binary64} {v : Binary64}

/-- A value that is not finite has no distance to an integer. -/
theorem infeasibility_of_not_isFinite (hvalue : c.value? r = some v) (hv : v.isFinite ≠ true) :
    c.infeasibility r = (nan, some .up) := by
  have hnearest : v.nearest = v := by
    cases v with
    | nan | infinity s => rfl
    | finite s k => exact absurd rfl hv
  have hdiff : v - v = nan := by
    cases v with
    | nan => rfl
    | infinity s => cases s <;> rfl
    | finite s k => exact absurd rfl hv
  have hfloor := (floor_eq_ceiling_of_not_isFinite hv).1
  have hfar : ¬ (v - v.nearest).abs ≤ r.integerTolerance := by
    rw [hnearest, hdiff]
    exact not_nan_le _
  have hlesser : lesser (v - v.nearest).abs (0.5 : Binary64) = nan := by
    rw [hnearest, hdiff]
    exact if_neg fun hlt => not_le_nan _ (le_of_lt hlt)
  have hway : ¬ v - v.floor < (0.5 : Binary64) := by
    rw [hfloor, hdiff]
    exact fun hlt => not_nan_le _ (le_of_lt hlt)
  simp only [infeasibility, hvalue]
  refine (if_neg hfar).trans ?_
  show (lesser (v - v.nearest).abs (0.5 : Binary64),
    some (if v - v.floor < (0.5 : Binary64) then Direction.down else .up)) = _
  rw [hlesser, if_neg hway]

/-- A finite value is judged on the scale. -/
theorem inScale_of_isFinite (htol : (0.0 : Binary64) ≤ r.integerTolerance)
    (hvalue : c.value? r = some v) (hv : v.isFinite = true) : InScale (c.infeasibility r) := by
  by_cases hnear : (v - v.nearest).abs ≤ r.integerTolerance
  · rw [infeasibility_of_le hvalue hnear]
    exact inScale_feasible
  · have hhalf := (abs_sub_nearest_exact hv).2.2
    have htol' : r.integerTolerance ≤ (v - v.nearest).abs := by
      by_contra hnot
      rw [← not_lt_iff (ne_nan_of_le_left hhalf) (ne_nan_of_le_right htol), not_not] at hnot
      exact hnear (le_of_lt hnot)
    have hzero : ¬ Same (v - v.nearest).abs (0.0 : Binary64) :=
      fun hsame => hnear (le_trans hsame.1 htol)
    rw [infeasibility_of_not_le hvalue hv hnear]
    exact ⟨⟨le_trans htol htol', hhalf⟩, iff_of_false (Option.some_ne_none _) hzero⟩

/-- A column is judged on the scale exactly if its value, if there is one, is finite. -/
theorem inScale_infeasibility_iff (htol : (0.0 : Binary64) ≤ r.integerTolerance) :
    InScale (c.infeasibility r) ↔ ∀ v, c.value? r = some v → v.isFinite = true := by
  cases hvalue : c.value? r with
  | none =>
    rw [infeasibility_of_value_none hvalue]
    exact iff_of_true inScale_feasible nofun
  | some v =>
    constructor
    · rintro hscale _ ⟨⟩
      by_contra hv
      rw [infeasibility_of_not_isFinite hvalue hv] at hscale
      exact not_inScale_nan _ hscale
    · intro hall
      exact inScale_of_isFinite htol hvalue (hall v rfl)

end Column

/-- A tolerance that is set is the one of the relaxation. -/
theorem Outline.filled_feasibilityTolerance {x : Outline Binary64} {tolerance : Binary64}
    (htol : x.feasibilityTolerance = some tolerance) :
    x.filled.feasibilityTolerance = tolerance := by
  simp only [filled, htol, Option.getD_some]

namespace Object

variable {x : Outline Binary64} {tolerance tolerance' : Binary64}

/-- With a tolerance, a row is judged by its activity. -/
theorem infeasibility_row_eq {r : Row Binary64} {activity : Binary64}
    (htol : x.feasibilityTolerance = some tolerance)
    (hactivity : r.activity x.filled = .ok activity) :
    (row r).infeasibility (some x) = r.score tolerance activity := by
  have hparameter : x.withParameter .feasibilityTolerance = .ok x.filled := by
    have hset : x.parameter? .feasibilityTolerance = some tolerance := htol
    rw [Outline.withParameter, hset]
  simp only [infeasibility, Row.infeasibilityBy, hactivity, hparameter, bind, Except.bind,
    Row.infeasibility, Outline.filled_feasibilityTolerance htol]

/-- With tolerances of zero or more, a column is judged on the scale exactly if its value, if there
is one, is finite, and a row exactly if the excess of its activity, if there is one, is finite and
more than the least number. -/
theorem inScale_iff (htol : x.integerTolerance = some tolerance)
    (hnonneg : (0.0 : Binary64) ≤ tolerance) (htol' : x.feasibilityTolerance = some tolerance')
    (hnonneg' : (0.0 : Binary64) ≤ tolerance') :
    (∀ c, ∃ judged, (column c).infeasibility (some x) = .ok judged ∧
      (InScale judged ↔ ∀ v, c.value? x.filled = some v → v.isFinite = true)) ∧
    ∀ r activity, r.activity x.filled = .ok activity →
      ∃ judged, (row r).infeasibility (some x) = .ok judged ∧
        (InScale judged ↔
          ∀ v, r.excess tolerance' activity = some v → v.isFinite = true ∧ v ≠ least) := by
  constructor
  · intro c
    refine ⟨_, infeasibility_eq_of_tolerance htol, Column.inScale_infeasibility_iff ?_⟩
    rw [Outline.filled_integerTolerance htol]
    exact hnonneg
  · intro r activity hactivity
    rw [infeasibility_row_eq htol' hactivity]
    exact Row.inScale_score_iff hnonneg'

/-- A model that gives the first variable a value, with tolerances that are equal. -/
def outlineAt (value tolerance : Binary64) : Outline Binary64 :=
  { Outline.ofRelaxation Relaxation.initial with
    solution := [value]
    integerTolerance := some tolerance
    feasibilityTolerance := some tolerance }

/-- An integer column that is not bounded above, in the first place of a model. -/
def openColumn : Column Binary64 :=
  { Column.initial with
    index := 0, integrality := .integer, hard := ⟨0.0, infinity false⟩,
    soft := ⟨0.0, infinity false⟩ }

/-- The row of the first variable, from zero up to a bound. -/
def cappedRow (upper : Binary64) : Row Binary64 :=
  { Row.ofTerm 0 1.0 with hard := ⟨0.0, upper⟩, soft := ⟨0.0, upper⟩ }

theorem activity_cappedRow {upper value tolerance : Binary64}
    (hvalue : (1.0 : Binary64) * value = value) :
    (cappedRow upper).activity (outlineAt value tolerance).filled = .ok value := by
  rw [Row.activity_eq_combine, Row.combine_eq_ok_iff]
  exact ⟨[value], rfl, (dot_singleton _ _ |>.trans hvalue).symm⟩

/-- At an infinite value the open column is off the scale, and a row that is not bounded above is
on it. -/
theorem inScale_iff_infinite :
    (∃ judged, (column openColumn).infeasibility (some (outlineAt (infinity false) 1e-6)) =
      .ok judged ∧ ¬ InScale judged) ∧
    ∃ judged, (row (cappedRow (infinity false))).infeasibility
      (some (outlineAt (infinity false) 1e-6)) = .ok judged ∧ InScale judged := by
  have hnonneg : (0.0 : Binary64) ≤ 1e-6 := by decide +kernel
  have hvalue : openColumn.value? (outlineAt (infinity false) 1e-6).filled =
      some (infinity false) := by decide +kernel
  have hexcess : (cappedRow (infinity false)).excess 1e-6 (infinity false) = none := by
    decide +kernel
  rcases @inScale_iff (outlineAt (infinity false) 1e-6) _ _ rfl hnonneg rfl hnonneg with
    ⟨hcolumns, hrows⟩
  constructor
  · rcases hcolumns openColumn with ⟨judged, hjudged, hscale⟩
    refine ⟨judged, hjudged, fun h => ?_⟩
    exact absurd (hscale.1 h _ hvalue) Bool.false_ne_true
  · rcases hrows _ _ (activity_cappedRow (by decide +kernel)) with ⟨judged, hjudged, hscale⟩
    refine ⟨judged, hjudged, hscale.2 ?_⟩
    rw [hexcess]
    exact nofun

/-- At an infinite value neither a column that is not bounded above nor a row that is bounded by
five is judged by a number.  Beyond its bound by the least number, a row is judged by zero and a
direction. -/
theorem off_scale_infinite_and_least :
    (column openColumn).infeasibility (some (outlineAt (infinity false) 1e-6)) =
        .ok (nan, some .up) ∧
      (row (cappedRow 5.0)).infeasibility (some (outlineAt (infinity false) 1e-6)) =
        .ok (nan, some .down) ∧
      (row (cappedRow 0.0)).infeasibility (some (outlineAt least 0.0)) =
        .ok (0.0, some .down) ∧
      ¬ InScale (nan, some .up) ∧ ¬ InScale (nan, some .down) ∧ ¬ InScale (0.0, some .down) := by
  have hvalue : openColumn.value? (outlineAt (infinity false) 1e-6).filled =
      some (infinity false) := by decide +kernel
  refine ⟨?_, ?_, ?_, not_inScale_nan _, not_inScale_nan _, by decide +kernel⟩
  · rw [infeasibility_eq_of_tolerance rfl,
      Column.infeasibility_of_not_isFinite hvalue Bool.false_ne_true]
  · have hbelow : ¬ infinity false < (cappedRow 5.0).soft.lower - (1e-6 : Binary64) := by
      decide +kernel
    have habove : (cappedRow 5.0).soft.upper + (1e-6 : Binary64) < infinity false := by
      decide +kernel
    have hexcess : infinity false - (cappedRow 5.0).soft.upper = infinity false := by
      decide +kernel
    rw [infeasibility_row_eq rfl (activity_cappedRow (by decide +kernel)), Row.score, if_neg hbelow,
      if_pos habove, hexcess, Row.squash_infinity]
    rfl
  · have hbelow : ¬ least < (cappedRow 0.0).soft.lower - (0.0 : Binary64) := by decide +kernel
    have habove : (cappedRow 0.0).soft.upper + (0.0 : Binary64) < least := by decide +kernel
    have hexcess : least - (cappedRow 0.0).soft.upper = least := by decide +kernel
    have hnonzero : ¬ Same ((1.0 : Binary64) + least) (0.0 : Binary64) := by decide +kernel
    have hsquashed : (0.5 : Binary64) * least / ((1.0 : Binary64) + least) = (0.0 : Binary64) := by
      decide +kernel
    rw [infeasibility_row_eq rfl (activity_cappedRow (by decide +kernel)), Row.score, if_neg hbelow,
      if_pos habove, hexcess, Row.squash, if_neg hnonzero, hsquashed]
    rfl

end Object

end BranchBound
