import BranchBound.Proofs.Column.Fixing
import BranchBound.Proofs.Entity.Integers
import BranchBound.Proofs.Search.Scale

/-!
# Settled objects

A model that fixes an object settles it.  A column that is left with one integer has that integer
for its value, is feasible whatever the tolerance, and has no branching.  A row is moved to the
number of its hard range next to its activity, and is as far from being feasible as it would be in
the whole hard range: it is feasible exactly if its activity is within the tolerance of that range.

A settled object is not changed by being fixed again, apart from the sign of a zero.  A number that
is moved to a zero of the other sign is not moved at all, as the two zeros are equal; so a column
that was fixed at a zero, where the model has the other one, is fixed at that one next.  There it
stays.

Main results:

- Theorem `Column.settledAt_fixedAt`: what a column at one integer answers.
- Theorem `Row.score_settle`: a settled row is judged as in its hard range.
- Theorem `Object.fix_settles`: columns and rows that are fixed once, twice, and again.
-/

namespace BranchBound

open Binary64

-- The number of units in one has 1075 bits and is never to be evaluated.
attribute [local irreducible] Grid.one

/-! ## Ranges of one number -/

namespace Binary64

variable {n w low high : Binary64}

theorem clamp_nan (low high : Binary64) : clamp low high nan = nan := by
  have hraised : greater nan low = nan := if_neg fun h => not_nan_le _ (le_of_lt h)
  rw [clamp, hraised]
  exact if_neg fun h => not_le_nan _ (le_of_lt h)

/-- A number that is moved to another is that one, or equal to it and not moved. -/
theorem clamp_point (hn : n.isFinite = true) (hw : w ≠ nan) :
    Same (clamp n n w) n ∧ (clamp n n w = n ∨ clamp n n w = w) := by
  have hle := le_refl_of_ne_nan (ne_nan_of_isFinite hn)
  rcases clamp_mem hle hw with ⟨hlow, hhigh⟩
  refine ⟨⟨hhigh, hlow⟩, ?_⟩
  rcases lesser_eq_or (greater w n) n with h | h
  · rcases greater_eq_or w n with h' | h'
    · exact Or.inr (h.trans h')
    · exact Or.inl (h.trans h')
  · exact Or.inl h

/-- Two finite numbers that are equal but not the same are both zero. -/
theorem same_zero_of_ne (hn : n.isFinite = true) (hsame : Same w n) (hne : w ≠ n) :
    Same n (0.0 : Binary64) := by
  rw [same_iff_toRat hn toRat_zero.1, toRat_zero.2]
  by_contra hzero
  exact hne (eq_of_le_of_le hn hzero hsame.2 hsame.1)

/-- Moving a number once more, to where it was moved, does not move it. -/
theorem clamp_point_again (hn : n.isFinite = true) (hw : w ≠ nan) :
    clamp (clamp n n w) (clamp n n w) w = clamp n n w := by
  rcases (clamp_point hn hw).2 with h | h
  · rw [h, h]
  · rw [h]
    exact clamp_eq_self (le_refl_of_ne_nan hw) (le_refl_of_ne_nan hw)

/-- What is equal to an integer is an integer. -/
theorem IsInteger.of_same (hn : n.IsInteger) (hsame : Same w n) : w.IsInteger := by
  have hw := isFinite_of_le_of_le hn.isFinite hn.isFinite hsame.2 hsame.1
  rcases hn.2 with ⟨m, hm⟩
  refine ⟨hw, m, ?_⟩
  rw [(same_iff_toRat hw hn.isFinite).1 hsame, hm]

end Binary64

/-! ## Columns at one integer -/

namespace Column

variable {c : Column Binary64} {x : Outline Binary64} {n v w tolerance : Binary64}

/-- Only the last point counts. -/
@[simp] theorem fixedAt_fixedAt (c : Column Binary64) (m n : Binary64) :
    (c.fixedAt m).fixedAt n = c.fixedAt n := rfl

/-- A column that is left with the point `n`, with what it answers: its value is `y`. -/
structure SettledAt (c : Column Binary64) (x : Outline Binary64) (n y : Binary64) : Prop where
  /-- Both soft bounds are the point. -/
  soft : c.soft = ⟨n, n⟩
  /-- The column has a value. -/
  value : (Object.column c).value (some x) = .ok (some y)
  /-- The value is equal to the bounds. -/
  same : Same y n
  /-- The column is feasible. -/
  infeasibility : (Object.column c).infeasibility (some x) = .ok (0.0, none)
  /-- It has no branching, whatever the direction. -/
  split : ∀ way : Datum, (Object.column c).split (some x) way = .ok none
  /-- It is fixed at its value. -/
  fix : (Object.column c).fix (some x) = .ok (Object.column (c.fixedAt y))

/-- A value comes from a number of the solution. -/
theorem exists_solution_of_value? {r : Relaxation Binary64} (hvalue : c.value? r = some v) :
    0 ≤ c.index ∧ ∃ w, r.solution[c.index.toNat]? = some w ∧ c.valueAt w = v := by
  unfold value? at hvalue
  split at hvalue
  · cases hvalue
  · rename_i hindex
    exact ⟨not_lt.1 hindex, Option.map_eq_some_iff.1 hvalue⟩

/-- With a tolerance, a column is fixed at the integer nearest to its value. -/
theorem fix_of_value (htol : x.integerTolerance = some tolerance)
    (hvalue : c.value? x.filled = some v) :
    (Object.column c).fix (some x) = .ok (Object.column (c.fixedAt v.nearest)) := by
  have hfixed : c.fix x.filled = c.fixedAt v.nearest := by
    simp only [fix, hvalue]
    rfl
  rw [← hfixed]
  simp only [Object.fix, ask, withParameter_of_tolerance htol]
  rfl

/-- With a tolerance, a column without a value stays as it is. -/
theorem fix_of_value_none (htol : x.integerTolerance = some tolerance)
    (hvalue : c.value? x.filled = none) :
    (Object.column c).fix (some x) = .ok (Object.column c) := by
  have hfixed : c.fix x.filled = c := by simp only [fix, hvalue]
  simp only [Object.fix, ask, withParameter_of_tolerance htol, bind, Except.bind, pure,
    Except.pure, hfixed]

/-- With a tolerance, a column with one point next to its value has no branching. -/
theorem split_of_point (hclass : c.integrality = .integer)
    (htol : x.integerTolerance = some tolerance) (hnonneg : (0.0 : Binary64) ≤ tolerance)
    (hvalue : c.value? x.filled = some v) (hv : v.IsInteger) (way : Datum) :
    (Object.column c).split (some x) way = .ok none := by
  have hpoint : c.bracket x.filled.integerTolerance v = ⟨v, v⟩ := by
    rw [Outline.filled_integerTolerance htol]
    simp only [Entity.bracket, hclass]
    exact Entity.integerBracket_of_isInteger hv hnonneg
  have hnone : c.split? x.filled .down = none := by
    rw [split?_eq_none_iff hvalue, hpoint]
    exact same_self hv.isFinite
  have hdiscrete : c.integrality ≠ .continuous := by simp [hclass]
  simp only [Object.split, ask, splitBy, if_neg hdiscrete, withParameter_of_tolerance htol, bind,
    Except.bind, hnone]
  rfl

/-- A column that is left with one integer is settled there. -/
theorem settledAt_fixedAt (hclass : c.integrality = .integer)
    (htol : x.integerTolerance = some tolerance) (hnonneg : (0.0 : Binary64) ≤ tolerance)
    (hindex : 0 ≤ c.index) (hw : x.solution[c.index.toNat]? = some w) (hnan : w ≠ nan)
    (hn : n.IsInteger) : (c.fixedAt n).SettledAt x n (clamp n n w) := by
  have hsame := (clamp_point hn.isFinite hnan).1
  have hinteger := hn.of_same hsame
  have hvalue : (c.fixedAt n).value? x.filled = some (clamp n n w) :=
    value?_of_solution hindex hw
  refine ⟨rfl, ?_, hsame, ?_, split_of_point hclass htol hnonneg hvalue hinteger, ?_⟩
  · simp only [Object.value, ask, hvalue]
  · rw [Object.infeasibility_eq_of_tolerance htol, infeasibility_of_le hvalue]
    rw [Outline.filled_integerTolerance htol, abs_sub_nearest_le_iff hinteger.isFinite hnonneg,
      nearest_of_isInteger hinteger]
    exact near_self hnonneg _
  · rw [fix_of_value htol hvalue, nearest_of_isInteger hinteger]

end Column

/-! ## Rows at one number -/

/-- A range in order whose ends are finite, or infinite where the range is open. -/
structure Interval.Proper (i : Interval Binary64) : Prop where
  /-- The lower end is finite, or there is none. -/
  lower : i.lower.isFinite = true ∨ i.lower = infinity true
  /-- The upper end is finite, or there is none. -/
  upper : i.upper.isFinite = true ∨ i.upper = infinity false
  /-- The ends are in order. -/
  le : i.lower ≤ i.upper

namespace Interval

variable {i : Interval Binary64} {tolerance v : Binary64}

/-- A finite number, as a range. -/
theorem proper_point (hv : v.isFinite = true) : Proper ⟨v, v⟩ where
  lower := Or.inl hv
  upper := Or.inl hv
  le := le_refl_of_ne_nan (ne_nan_of_isFinite hv)

namespace Proper

/-- An end that something is below is finite. -/
theorem isFinite_lower (hi : i.Proper) (hlt : v < i.lower) : i.lower.isFinite = true := by
  rcases hi.lower with hfinite | hopen
  · exact hfinite
  · rw [hopen] at hlt
    exact absurd hlt (not_lt_infinity_true _)

/-- An end that something is above is finite. -/
theorem isFinite_upper (hi : i.Proper) (hlt : i.upper < v) : i.upper.isFinite = true := by
  rcases hi.upper with hfinite | hopen
  · exact hfinite
  · rw [hopen] at hlt
    exact absurd hlt (not_infinity_false_lt _)

/-- What is not below a range is not below it by more than a tolerance. -/
theorem not_lt_sub (hi : i.Proper) (htol : (0.0 : Binary64) ≤ tolerance) (hle : i.lower ≤ v) :
    ¬ v < i.lower - tolerance :=
  not_lt_of_le (le_trans (sub_le_self htol (sub_tolerance_ne_nan hi.lower htol)) hle)

/-- What is not above a range is not above it by more than a tolerance. -/
theorem not_add_lt (hi : i.Proper) (htol : (0.0 : Binary64) ≤ tolerance) (hle : v ≤ i.upper) :
    ¬ i.upper + tolerance < v :=
  not_lt_of_le (le_trans hle (le_add_self htol (add_tolerance_ne_nan hi.upper htol)))

end Proper

end Interval

namespace Row

variable {r : Row Binary64} {x : Outline Binary64} {tolerance activity : Binary64}

/-- The row with its soft bounds set to the hard ones. -/
def released (r : Row Binary64) : Row Binary64 := { r with toEntity := r.resetBounds }

/-- A row at one number of its hard range, where it is judged as in that range. -/
structure Settled (r : Row Binary64) (x : Outline Binary64) (tolerance activity : Binary64) :
    Prop where
  /-- Both soft bounds are one number. -/
  soft : r.soft.lower = r.soft.upper
  /-- It is not below the hard range. -/
  lower_le : r.hard.lower ≤ r.soft.lower
  /-- It is not above the hard range. -/
  le_upper : r.soft.upper ≤ r.hard.upper
  /-- The row is judged as in its hard range. -/
  infeasibility : (Object.row r).infeasibility (some x) =
    (Object.row r.released).infeasibility (some x)
  /-- It is feasible exactly if its activity is within the tolerance of the hard range. -/
  feasible_iff : (Object.row r).infeasibility (some x) = .ok (0.0, none) ↔
    r.hard.lower - tolerance ≤ activity ∧ activity ≤ r.hard.upper + tolerance
  /-- Fixed again, it does not change. -/
  fix : (Object.row r).fix (some x) = .ok (Object.row r)

/-- A row is feasible exactly if its activity has no excess over the soft range. -/
theorem score_eq_feasible_iff :
    r.score tolerance activity = .ok (0.0, none) ↔
      ¬ activity < r.soft.lower - tolerance ∧ ¬ r.soft.upper + tolerance < activity := by
  have hexcess : r.excess tolerance activity = none ↔
      ¬ activity < r.soft.lower - tolerance ∧ ¬ r.soft.upper + tolerance < activity := by
    unfold excess
    split_ifs <;> simp [*]
  rw [← hexcess]
  refine ⟨fun hscore => ?_, score_of_excess_none⟩
  cases hover : r.excess tolerance activity with
  | none => rfl
  | some v =>
    rcases exists_score_of_excess hover with ⟨way, hway⟩
    rw [hscore] at hway
    cases hsquash : squash v <;> simp [hsquash, Except.map] at hway

/-- The score by the ends of the soft range. -/
theorem score_of_soft {low high : Binary64} (hsoft : r.soft = ⟨low, high⟩) :
    r.score tolerance activity =
      if activity < low - tolerance then (squash (low - activity)).map (·, some .up)
      else if high + tolerance < activity then (squash (activity - high)).map (·, some .down)
      else .ok (0.0, none) := by
  rw [score, hsoft]

/-- An activity below the hard range is moved to its lower end. -/
theorem settle_soft_of_lt (hle : r.hard.lower ≤ r.hard.upper) (hlt : activity < r.hard.lower) :
    (r.settle activity).soft = ⟨r.hard.lower, r.hard.lower⟩ := by
  rw [settle, Entity.fixAt_soft, clamp, greater, if_pos hlt, lesser, if_neg (not_lt_of_le hle)]

/-- An activity above the hard range is moved to its upper end. -/
theorem settle_soft_of_gt (hle : r.hard.lower ≤ activity) (hlt : r.hard.upper < activity) :
    (r.settle activity).soft = ⟨r.hard.upper, r.hard.upper⟩ := by
  rw [settle, Entity.fixAt_soft, clamp, greater, if_neg (not_lt_of_le hle), lesser, if_pos hlt]

/-- An activity of the hard range stays. -/
theorem settle_soft_of_mem (hlow : r.hard.lower ≤ activity) (hhigh : activity ≤ r.hard.upper) :
    (r.settle activity).soft = ⟨activity, activity⟩ := by
  rw [settle, Entity.fixAt_soft, clamp_eq_self hlow hhigh]

/-- A settled row is judged as in its hard range: an activity below or above that range is measured
from the same end, and any other is met. -/
theorem score_settle (hhard : r.hard.Proper) (htol : (0.0 : Binary64) ≤ tolerance)
    (hactivity : activity.isFinite = true) :
    (r.settle activity).score tolerance activity = r.released.score tolerance activity := by
  have hnan := ne_nan_of_isFinite hactivity
  have hreleased : r.released.soft = ⟨r.hard.lower, r.hard.upper⟩ := rfl
  rw [score_of_soft hreleased]
  by_cases hbelow : activity < r.hard.lower
  · have hpoint := Interval.proper_point (hhard.isFinite_lower hbelow)
    have hle := le_of_lt hbelow
    rw [score_of_soft (settle_soft_of_lt hhard.le hbelow), if_neg (hpoint.not_add_lt htol hle),
      if_neg (hhard.not_add_lt htol (le_trans hle hhard.le))]
  · have hlow := (not_lt_iff hnan (ne_nan_of_le_left hhard.le)).1 hbelow
    by_cases habove : r.hard.upper < activity
    · have hpoint := Interval.proper_point (hhard.isFinite_upper habove)
      rw [score_of_soft (settle_soft_of_gt hlow habove),
        if_neg (hpoint.not_lt_sub htol (le_of_lt habove)), if_neg (hhard.not_lt_sub htol hlow)]
    · have hhigh := (not_lt_iff (ne_nan_of_le_right hhard.le) hnan).1 habove
      have hpoint := Interval.proper_point hactivity
      rw [score_of_soft (settle_soft_of_mem hlow hhigh), if_neg (hpoint.not_lt_sub htol hpoint.le),
        if_neg (hpoint.not_add_lt htol hpoint.le), if_neg (hhard.not_lt_sub htol hlow),
        if_neg (hhard.not_add_lt htol hhigh)]

/-- A row is fixed at the number of its hard range next to its activity. -/
theorem fix_of_activity (hactivity : r.activity x.filled = .ok activity) :
    (Object.row r).fix (some x) = .ok (Object.row (r.settle activity)) := by
  simp only [Object.fix, activity?, hactivity, Except.map]

/-- A row that is fixed is settled. -/
theorem settled_settle (hhard : r.hard.Proper)
    (htol : x.feasibilityTolerance = some tolerance) (hnonneg : (0.0 : Binary64) ≤ tolerance)
    (hactivity : r.activity x.filled = .ok activity) (hfinite : activity.isFinite = true) :
    (r.settle activity).Settled x tolerance activity := by
  have hnan := ne_nan_of_isFinite hfinite
  have hscore := score_settle hhard hnonneg hfinite
  -- neither the terms nor the hard bounds change, and these make the activity and the point
  have hsettled : (r.settle activity).activity x.filled = .ok activity := hactivity
  have hreleased : (r.settle activity).released.activity x.filled = .ok activity := hactivity
  have hjudged := Object.infeasibility_row_eq htol hsettled
  rcases clamp_mem hhard.le hnan with ⟨hlow, hhigh⟩
  refine ⟨rfl, hlow, hhigh, ?_, ?_, fix_of_activity hsettled⟩
  · rw [hjudged, Object.infeasibility_row_eq htol hreleased]
    exact hscore
  · rw [hjudged, hscore, score_eq_feasible_iff]
    exact and_congr (not_lt_iff hnan (sub_tolerance_ne_nan hhard.lower hnonneg))
      (not_lt_iff (add_tolerance_ne_nan hhard.upper hnonneg) hnan)

end Row

namespace Object

variable {x : Outline Binary64} {tolerance tolerance' : Binary64}

/-- By a model with tolerances of zero or more, a column without a value is not changed, and one
with a finite value is settled at the integer nearest to it.  Fixed again, it is settled at the
value that it has there, and stays: this is the same integer, unless that is a zero, and then it may
be the zero of the model instead.  A row with a finite activity is settled at once. -/
theorem fix_settles (htol : x.integerTolerance = some tolerance)
    (hnonneg : (0.0 : Binary64) ≤ tolerance) (htol' : x.feasibilityTolerance = some tolerance')
    (hnonneg' : (0.0 : Binary64) ≤ tolerance') :
    (∀ c : Column Binary64, c.integrality = .integer →
      (c.value? x.filled = none → (column c).fix (some x) = .ok (column c)) ∧
      ∀ v, c.value? x.filled = some v → v.isFinite = true →
        ∃ y, (column c).fix (some x) = .ok (column (c.fixedAt v.nearest)) ∧
          (c.fixedAt v.nearest).SettledAt x v.nearest y ∧ (c.fixedAt y).SettledAt x y y ∧
          (y = v.nearest ∨
            Same v.nearest (0.0 : Binary64) ∧ x.solution[c.index.toNat]? = some y)) ∧
    ∀ (r : Row Binary64) (activity : Binary64), r.hard.Proper →
      r.activity x.filled = .ok activity → activity.isFinite = true →
        (row r).fix (some x) = .ok (row (r.settle activity)) ∧
          (r.settle activity).Settled x tolerance' activity := by
  constructor
  · intro c hclass
    refine ⟨Column.fix_of_value_none htol, ?_⟩
    intro v hvalue hv
    rcases Column.exists_solution_of_value? hvalue with ⟨hindex, w, hw, rfl⟩
    have hnan : w ≠ nan := by
      rintro rfl
      rw [Column.valueAt, clamp_nan] at hv
      exact Bool.false_ne_true hv
    have hn := (nearest_exact hv).1
    rcases clamp_point hn.isFinite hnan with ⟨hsame, hcases⟩
    have hfirst := Column.settledAt_fixedAt hclass htol hnonneg hindex hw hnan hn
    have hsecond := Column.settledAt_fixedAt hclass htol hnonneg hindex hw hnan (hn.of_same hsame)
    rw [clamp_point_again hn.isFinite hnan] at hsecond
    refine ⟨_, Column.fix_of_value htol hvalue, hfirst, hsecond, ?_⟩
    rcases hcases with h | h
    · exact Or.inl h
    · by_cases hmoved : w = (c.valueAt w).nearest
      · exact Or.inl (h.trans hmoved)
      · rw [h] at hsame ⊢
        exact Or.inr ⟨same_zero_of_ne hn.isFinite hsame hmoved, hw⟩
  · intro r activity hhard hactivity hfinite
    exact ⟨Row.fix_of_activity hactivity,
      Row.settled_settle hhard htol' hnonneg' hactivity hfinite⟩

/-- The fields of a column that ends short of zero. -/
def shortOfZeroFields : Fields where
  hardLower := some (.real (-1.0))
  hardUpper := some (.real (-0.25))

/-- The column with these fields, in the first place of a model. -/
def shortOfZero : Column Binary64 :=
  { Column.initial with index := 0, hard := ⟨-1.0, -0.25⟩, soft := ⟨-1.0, -0.25⟩ }

theorem value?_shortOfZero :
    shortOfZero.value? (outlineAt 0.0 1e-6).filled = some (-0.25) := by decide +kernel

/-- Where the first variable is zero, that column is settled at the integer nearest to its upper
bound, and a row of the variable at zero. -/
theorem fix_settles_shortOfZero :
    (∃ y, (column shortOfZero).fix (some (outlineAt 0.0 1e-6)) =
        .ok (column (shortOfZero.fixedAt (-0.25 : Binary64).nearest)) ∧
      (shortOfZero.fixedAt (-0.25 : Binary64).nearest).SettledAt (outlineAt 0.0 1e-6)
        (-0.25 : Binary64).nearest y ∧
      (shortOfZero.fixedAt y).SettledAt (outlineAt 0.0 1e-6) y y) ∧
    ((cappedRow 5.0).settle 0.0).Settled (outlineAt 0.0 1e-6) 1e-6 0.0 := by
  have hnonneg : (0.0 : Binary64) ≤ 1e-6 := by decide +kernel
  have hrange : (cappedRow 5.0).hard.Proper :=
    ⟨Or.inl (by decide +kernel), Or.inl (by decide +kernel), by decide +kernel⟩
  rcases @fix_settles (outlineAt 0.0 1e-6) _ _ rfl hnonneg rfl hnonneg with ⟨hcolumns, hrows⟩
  rcases (hcolumns shortOfZero rfl).2 _ value?_shortOfZero (by decide +kernel) with
    ⟨y, hfix, hfirst, hsecond, -⟩
  refine ⟨⟨y, hfix, hfirst, hsecond⟩, (hrows _ _ hrange ?_ (by decide +kernel)).2⟩
  exact activity_cappedRow (by decide +kernel)

/-- The value of that column is rounded to the negative zero.  Fixed there, the column has the zero
of the model for its value, and is fixed at that one next. -/
theorem fix_shortOfZero_twice :
    build .column shortOfZeroFields = .ok (column { shortOfZero with index := Entity.unplaced }) ∧
      shortOfZero.value? (outlineAt 0.0 1e-6).filled = some (-0.25) ∧
      (column shortOfZero).fix (some (outlineAt 0.0 1e-6)) =
        .ok (column (shortOfZero.fixedAt (-0.0))) ∧
      (column (shortOfZero.fixedAt (-0.0))).fix (some (outlineAt 0.0 1e-6)) =
        .ok (column (shortOfZero.fixedAt 0.0)) ∧
      column (shortOfZero.fixedAt (-0.0)) ≠ column (shortOfZero.fixedAt 0.0) := by
  have hnear : (-0.25 : Binary64).nearest = -0.0 := by decide +kernel
  have hnear' : (0.0 : Binary64).nearest = 0.0 := by decide +kernel
  have hvalue : (shortOfZero.fixedAt (-0.0)).value? (outlineAt 0.0 1e-6).filled = some 0.0 := by
    decide +kernel
  have hfirst := Column.fix_of_value (x := outlineAt 0.0 1e-6) rfl value?_shortOfZero
  have hsecond := Column.fix_of_value (x := outlineAt 0.0 1e-6) rfl hvalue
  rw [hnear] at hfirst
  rw [hnear', Column.fixedAt_fixedAt] at hsecond
  exact ⟨rfl, value?_shortOfZero, hfirst, hsecond, by decide +kernel⟩

end Object

end BranchBound
