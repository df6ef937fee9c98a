import BranchBound.Object.Search
import BranchBound.Proofs.Binary64.Distance
import BranchBound.Proofs.Column.Cut

/-!
# Agreement of a column's answers

How infeasible a column is, which points it is cut at, where it would be fixed and which child is
to be tried first are worked out one by one from its value, with three different roundings.  They
agree all the same, as the difference between a value and the integer nearest to it is exact.

The difference between a value and the further one of the two integers next to it may be rounded.
It never falls below one half, though, and therefore never hides the nearer one.

Main results:

- Theorem `Binary64.nearest_eq_floor_or_ceiling`: the nearest integer is one of the two next to a
  number.
- Theorem `Column.judgement_of_not_le`: a column beyond the tolerance is judged by its nearer child.
- Theorem `Column.answers_agree`: all answers of an integer column agree.
-/

namespace BranchBound

open Binary64

-- The number of units in one has 1075 bits and is never to be evaluated.
attribute [local irreducible] Grid.one

/-! ## Roundings to an integer -/

namespace Binary64

theorem sign_of_isFinite_rounded {s : Bool} {num den : Nat}
    (h : (rounded s num den).isFinite = true) : ∃ k, rounded s num den = finite s k := by
  unfold rounded ofPlace at h ⊢
  split
  · exact ⟨_, rfl⟩
  · rename_i hplace
    rw [dif_neg hplace] at h
    exact absurd h Bool.false_ne_true

/-- All roundings to an integer keep the sign, so that those of one value are equal. -/
theorem toIntegral_eq_of_toRat_eq {f g : Bool → Nat → Nat} {x : Binary64}
    (hf : (toIntegral f x).isFinite = true) (hg : (toIntegral g x).isFinite = true)
    (h : (toIntegral f x).toRat = (toIntegral g x).toRat) : toIntegral f x = toIntegral g x := by
  cases x with
  | nan => rfl
  | infinity s => rfl
  | finite s k =>
    have hrounded : ∀ m : Bool → Nat → Nat,
        toIntegral m (finite s k) = rounded s (m s (Grid.units k) * Grid.one) 1 := by
      intro m
      rfl
    rw [hrounded] at hf hg h ⊢
    rw [hrounded] at h ⊢
    rcases sign_of_isFinite_rounded hf with ⟨i, hi⟩
    rcases sign_of_isFinite_rounded hg with ⟨j, hj⟩
    rw [hi, hj] at h ⊢
    have hunits := le_antisymm (toRat_le_toRat_iff.1 h.le) (toRat_le_toRat_iff.1 h.ge)
    rw [units_finite, units_finite] at hunits
    have hplace : Grid.units i = Grid.units j := by
      cases s <;> simpa using hunits
    rw [Fin.ext (Grid.units_inj.1 hplace)]

/-- The nearest integer is one of the two next to a number. -/
theorem nearest_eq_floor_or_ceiling {x : Binary64} (hx : x.isFinite = true) :
    x.nearest = x.floor ∨ x.nearest = x.ceiling := by
  rcases nearest_exact hx with ⟨⟨hnear, n, hn⟩, -⟩
  rcases floor_exact hx with ⟨hfloor, hfloor'⟩
  rcases ceiling_exact hx with ⟨hceil, hceil'⟩
  have hge := intCast_le_toRat_nearest hx (Int.floor_le x.toRat)
  have hle := toRat_nearest_le_intCast hx (Int.le_ceil x.toRat)
  have hsucc := Int.ceil_le_floor_add_one x.toRat
  rw [hn] at hge hle
  have hpoint : n = ⌊x.toRat⌋ ∨ n = ⌈x.toRat⌉ := by
    have hge' : ⌊x.toRat⌋ ≤ n := by exact_mod_cast hge
    have hle' : n ≤ ⌈x.toRat⌉ := by exact_mod_cast hle
    omega
  rcases hpoint with h | h
  · left
    exact toIntegral_eq_of_toRat_eq hnear hfloor (by rw [← nearest, ← floor, hn, hfloor', h])
  · right
    exact toIntegral_eq_of_toRat_eq hnear hceil (by rw [← nearest, ← ceiling, hn, hceil', h])

end Binary64

/-! ## Distances to the children of a branching -/

theorem lesser_le_left {x y : Binary64} (hx : x ≠ nan) : lesser x y ≤ x := by
  unfold lesser
  split
  · rename_i h
    exact le_of_lt h
  · exact le_refl_of_ne_nan hx

namespace Branch

/-- The two points that a range is cut at. -/
def points (b : Branch Binary64) : Interval Binary64 := ⟨b.down.upper, b.up.lower⟩

/-- How far a child is from the value of a branching. -/
def distance (b : Branch Binary64) : Direction → ℚ
  | .down => b.value.toRat - b.down.upper.toRat
  | .up => b.up.lower.toRat - b.value.toRat

/-- The double that is computed for that distance. -/
def gap (b : Branch Binary64) : Direction → Binary64
  | .down => b.value - b.down.upper
  | .up => b.up.lower - b.value

/-- The child to try first: the one below if the value is less than one half above it. -/
def nearer (b : Branch Binary64) : Direction :=
  if b.gap .down < (0.5 : Binary64) then .down else .up

section

variable {b : Branch Binary64} (hv : b.value.isFinite = true) (hb : b.points.Separates b.value)

include hb

theorem distance_add : b.distance .down + b.distance .up = 1 := by
  have hlower : b.down.upper.toRat = ⌊b.value.toRat⌋ := hb.lower_eq
  have hupper : b.up.lower.toRat = ⌈b.value.toRat⌉ := hb.upper_eq
  rw [distance, distance, hlower, hupper, hb.ceil_eq]
  push_cast
  ring

theorem distance_pos (direction : Direction) : 0 < b.distance direction := by
  have hlower : b.down.upper.toRat = ⌊b.value.toRat⌋ := hb.lower_eq
  have hupper : b.up.lower.toRat = ⌈b.value.toRat⌉ := hb.upper_eq
  have hceil := hb.ceil_eq
  cases direction with
  | down =>
    rw [distance, hlower, sub_pos]
    refine lt_of_le_of_ne (Int.floor_le _) ?_
    intro heq
    have hsame : ⌈b.value.toRat⌉ = ⌊b.value.toRat⌋ := by
      rw [← heq, Int.ceil_intCast, Int.floor_intCast]
    omega
  | up =>
    rw [distance, hupper, hceil, sub_pos]
    push_cast
    exact Int.lt_floor_add_one _

include hv

/-- The distance to a child at most one half away is exact. -/
theorem gap_exact {direction : Direction} (h : b.distance direction ≤ 1 / 2) :
    (b.gap direction).isFinite = true ∧ (b.gap direction).toRat = b.distance direction := by
  have hpos := distance_pos hb direction
  cases direction with
  | down =>
    unfold distance at h hpos
    exact sub_integer_exact hv ⟨hb.finite_lower, _, hb.lower_eq⟩ (by rwa [abs_of_pos hpos])
  | up =>
    unfold distance at h hpos
    exact integer_sub_exact hv ⟨hb.finite_upper, _, hb.upper_eq⟩
      (by rwa [abs_sub_comm, abs_of_pos hpos])

/-- The distance to a child is not rounded below any double. -/
theorem le_gap {x : Binary64} {direction : Direction} (hx : x.isFinite = true)
    (h : x.toRat ≤ b.distance direction) : x ≤ b.gap direction := by
  cases direction with
  | down => exact le_sub_of_le_toRat hv hb.finite_lower hx h
  | up => exact le_sub_of_le_toRat hb.finite_upper hv hx h

/-- The child to try first is told by the exact distance. -/
theorem nearer_eq : b.nearer = if b.distance .down < 1 / 2 then .down else .up := by
  unfold nearer
  by_cases h : b.distance .down < 1 / 2
  · rcases gap_exact hv hb h.le with ⟨hfinite, hvalue⟩
    rw [if_pos h, if_pos ((lt_iff_toRat hfinite toRat_half.1).2 (by rwa [hvalue, toRat_half.2]))]
  · have hhalf : (0.5 : Binary64) ≤ b.gap .down :=
      le_gap hv hb toRat_half.1 (by rw [toRat_half.2]; exact not_lt.1 h)
    have hnot := (not_lt_iff (ne_nan_of_le_right hhalf) (ne_nan_of_le_left hhalf)).2 hhalf
    rw [if_neg h, if_neg hnot]

/-- The child to try first is the nearer one. -/
theorem distance_nearer : b.distance b.nearer = min (b.distance .down) (b.distance .up) := by
  have hsum := distance_add hb
  rw [nearer_eq hv hb]
  by_cases h : b.distance .down < 1 / 2
  · rw [if_pos h, min_eq_left (by linarith)]
  · rw [if_neg h, min_eq_right (by linarith)]

theorem gap_nearer :
    (b.gap b.nearer).isFinite = true ∧ (b.gap b.nearer).toRat = b.distance b.nearer := by
  have hsum := distance_add hb
  refine gap_exact hv hb ?_
  rw [distance_nearer hv hb]
  by_cases h : b.distance .down ≤ 1 / 2
  · exact le_trans (min_le_left _ _) h
  · exact le_trans (min_le_right _ _) (by linarith)

/-- Among the two computed distances the lesser one is that of the nearer child. -/
theorem lesser_gap : lesser (b.gap .down) (b.gap .up) = b.gap b.nearer := by
  have hsum := distance_add hb
  rcases gap_nearer hv hb with ⟨hfinite, hvalue⟩
  have hle : ∀ direction, b.gap b.nearer ≤ b.gap direction := by
    intro direction
    refine le_gap hv hb hfinite ?_
    rw [hvalue, distance_nearer hv hb]
    cases direction with
    | down => exact min_le_left _ _
    | up => exact min_le_right _ _
  have hnotnan : ∀ direction, b.gap direction ≠ nan := fun direction =>
    ne_nan_of_le_right (hle direction)
  have hlesser : lesser (b.gap .down) (b.gap .up) ≤ b.gap b.nearer := by
    cases b.nearer with
    | down => exact lesser_le_left (hnotnan .down)
    | up => exact lesser_le_right (hnotnan .down) (hnotnan .up)
  refine eq_of_le_of_le hfinite ?_ (le_lesser (hle .down) (hle .up)) hlesser
  rw [hvalue]
  exact (distance_pos hb _).ne'

end

end Branch

namespace Column

/-- What is said of a column that has a branching: how infeasible it is, which child is preferred,
and the point it would be fixed to. -/
structure Judgement (tolerance d : Binary64) (preferred : Direction) (point : Binary64)
    (b : Branch Binary64) : Prop where
  /-- The column is not within the tolerance. -/
  tolerance_lt : tolerance < d
  /-- It is at most one half away. -/
  le_half : d ≤ (0.5 : Binary64)
  /-- It is as far away as the nearer child. -/
  eq_lesser : d = lesser (b.gap .down) (b.gap .up)
  /-- This distance is exact. -/
  toRat_eq : d.toRat = min (b.distance .down) (b.distance .up)
  /-- The preferred child is that far away. -/
  gap_preferred : b.gap preferred = d
  /-- This distance is exact as well. -/
  distance_preferred : b.distance preferred = d.toRat
  /-- In a tie the child above is preferred. -/
  tie : b.distance .down = b.distance .up → preferred = .up
  /-- The point to fix the column to is that far away. -/
  abs_point : (b.value - point).abs = d
  /-- So it is without rounding. -/
  distance_point : |b.value.toRat - point.toRat| = d.toRat

/-- A value beyond the tolerance lies between two successive integers. -/
theorem separates_of_not_le {tolerance v : Binary64} (htol : (0.0 : Binary64) ≤ tolerance)
    (hv : v.isFinite = true) (hfar : ¬ (v - v.nearest).abs ≤ tolerance) :
    (⟨v.floor, v.ceiling⟩ : Interval Binary64).Separates v := by
  rcases floor_exact hv with ⟨hfloor, hfloor'⟩
  rcases ceiling_exact hv with ⟨hceil, hceil'⟩
  refine ⟨hfloor, hceil, hfloor', hceil', ceil_eq_floor_add_one ?_⟩
  intro heq
  rcases abs_sub_nearest_exact hv with ⟨hfinite, hdist, -⟩
  have hvalue : v.toRat = ⌊v.toRat⌋ :=
    le_antisymm (by rw [heq]; exact Int.le_ceil _) (Int.floor_le _)
  have hnear : v.nearest.toRat = ⌊v.toRat⌋ := by
    rcases nearest_eq_floor_or_ceiling hv with h | h
    · rw [h, hfloor']
    · rw [h, hceil', heq]
  rw [hnear, ← hvalue, sub_self, abs_zero] at hdist
  have hzero : (v - v.nearest).abs ≤ (0.0 : Binary64) := by
    rw [le_iff_toRat hfinite toRat_zero.1, hdist, toRat_zero.2]
  exact hfar (le_trans hzero htol)

/-- The nearest integer is as far away as the nearer child. -/
theorem abs_sub_nearest_eq {b : Branch Binary64} (hv : b.value.isFinite = true)
    (hb : b.points.Separates b.value)
    (hpoints : b.points = ⟨b.value.floor, b.value.ceiling⟩) :
    |b.value.toRat - b.value.nearest.toRat| = b.distance b.nearer := by
  have hsum := Branch.distance_add hb
  have hpos := Branch.distance_pos hb
  rcases nearest_exact hv with ⟨-, hdist⟩
  have hlower : b.down.upper = b.value.floor := congrArg Interval.lower hpoints
  have hupper : b.up.lower = b.value.ceiling := congrArg Interval.upper hpoints
  rw [Branch.distance_nearer hv hb]
  rcases nearest_eq_floor_or_ceiling hv with h | h
  · have hdown : |b.value.toRat - b.value.nearest.toRat| = b.distance .down := by
      rw [h, ← hlower]
      exact abs_of_pos (hpos .down)
    rw [hdown] at hdist ⊢
    rw [min_eq_left (by linarith)]
  · have hup : |b.value.toRat - b.value.nearest.toRat| = b.distance .up := by
      rw [h, ← hupper, abs_sub_comm]
      exact abs_of_pos (hpos .up)
    rw [hup] at hdist ⊢
    rw [min_eq_right (by linarith)]

/-- A column beyond the tolerance is judged by its nearer child. -/
theorem judgement_of_not_le {tolerance : Binary64} {b : Branch Binary64}
    (htol : (0.0 : Binary64) ≤ tolerance) (hv : b.value.isFinite = true)
    (hpoints : b.points = ⟨b.value.floor, b.value.ceiling⟩)
    (hfar : ¬ (b.value - b.value.nearest).abs ≤ tolerance) :
    Judgement tolerance (b.value - b.value.nearest).abs b.nearer b.value.nearest b := by
  have hb : b.points.Separates b.value := by
    rw [hpoints]
    exact separates_of_not_le htol hv hfar
  rcases abs_sub_nearest_exact hv with ⟨hfinite, hdist, hhalf⟩
  rcases Branch.gap_nearer hv hb with ⟨hgap, hgap'⟩
  have hnear := abs_sub_nearest_eq hv hb hpoints
  rw [hnear] at hdist
  have heq : b.gap b.nearer = (b.value - b.value.nearest).abs := by
    refine eq_of_toRat_eq hgap hfinite (by rw [hgap', hdist]) ?_
    rw [hgap']
    exact (Branch.distance_pos hb _).ne'
  refine ⟨?_, hhalf, ?_, ?_, heq, hdist.symm, ?_, rfl, by rw [hnear, hdist]⟩
  · by_contra hnot
    exact hfar ((not_lt_iff (ne_nan_of_le_right htol) (ne_nan_of_isFinite hfinite)).1 hnot)
  · rw [Branch.lesser_gap hv hb, heq]
  · rw [hdist, Branch.distance_nearer hv hb]
  · intro htie
    have hsum := Branch.distance_add hb
    rw [Branch.nearer_eq hv hb, if_neg (by linarith)]

/-! ## Answers -/

/-- The answers of an integer column about one value agree. -/
structure Agreement (tolerance v : Binary64) (infeasibility : Binary64 × Option Direction)
    (points : Interval Binary64) (point : Binary64)
    (split : Direction → Option (Branch Binary64)) : Prop where
  /-- The column is feasible if the points next to the value are one. -/
  feasible_iff : infeasibility = (0.0, none) ↔ Same points.lower points.upper
  /-- It has no branching if they are one. -/
  split_eq_none_iff : ∀ direction, split direction = none ↔ Same points.lower points.upper
  /-- It would be fixed to one of them. -/
  point_mem : point = points.lower ∨ point = points.upper
  /-- If it is feasible, that point is within the tolerance. -/
  abs_point_le : infeasibility = (0.0, none) → (v - point).abs ≤ tolerance
  /-- The distance to that point is exact. -/
  abs_point_exact : (v - point).abs.toRat = |v.toRat - point.toRat|
  /-- Every branching is at these points, and its nearer child is as far away as the column is
  infeasible. -/
  judgement : ∀ direction b, split direction = some b →
    b.way = direction.code ∧ b.value = v ∧ b.points = points ∧
      ∃ preferred, infeasibility.2 = some preferred ∧
        Judgement tolerance infeasibility.1 preferred point b

variable {c : Column Binary64} {r : Relaxation Binary64} {v : Binary64}

theorem bracket_of_integer (hint : c.integrality = .integer) (tolerance : Binary64) :
    c.bracket tolerance v =
      if (v - v.nearest).abs ≤ tolerance then ⟨v.nearest, v.nearest⟩
      else ⟨v.floor, v.ceiling⟩ := by
  simp only [Entity.bracket, hint]
  rfl

theorem infeasibility_of_le (hvalue : c.value? r = some v)
    (hnear : (v - v.nearest).abs ≤ r.integerTolerance) : c.infeasibility r = (0.0, none) := by
  simp only [infeasibility, hvalue]
  exact if_pos hnear

/-- The distance is not cut off at one half, as it never exceeds one half. -/
theorem infeasibility_of_not_le (hvalue : c.value? r = some v) (hv : v.isFinite = true)
    (hfar : ¬ (v - v.nearest).abs ≤ r.integerTolerance) :
    c.infeasibility r = ((v - v.nearest).abs,
      some (if v - v.floor < (0.5 : Binary64) then .down else .up)) := by
  have hhalf := (abs_sub_nearest_exact hv).2.2
  have hlesser : lesser (v - v.nearest).abs (0.5 : Binary64) = (v - v.nearest).abs :=
    if_neg ((not_lt_iff (ne_nan_of_le_right hhalf) (ne_nan_of_le_left hhalf)).2 hhalf)
  simp only [infeasibility, hvalue]
  refine (if_neg hfar).trans ?_
  rw [← hlesser]
  rfl

/-- Within the tolerance a column is feasible, and has no branching. -/
theorem agreement_of_le (hint : c.integrality = .integer) (hvalue : c.value? r = some v)
    (hv : v.isFinite = true) (hnear : (v - v.nearest).abs ≤ r.integerTolerance) :
    Agreement r.integerTolerance v (c.infeasibility r) (c.bracket r.integerTolerance v) v.nearest
      (c.split? r) := by
  have hpoints : c.bracket r.integerTolerance v = ⟨v.nearest, v.nearest⟩ := by
    rw [bracket_of_integer hint, if_pos hnear]
  have hsame := same_self (nearest_exact hv).1.isFinite
  have hsplit : ∀ direction, c.split? r direction = none := by
    intro direction
    simp only [split?, hvalue, hpoints]
    exact if_pos hsame
  rw [hpoints, infeasibility_of_le hvalue hnear]
  refine ⟨by simpa using hsame, fun _ => by simpa [hsplit] using hsame, Or.inl rfl, fun _ => hnear,
    (abs_sub_nearest_exact hv).2.1, ?_⟩
  intro direction b hb
  rw [hsplit] at hb
  cases hb

/-- Beyond it a column is not feasible, and has a branching. -/
theorem agreement_of_not_le (hint : c.integrality = .integer) (hvalue : c.value? r = some v)
    (hv : v.isFinite = true) (htol : (0.0 : Binary64) ≤ r.integerTolerance)
    (hfar : ¬ (v - v.nearest).abs ≤ r.integerTolerance) :
    Agreement r.integerTolerance v (c.infeasibility r) (c.bracket r.integerTolerance v) v.nearest
      (c.split? r) := by
  have hpoints : c.bracket r.integerTolerance v = ⟨v.floor, v.ceiling⟩ := by
    rw [bracket_of_integer hint, if_neg hfar]
  have hsep := separates_of_not_le htol hv hfar
  have hdiff : ¬ Same v.floor v.ceiling := by
    rw [same_iff_toRat hsep.finite_lower hsep.finite_upper, hsep.lower_eq, hsep.upper_eq,
      hsep.ceil_eq]
    push_cast
    linarith
  have hsplit : ∀ direction, c.split? r direction =
      some ⟨c.index, direction.code, v, ⟨c.soft.lower, v.floor⟩, ⟨v.ceiling, c.soft.upper⟩⟩ := by
    intro direction
    simp only [split?, hvalue, hpoints]
    exact if_neg hdiff
  rw [hpoints, infeasibility_of_not_le hvalue hv hfar]
  refine ⟨by simpa using hdiff, fun _ => by simpa [hsplit] using hdiff,
    nearest_eq_floor_or_ceiling hv, by simp, (abs_sub_nearest_exact hv).2.1, ?_⟩
  intro direction b hb
  rw [hsplit, Option.some.injEq] at hb
  have hjudgement := judgement_of_not_le (b := b) htol (by rw [← hb]; exact hv)
    (by rw [← hb]; rfl) (by rw [← hb]; exact hfar)
  subst hb
  exact ⟨rfl, rfl, rfl, _, rfl, hjudgement⟩

/-- How infeasible an integer column is, the points next to its value, the point it would be fixed
to, and its branching in either direction agree. -/
theorem answers_agree {o : Outline Binary64} {tolerance : Binary64}
    (hint : c.integrality = .integer) (htol : o.integerTolerance = some tolerance)
    (hnonneg : (0.0 : Binary64) ≤ tolerance) (hvalue : c.value? o.filled = some v)
    (hv : v.isFinite = true) :
    ∃ infeasibility points point split,
      (Object.column c).infeasibility (some o) = .ok infeasibility ∧
        (Object.column c).bracket (.real v) (.real tolerance) = .ok points ∧
        (Object.column c).fix (some o) =
          .ok (.column { c with soft := ⟨point, point⟩ }) ∧
        (∀ direction : Direction,
          (Object.column c).split (some o) (.integer direction.code) = .ok (split direction)) ∧
        Agreement tolerance v infeasibility points point split := by
  have hfilled : o.filled.integerTolerance = tolerance := by
    simp only [Outline.filled, htol, Option.getD_some]
  have hparameter : c.withParameter o .integerTolerance = .ok o.filled := by
    have hset : o.parameter? .integerTolerance = some tolerance := htol
    simp only [withParameter, hvalue, Outline.withParameter, hset]
  subst hfilled
  have hagree : Agreement o.filled.integerTolerance v (c.infeasibility o.filled)
      (c.bracket o.filled.integerTolerance v) v.nearest (c.split? o.filled) := by
    by_cases hnear : (v - v.nearest).abs ≤ o.filled.integerTolerance
    · exact agreement_of_le hint hvalue hv hnear
    · exact agreement_of_not_le hint hvalue hv hnonneg hnear
  have hclass : c.integrality ≠ .continuous := by
    rw [hint]
    decide
  refine ⟨_, _, _, _, ?_, ?_, ?_, ?_, hagree⟩
  · simp only [Object.infeasibility, ask, hparameter]
    rfl
  · simp only [Object.bracket, Datum.toReal_real, Object.header, if_neg hclass]
    rfl
  · have hfix : c.fix o.filled = { c with soft := ⟨v.nearest, v.nearest⟩ } := by
      simp only [fix, hvalue]
      rfl
    rw [← hfix]
    simp only [Object.fix, ask, hparameter]
    rfl
  · intro direction
    have hway : (Datum.integer direction.code).toDirection = .ok direction := by
      rw [Datum.toDirection_integer, Direction.ofCode?_code]
    -- the direction is looked at only if there is a branching downwards
    cases hdown : c.split? o.filled .down with
    | none =>
      have hnone : c.split? o.filled direction = none := by
        rw [hagree.split_eq_none_iff, ← hagree.split_eq_none_iff .down, hdown]
      rw [hnone]
      simp only [Object.split, ask, splitBy, if_neg hclass, hparameter, bind, Except.bind, hdown]
      rfl
    | some b =>
      simp only [Object.split, ask, splitBy, if_neg hclass, hparameter, bind, Except.bind, hdown,
        hway]
      rfl

/-- A column from minus three to three. -/
def shortColumn : Column Binary64 :=
  { Column.initial with index := 0, soft := ⟨-3.0, 3.0⟩ }

/-- A model that gives a column the middle of two integers, and knows no sense. -/
def tiedOutline : Outline Binary64 :=
  { Outline.ofRelaxation Relaxation.initial with solution := [-1.5], sense := none }

/-- The answers to a value in the middle of two integers agree. -/
theorem answers_agree_tied :
    ∃ infeasibility points point split,
      (Object.column shortColumn).infeasibility (some tiedOutline) = .ok infeasibility ∧
        (Object.column shortColumn).bracket (.real (-1.5)) (.real 1e-6) = .ok points ∧
        (Object.column shortColumn).fix (some tiedOutline) =
          .ok (.column { shortColumn with soft := ⟨point, point⟩ }) ∧
        (∀ direction : Direction,
          (Object.column shortColumn).split (some tiedOutline) (.integer direction.code) =
            .ok (split direction)) ∧
        Agreement (1e-6 : Binary64) (-1.5) infeasibility points point split := by
  have hnonneg : (0.0 : Binary64) ≤ 1e-6 := by decide +kernel
  have hvalue : shortColumn.value? tiedOutline.filled = some (-1.5) := by decide +kernel
  have hfinite : (-1.5 : Binary64).isFinite = true := by decide +kernel
  exact answers_agree rfl rfl hnonneg hvalue hfinite

end Column

end BranchBound
