import BranchBound.Object.Build
import BranchBound.Proofs.Column.Agreement

/-!
# Where a binary column has a branching

The points that a binary column is cut at are moved between zero and one, while its infeasibility
is taken from its value alone.  The two agree on every value between zero and one.  Nothing keeps
the soft range of a binary column there, though, and at a value further out that is no integer the
column is infeasible and both of its points are the same: there is nothing to branch on.

Main results:

- Theorem `Column.split?_eq_none_iff_of_binary`: at which values a binary column has no branching.
- Theorem `Object.branchable_iff_of_binary`: a binary column that is infeasible can be branched on
  exactly at the values within the tolerance of an integer and those between zero and one.
- Theorem `Object.branchable_of_unit`: so it always can within the unit range.
-/

namespace BranchBound

open Binary64

-- The number of units in one has 1075 bits and is never to be evaluated.
attribute [local irreducible] Grid.one

/-- A number between zero and one. -/
def Binary64.InUnit (x : Binary64) : Prop := (0.0 : Binary64) ≤ x ∧ x ≤ (1.0 : Binary64)

/-! ## Points of a binary column -/

theorem Binary64.inUnit_iff_toRat {x : Binary64} (hx : x.isFinite = true) :
    x.InUnit ↔ 0 ≤ x.toRat ∧ x.toRat ≤ 1 := by
  rw [InUnit, le_iff_toRat toRat_zero.1 hx, le_iff_toRat hx toRat_one.1, toRat_zero.2, toRat_one.2]

theorem Binary64.not_inUnit_of_not_isFinite {x : Binary64} (hx : x.isFinite ≠ true) :
    ¬ x.InUnit := by
  rintro ⟨hzero, hone⟩
  cases x with
  | nan => exact not_le_nan _ hzero
  | infinity s =>
    cases s with
    | false => exact absurd hone (by decide +kernel)
    | true => exact absurd hzero (by decide +kernel)
  | finite s k => exact hx rfl

theorem Binary64.floor_eq_ceiling_of_not_isFinite {x : Binary64} (hx : x.isFinite ≠ true) :
    x.floor = x ∧ x.ceiling = x := by
  cases x with
  | nan => exact ⟨rfl, rfl⟩
  | infinity s => exact ⟨rfl, rfl⟩
  | finite s k => exact absurd rfl hx

/-- A number moved between zero and one is the same as itself there. -/
theorem same_clamp_unit_self {x : Binary64} (hx : x ≠ nan) :
    Same (clamp (0.0 : Binary64) (1.0 : Binary64) x)
      (clamp (0.0 : Binary64) (1.0 : Binary64) x) := by
  have hunit : (0.0 : Binary64) ≤ (1.0 : Binary64) := by
    rw [le_iff_toRat toRat_zero.1 toRat_one.1, toRat_zero.2, toRat_one.2]
    exact zero_le_one
  have hle := le_refl_of_ne_nan (ne_nan_of_le_right (clamp_mem hunit hx).1)
  exact ⟨hle, hle⟩

/-- Moved between zero and one, two successive integers stay apart only if they are zero and
one. -/
theorem clamp_unit_succ_eq_iff (n : ℤ) :
    min (max (n : ℚ) 0) 1 = min (max ((n + 1 : ℤ) : ℚ) 0) 1 ↔ n ≠ 0 := by
  have hint : min (max n 0) 1 = min (max (n + 1) 0) 1 ↔ n ≠ 0 := by omega
  exact_mod_cast hint

/-- Between two successive integers, the values between zero and one are those above zero. -/
theorem Interval.Separates.inUnit_iff {points : Interval Binary64} {v : Binary64}
    (h : points.Separates v) (hv : v.isFinite = true) : v.InUnit ↔ ⌊v.toRat⌋ = 0 := by
  have hlow := Int.floor_le v.toRat
  have hhigh := Int.lt_floor_add_one v.toRat
  have hceil := Int.le_ceil v.toRat
  rw [inUnit_iff_toRat hv]
  constructor
  · rintro ⟨hzero, hone⟩
    have hnonneg : 0 ≤ ⌊v.toRat⌋ := Int.floor_nonneg.2 hzero
    have hceil_le : ⌈v.toRat⌉ ≤ 1 := Int.ceil_le.2 (by exact_mod_cast hone)
    have hsucc := h.ceil_eq
    omega
  · intro hfloor
    rw [hfloor] at hlow hhigh
    norm_num at hlow hhigh
    exact ⟨hlow, hhigh.le⟩

/-- The floor and the ceiling of a value that is no integer, moved between zero and one, are the
same unless the value lies there. -/
theorem same_clamp_floor_ceiling_iff {v : Binary64} (hv : v.isFinite = true)
    (hsep : (⟨v.floor, v.ceiling⟩ : Interval Binary64).Separates v) :
    Same (clamp (0.0 : Binary64) (1.0 : Binary64) v.floor)
      (clamp (0.0 : Binary64) (1.0 : Binary64) v.ceiling) ↔ ¬ v.InUnit := by
  rcases toRat_clamp_unit hsep.finite_lower with ⟨hlow, hlow'⟩
  rcases toRat_clamp_unit hsep.finite_upper with ⟨hhigh, hhigh'⟩
  have hfloor : v.floor.toRat = ⌊v.toRat⌋ := hsep.lower_eq
  have hceil : v.ceiling.toRat = ⌈v.toRat⌉ := hsep.upper_eq
  rw [same_iff_toRat hlow hhigh, hlow', hhigh', hfloor, hceil, hsep.ceil_eq,
    clamp_unit_succ_eq_iff, hsep.inUnit_iff hv]

/-! ## Judging and branching -/

namespace Column

variable {c : Column Binary64} {r : Relaxation Binary64} {v : Binary64}

theorem bracket_of_binary (hbinary : c.integrality = .binary) (tolerance : Binary64) :
    c.bracket tolerance v =
      if (v - v.nearest).abs ≤ tolerance then
        ⟨clamp (0.0 : Binary64) (1.0 : Binary64) v.nearest,
          clamp (0.0 : Binary64) (1.0 : Binary64) v.nearest⟩
      else
        ⟨clamp (0.0 : Binary64) (1.0 : Binary64) v.floor,
          clamp (0.0 : Binary64) (1.0 : Binary64) v.ceiling⟩ := by
  have hbracket : Entity.integerBracket tolerance v =
      if (v - v.nearest).abs ≤ tolerance then ⟨v.nearest, v.nearest⟩
      else ⟨v.floor, v.ceiling⟩ := rfl
  simp only [Entity.bracket, hbinary, hbracket]
  split <;> rfl

/-- A column with a value is feasible exactly if the value is within the tolerance of an
integer. -/
theorem infeasibility_eq_iff (hvalue : c.value? r = some v) :
    c.infeasibility r = (0.0, none) ↔ (v - v.nearest).abs ≤ r.integerTolerance := by
  constructor
  · intro hfeasible
    by_contra hfar
    have hway : (c.infeasibility r).2 = none := by rw [hfeasible]
    have hjudged : (c.infeasibility r).2 =
        some (if v - v.floor < (0.5 : Binary64) then Direction.down else .up) := by
      simp only [infeasibility, hvalue]
      exact congrArg Prod.snd (if_neg hfar)
    rw [hjudged] at hway
    cases hway
  · exact infeasibility_of_le hvalue

/-- A column with a value has no branching exactly if the points next to it are the same. -/
theorem split?_eq_none_iff (hvalue : c.value? r = some v) (direction : Direction) :
    c.split? r direction = none ↔
      Same (c.bracket r.integerTolerance v).lower (c.bracket r.integerTolerance v).upper := by
  simp only [split?, hvalue]
  split
  · rename_i hsame
    exact ⟨fun _ => hsame, fun _ => rfl⟩
  · rename_i hdiff
    exact ⟨fun hnone => absurd hnone (Option.some_ne_none _), fun hsame => absurd hsame hdiff⟩

/-- A binary column has no branching within the tolerance of an integer, nor at a value that does
not lie between zero and one. -/
theorem split?_eq_none_iff_of_binary (hbinary : c.integrality = .binary)
    (hvalue : c.value? r = some v) (hnan : v ≠ nan)
    (htol : (0.0 : Binary64) ≤ r.integerTolerance) (direction : Direction) :
    c.split? r direction = none ↔
      (v - v.nearest).abs ≤ r.integerTolerance ∨ ¬ v.InUnit := by
  rw [split?_eq_none_iff hvalue, bracket_of_binary hbinary]
  by_cases hnear : (v - v.nearest).abs ≤ r.integerTolerance
  · have hpoint : v.nearest ≠ nan := by
      rintro heq
      rw [heq] at hnear
      exact ne_nan_of_le_left hnear (by rw [sub_eq_add_neg]; cases v <;> rfl)
    rw [if_pos hnear]
    dsimp only
    exact ⟨fun _ => Or.inl hnear, fun _ => same_clamp_unit_self hpoint⟩
  · rw [if_neg hnear, or_iff_right hnear]
    dsimp only
    by_cases hv : v.isFinite = true
    · exact same_clamp_floor_ceiling_iff hv (separates_of_not_le htol hv hnear)
    · rcases floor_eq_ceiling_of_not_isFinite hv with ⟨hfloor, hceil⟩
      rw [hfloor, hceil]
      exact ⟨fun _ => not_inUnit_of_not_isFinite hv, fun _ => same_clamp_unit_self hnan⟩

end Column

/-! ## Infeasible columns without a branching -/

/-- A tolerance that is set is the one of the relaxation. -/
theorem Outline.filled_integerTolerance {x : Outline Binary64} {tolerance : Binary64}
    (htol : x.integerTolerance = some tolerance) : x.filled.integerTolerance = tolerance := by
  simp only [filled, htol, Option.getD_some]

/-- With a tolerance, a column is judged in the relaxation. -/
theorem Column.withParameter_of_tolerance {c : Column Binary64} {x : Outline Binary64}
    {tolerance : Binary64} (htol : x.integerTolerance = some tolerance) :
    c.withParameter x .integerTolerance = .ok x.filled := by
  have hset : x.parameter? .integerTolerance = some tolerance := htol
  unfold Column.withParameter Outline.withParameter
  rw [hset]
  cases c.value? x.filled <;> rfl

namespace Object

/-- Whether an object that a model finds infeasible can be branched on in either direction, and one
that cannot be branched on is found feasible. -/
structure Branchable (o : Object) (x : Outline Binary64) : Prop where
  /-- An infeasible object has a branching. -/
  branches : ∀ answer, o.infeasibility (some x) = .ok answer → (0.0 : Binary64) < answer.1 →
    ∀ direction : Direction, ∃ b, o.split (some x) (.integer direction.code) = .ok (some b)
  /-- An object without a branching is feasible. -/
  feasible : ∀ direction : Direction, o.split (some x) (.integer direction.code) = .ok none →
    o.infeasibility (some x) = .ok (0.0, none)

variable {c : Column Binary64} {x : Outline Binary64} {tolerance v : Binary64}

/-- With a tolerance, the infeasibility of a column is that in the relaxation. -/
theorem infeasibility_eq_of_tolerance (htol : x.integerTolerance = some tolerance) :
    (column c).infeasibility (some x) = .ok (c.infeasibility x.filled) := by
  simp only [infeasibility, Column.ask, Column.withParameter_of_tolerance htol]
  rfl

/-- With a tolerance, the branching of a column is that in the relaxation. -/
theorem split_eq_of_tolerance (hclass : c.integrality ≠ .continuous)
    (htol : x.integerTolerance = some tolerance) (hvalue : c.value? x.filled = some v)
    (direction : Direction) :
    (column c).split (some x) (.integer direction.code) = .ok (c.split? x.filled direction) := by
  have hparameter := Column.withParameter_of_tolerance (c := c) htol
  have hway : (Datum.integer direction.code).toDirection = .ok direction := by
    rw [Datum.toDirection_integer, Direction.ofCode?_code]
  -- the direction is looked at only if there is a branching downwards
  cases hdown : c.split? x.filled .down with
  | none =>
    have hnone : c.split? x.filled direction = none := by
      rw [Column.split?_eq_none_iff hvalue, ← Column.split?_eq_none_iff hvalue .down, hdown]
    rw [hnone]
    simp only [split, Column.ask, Column.splitBy, if_neg hclass, hparameter, bind, Except.bind,
      hdown]
    rfl
  | some b =>
    simp only [split, Column.ask, Column.splitBy, if_neg hclass, hparameter, bind, Except.bind,
      hdown, hway]
    rfl

/-- The value of a column with its soft range in order is a number of that range. -/
theorem value_mem_soft (hsoft : c.soft.lower ≤ c.soft.upper)
    (hfinite : ∀ y ∈ x.solution, y.isFinite = true) (hvalue : c.value? x.filled = some v) :
    c.soft.lower ≤ v ∧ v ≤ c.soft.upper := by
  unfold Column.value? at hvalue
  split at hvalue
  · cases hvalue
  · rcases Option.map_eq_some_iff.1 hvalue with ⟨y, hy, rfl⟩
    exact clamp_mem hsoft (ne_nan_of_isFinite (hfinite y (List.mem_of_getElem? hy)))

/-- A column with a value can be branched on whenever it is infeasible, provided that it lacks a
branching only within the tolerance of an integer. -/
theorem branchable_iff (hclass : c.integrality ≠ .continuous)
    (htol : x.integerTolerance = some tolerance) (hvalue : c.value? x.filled = some v) :
    (column c).Branchable x ↔
      ∀ direction, c.split? x.filled direction = none →
        (v - v.nearest).abs ≤ x.filled.integerTolerance := by
  have hsplit := split_eq_of_tolerance hclass htol hvalue
  have hinfeasibility := infeasibility_eq_of_tolerance (c := c) htol
  have hfeasible := Column.infeasibility_eq_iff hvalue
  constructor
  · intro hbranchable direction hnone
    have hanswer := hbranchable.feasible direction (by rw [hsplit, hnone])
    rw [hinfeasibility, Except.ok.injEq] at hanswer
    exact hfeasible.1 hanswer
  · intro hnear
    constructor
    · intro answer hanswer hpos direction
      cases hbranch : c.split? x.filled direction with
      | some b => exact ⟨b, by rw [hsplit, hbranch]⟩
      | none =>
        rw [hinfeasibility, Except.ok.injEq, hfeasible.2 (hnear direction hbranch)] at hanswer
        rw [← hanswer] at hpos
        exact absurd hpos (by decide +kernel)
    · intro direction hanswer
      rw [hsplit, Except.ok.injEq] at hanswer
      rw [hinfeasibility, hfeasible.2 (hnear direction hanswer)]

/-- A binary column whose soft range lies between zero and one can be branched on whenever it is
infeasible. -/
theorem branchable_of_unit (hbinary : c.integrality = .binary)
    (hsoft : c.soft.lower ≤ c.soft.upper) (hlower : (0.0 : Binary64) ≤ c.soft.lower)
    (hupper : c.soft.upper ≤ (1.0 : Binary64)) (hfinite : ∀ y ∈ x.solution, y.isFinite = true)
    (htol : x.integerTolerance = some tolerance) (hnonneg : (0.0 : Binary64) ≤ tolerance)
    (hvalue : c.value? x.filled = some v) : (column c).Branchable x := by
  rcases value_mem_soft hsoft hfinite hvalue with ⟨hlow, hhigh⟩
  have hunit : v.InUnit := ⟨le_trans hlower hlow, le_trans hhigh hupper⟩
  rw [← Outline.filled_integerTolerance htol] at hnonneg
  rw [branchable_iff (by simp [hbinary]) htol hvalue]
  intro direction hnone
  rw [Column.split?_eq_none_iff_of_binary hbinary hvalue (ne_nan_of_le_right hlow) hnonneg] at hnone
  exact hnone.resolve_right (not_not_intro hunit)

/-- A binary column can be branched on whenever it is infeasible, exactly at the values within the
tolerance of an integer and those between zero and one. -/
theorem branchable_iff_of_binary (hbinary : c.integrality = .binary)
    (hsoft : c.soft.lower ≤ c.soft.upper) (hfinite : ∀ y ∈ x.solution, y.isFinite = true)
    (htol : x.integerTolerance = some tolerance) (hnonneg : (0.0 : Binary64) ≤ tolerance)
    (hvalue : c.value? x.filled = some v) :
    (column c).Branchable x ↔ (v - v.nearest).abs ≤ tolerance ∨ v.InUnit := by
  have hnan := ne_nan_of_le_right (value_mem_soft hsoft hfinite hvalue).1
  have hfilled := Outline.filled_integerTolerance htol
  subst hfilled
  have hnone := Column.split?_eq_none_iff_of_binary hbinary hvalue hnan hnonneg
  rw [branchable_iff (by simp [hbinary]) htol hvalue]
  constructor
  · intro hnear
    by_cases hunit : v.InUnit
    · exact Or.inr hunit
    · exact Or.inl (hnear .down ((hnone .down).2 (Or.inr hunit)))
  · intro hv direction hlacks
    rcases (hnone direction).1 hlacks with hnear | hout
    · exact hnear
    · exact hv.resolve_right hout

/-- The fields of a binary column that may go up to five. -/
def wideFields : Fields where
  hardLower := some (.real 0.0)
  hardUpper := some (.real 5.0)
  binary := some true

/-- The column with these fields, in the first place of a model. -/
def wideBinary : Column Binary64 :=
  { Column.initial with
    index := 0, integrality := .binary, hard := ⟨0.0, 5.0⟩, soft := ⟨0.0, 5.0⟩ }

/-- A model that gives a column the value in the middle of two and three. -/
def middleOutline : Outline Binary64 :=
  { Outline.ofRelaxation Relaxation.initial with solution := [2.5] }

/-- At the value in the middle of two and three. -/
theorem branchable_iff_of_binary_wide :
    (column wideBinary).Branchable middleOutline ↔
      ((2.5 : Binary64) - (2.5 : Binary64).nearest).abs ≤ (1e-6 : Binary64) ∨
        (2.5 : Binary64).InUnit := by
  have hsoft : wideBinary.soft.lower ≤ wideBinary.soft.upper := by decide +kernel
  have hfinite : ∀ y ∈ middleOutline.solution, y.isFinite = true := by decide +kernel
  have hnonneg : (0.0 : Binary64) ≤ 1e-6 := by decide +kernel
  have hvalue : wideBinary.value? middleOutline.filled = some 2.5 := by decide +kernel
  exact branchable_iff_of_binary rfl hsoft hfinite rfl hnonneg hvalue

/-- The column is built and placed without a fault, and is then as infeasible as can be, but has no
branching in either direction. -/
theorem stuck_wideBinary :
    build .column wideFields = .ok (column { wideBinary with index := Entity.unplaced }) ∧
      (column wideBinary).infeasibility (some middleOutline) = .ok (0.5, some .up) ∧
      ∀ direction : Direction,
        (column wideBinary).split (some middleOutline) (.integer direction.code) = .ok none := by
  have hvalue : wideBinary.value? middleOutline.filled = some 2.5 := by decide +kernel
  have hjudged : wideBinary.infeasibility middleOutline.filled = (0.5, some .up) := by
    decide +kernel
  have hlacks : ∀ direction, wideBinary.split? middleOutline.filled direction = none := by
    intro direction
    cases direction <;> decide +kernel
  refine ⟨rfl, ?_, ?_⟩
  · rw [infeasibility_eq_of_tolerance rfl, hjudged]
  · intro direction
    rw [split_eq_of_tolerance (by decide) rfl hvalue, hlacks]

end Object

end BranchBound
