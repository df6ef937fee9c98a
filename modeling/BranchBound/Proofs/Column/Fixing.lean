import BranchBound.Proofs.Column.Binary

/-!
# Where fixing a column leads

A column is fixed at the integer nearest to its value.  The value is moved into the soft range
first, but the integer is not moved there afterwards: if the range ends between two integers, the
one outside may be the nearer one, and the column is fixed outside its own range, whether or not
the range holds an integer.

An end that is an integer is never passed.  Another lower end is passed by the values that are
rounded to its floor, those less than one half above that floor, and the one just one half above it
if the floor is even; for the upper end and its ceiling it is the same.  The end itself is the first
value to pass it.

Main results:

- Theorem `Interval.nearest_mem_iff`: which values of a range are rounded out of it.
- Theorem `Column.Boxed.consistent_fixed_iff`: when the bounds stay in order.
- Theorem `Object.fix_boxed_iff`: where a column is fixed, and which columns are always fixed inside
  their ranges.
-/

namespace BranchBound

open Binary64

-- The number of units in one has 1075 bits and is never to be evaluated.
attribute [local irreducible] Grid.one

/-! ## Rounding within a range -/

namespace Binary64

variable {v : Binary64} {n : ℤ}

/-- A number is rounded to an integer below it if that is close enough, or halfway and even. -/
theorem toRat_nearest_eq_of_le_iff (hv : v.isFinite = true) (hle : (n : ℚ) ≤ v.toRat) :
    v.nearest.toRat = n ↔ v.toRat - n < 1 / 2 ∨ v.toRat - n = 1 / 2 ∧ Even n := by
  rw [toRat_nearest_eq_iff hv, abs_of_nonneg (sub_nonneg.2 hle)]

/-- A number is rounded to an integer above it if that is close enough, or halfway and even. -/
theorem toRat_nearest_eq_of_ge_iff (hv : v.isFinite = true) (hge : v.toRat ≤ n) :
    v.nearest.toRat = n ↔ n - v.toRat < 1 / 2 ∨ n - v.toRat = 1 / 2 ∧ Even n := by
  rw [toRat_nearest_eq_iff hv, abs_sub_comm, abs_of_nonneg (sub_nonneg.2 hge)]

theorem isInteger_iff_floor (hv : v.isFinite = true) : v.IsInteger ↔ v.toRat = ⌊v.toRat⌋ := by
  constructor
  · rintro ⟨-, n, hn⟩
    rw [hn, Int.floor_intCast]
  · intro h
    exact ⟨hv, _, h⟩

theorem isInteger_iff_ceil (hv : v.isFinite = true) : v.IsInteger ↔ v.toRat = ⌈v.toRat⌉ := by
  constructor
  · rintro ⟨-, n, hn⟩
    rw [hn, Int.ceil_intCast]
  · intro h
    exact ⟨hv, _, h⟩

end Binary64

namespace Interval

/-- The lower end is no integer, and a value is rounded to the integer before it. -/
def RoundsBelow (i : Interval Binary64) (v : Binary64) : Prop :=
  ¬ i.lower.IsInteger ∧
    (v.toRat - ⌊i.lower.toRat⌋ < 1 / 2 ∨
      v.toRat - ⌊i.lower.toRat⌋ = 1 / 2 ∧ Even ⌊i.lower.toRat⌋)

/-- The upper end is no integer, and a value is rounded to the integer after it. -/
def RoundsAbove (i : Interval Binary64) (v : Binary64) : Prop :=
  ¬ i.upper.IsInteger ∧
    (⌈i.upper.toRat⌉ - v.toRat < 1 / 2 ∨
      ⌈i.upper.toRat⌉ - v.toRat = 1 / 2 ∧ Even ⌈i.upper.toRat⌉)

variable {i : Interval Binary64} {v w : Binary64}

/-- Of the values at or above the lower end of a range, these are rounded below it. -/
theorem nearest_lt_lower_iff (hlower : i.lower.isFinite = true) (hv : v.isFinite = true)
    (hle : i.lower ≤ v) : v.nearest < i.lower ↔ i.RoundsBelow v := by
  have hfloor := Int.floor_le i.lower.toRat
  rw [le_iff_toRat hlower hv] at hle
  have hfloor_le := hfloor.trans hle
  rcases (nearest_exact hv).1 with ⟨hnear, n, hn⟩
  have hge := intCast_le_toRat_nearest hv hfloor_le
  rw [lt_iff_toRat hnear hlower, RoundsBelow, isInteger_iff_floor hlower,
    ← toRat_nearest_eq_of_le_iff hv hfloor_le, hn]
  rw [hn] at hge
  constructor
  · intro hlt
    have hn_le : (n : ℚ) ≤ ⌊i.lower.toRat⌋ := by exact_mod_cast Int.le_floor.2 hlt.le
    have heq := hn_le.antisymm hge
    exact ⟨fun hint => hlt.ne (heq.trans hint.symm), heq⟩
  · rintro ⟨hint, heq⟩
    rw [heq]
    exact hfloor.lt_of_ne (Ne.symm hint)

/-- Of the values at or below the upper end of a range, these are rounded above it. -/
theorem upper_lt_nearest_iff (hupper : i.upper.isFinite = true) (hv : v.isFinite = true)
    (hle : v ≤ i.upper) : i.upper < v.nearest ↔ i.RoundsAbove v := by
  have hceil := Int.le_ceil i.upper.toRat
  rw [le_iff_toRat hv hupper] at hle
  have hle_ceil := hle.trans hceil
  rcases (nearest_exact hv).1 with ⟨hnear, n, hn⟩
  have hge := toRat_nearest_le_intCast hv hle_ceil
  rw [lt_iff_toRat hupper hnear, RoundsAbove, isInteger_iff_ceil hupper,
    ← toRat_nearest_eq_of_ge_iff hv hle_ceil, hn]
  rw [hn] at hge
  constructor
  · intro hlt
    have hle_n : (⌈i.upper.toRat⌉ : ℚ) ≤ n := by exact_mod_cast Int.ceil_le.2 hlt.le
    have heq := hge.antisymm hle_n
    exact ⟨fun hint => hlt.ne (hint.trans heq.symm), heq⟩
  · rintro ⟨hint, heq⟩
    rw [heq]
    exact hceil.lt_of_ne hint

/-- If a value is rounded below a range, so is every smaller one. -/
theorem RoundsBelow.mono (h : i.RoundsBelow v) (hle : w.toRat ≤ v.toRat) : i.RoundsBelow w := by
  refine ⟨h.1, ?_⟩
  rcases h.2 with hclose | ⟨htie, heven⟩
  · left
    linarith
  · rcases hle.lt_or_eq with hlt | heq
    · left
      linarith
    · right
      exact ⟨by rw [heq, htie], heven⟩

/-- If a value is rounded above a range, so is every larger one. -/
theorem RoundsAbove.mono (h : i.RoundsAbove v) (hle : v.toRat ≤ w.toRat) : i.RoundsAbove w := by
  refine ⟨h.1, ?_⟩
  rcases h.2 with hclose | ⟨htie, heven⟩
  · left
    linarith
  · rcases hle.lt_or_eq with hlt | heq
    · left
      linarith
    · right
      exact ⟨by rw [← heq, htie], heven⟩

/-- A range in order with two ends that are numbers. -/
structure Bounded (i : Interval Binary64) : Prop where
  /-- The lower end is finite. -/
  finite_lower : i.lower.isFinite = true
  /-- The upper end is finite. -/
  finite_upper : i.upper.isFinite = true
  /-- The ends are in order. -/
  le : i.lower ≤ i.upper

/-- A value of a range is rounded to an integer of it unless it is rounded below or above it. -/
theorem nearest_mem_iff (hi : i.Bounded) (hv : v.isFinite = true) (hlow : i.lower ≤ v)
    (hhigh : v ≤ i.upper) :
    i.lower ≤ v.nearest ∧ v.nearest ≤ i.upper ↔ ¬ i.RoundsBelow v ∧ ¬ i.RoundsAbove v := by
  have hnear := ne_nan_of_isFinite (nearest_exact hv).1.isFinite
  rw [← nearest_lt_lower_iff hi.finite_lower hv hlow,
    ← upper_lt_nearest_iff hi.finite_upper hv hhigh,
    not_lt_iff hnear (ne_nan_of_isFinite hi.finite_lower),
    not_lt_iff (ne_nan_of_isFinite hi.finite_upper) hnear]

/-- Every value of a range is rounded to an integer of it if its ends are. -/
theorem nearest_mem_of_ends (hi : i.Bounded) (hlower : ¬ i.RoundsBelow i.lower)
    (hupper : ¬ i.RoundsAbove i.upper) (hv : v.isFinite = true) (hlow : i.lower ≤ v)
    (hhigh : v ≤ i.upper) : i.lower ≤ v.nearest ∧ v.nearest ≤ i.upper := by
  rw [nearest_mem_iff hi hv hlow hhigh]
  constructor
  · intro h
    exact hlower (h.mono ((le_iff_toRat hi.finite_lower hv).1 hlow))
  · intro h
    exact hupper (h.mono ((le_iff_toRat hv hi.finite_upper).1 hhigh))

end Interval

/-! ## Fixing a column -/

namespace Column

variable {c : Column Binary64}

/-- A column with four finite bounds in order. -/
structure Boxed (c : Column Binary64) : Prop where
  /-- Its hard range is bounded. -/
  hard : c.hard.Bounded
  /-- Its soft range is bounded. -/
  soft : c.soft.Bounded
  /-- The hard range does not start after the soft one. -/
  lower_le : c.hard.lower ≤ c.soft.lower
  /-- The hard range does not end before the soft one. -/
  le_upper : c.soft.upper ≤ c.hard.upper

/-- The column with its soft range narrowed to one value. -/
def fixedAt (c : Column Binary64) (n : Binary64) : Column Binary64 :=
  { c with toEntity := c.fixAt n }

/-- The value of a column for a number that the relaxation gives it. -/
def valueAt (c : Column Binary64) (y : Binary64) : Binary64 := clamp c.soft.lower c.soft.upper y

/-- The value is finite and in the soft range if that is bounded. -/
theorem valueAt_mem_soft (hsoft : c.soft.Bounded) {y : Binary64} (hy : y.isFinite = true) :
    (c.valueAt y).isFinite = true ∧ c.soft.lower ≤ c.valueAt y ∧ c.valueAt y ≤ c.soft.upper := by
  refine ⟨isFinite_clamp hy (Or.inl hsoft.finite_lower) (Or.inl hsoft.finite_upper), ?_⟩
  exact clamp_mem hsoft.le (ne_nan_of_isFinite hy)

/-- A column with an index has a value if the relaxation gives it a number. -/
theorem value?_of_solution {r : Relaxation Binary64} {y : Binary64} (hindex : 0 ≤ c.index)
    (hy : r.solution[c.index.toNat]? = some y) : c.value? r = some (c.valueAt y) := by
  simp only [value?, if_neg (not_lt.2 hindex), hy, Option.map_some, valueAt]

namespace Boxed

theorem consistent (hc : c.Boxed) : c.Consistent (0.0 : Binary64) := by
  simp only [Entity.Consistent, le_add_zero_iff]
  exact ⟨hc.lower_le, hc.soft.le, hc.le_upper⟩

/-- The value of a boxed column is finite and in its soft range. -/
theorem valueAt_mem (hc : c.Boxed) {y : Binary64} (hy : y.isFinite = true) :
    (c.valueAt y).isFinite = true ∧ c.soft.lower ≤ c.valueAt y ∧ c.valueAt y ≤ c.soft.upper :=
  valueAt_mem_soft hc.soft hy

/-- A bound of the range is its own value. -/
theorem valueAt_toRat (hc : c.Boxed) {y : Binary64} (hy : y.isFinite = true)
    (hlow : c.soft.lower ≤ y) (hhigh : y ≤ c.soft.upper) : (c.valueAt y).toRat = y.toRat := by
  have hlow' := (le_iff_toRat hc.soft.finite_lower hy).1 hlow
  have hhigh' := (le_iff_toRat hy hc.soft.finite_upper).1 hhigh
  have hraised : (greater y c.soft.lower).isFinite = true := by
    rcases greater_eq_or y c.soft.lower with h | h <;> rw [h]
    · exact hy
    · exact hc.soft.finite_lower
  rw [valueAt, clamp, toRat_lesser hraised hc.soft.finite_upper,
    toRat_greater hy hc.soft.finite_lower, max_eq_left hlow', min_eq_left hhigh']

/-- The bounds of a column that is fixed stay in order exactly if its value is rounded to an integer
of the hard range. -/
theorem consistent_fixed_iff (hc : c.Boxed) {v : Binary64} (hv : v.isFinite = true)
    (hlow : c.soft.lower ≤ v) (hhigh : v ≤ c.soft.upper) :
    (c.fixedAt v.nearest).Consistent (0.0 : Binary64) ↔
      ¬ c.hard.RoundsBelow v ∧ ¬ c.hard.RoundsAbove v := by
  have hnear := le_refl_of_ne_nan (ne_nan_of_isFinite (nearest_exact hv).1.isFinite)
  rw [← Interval.nearest_mem_iff hc.hard hv (le_trans hc.lower_le hlow)
    (le_trans hhigh hc.le_upper)]
  simp only [Entity.Consistent, fixedAt, Entity.fixAt_soft, Entity.fixAt_hard, le_add_zero_iff]
  exact ⟨fun h => ⟨h.1, h.2.2⟩, fun h => ⟨h.1, hnear, h.2⟩⟩

end Boxed

end Column

/-! ## Fixing by a model -/

namespace Object

variable {c : Column Binary64} {x : Outline Binary64} {y : Binary64}

/-- A model with a tolerance that gives a column a finite value. -/
structure Values (x : Outline Binary64) (c : Column Binary64) (y : Binary64) : Prop where
  /-- The tolerance is set. -/
  tolerance : x.integerTolerance.isSome = true
  /-- The solution has a value at the index of the column. -/
  value : x.solution[c.index.toNat]? = some y
  /-- The value is finite. -/
  finite : y.isFinite = true

/-- A model fixes a column at an integer of its soft range, and its bounds stay in order. -/
def FixesInside (c : Column Binary64) (x : Outline Binary64) : Prop :=
  ∃ n : Binary64, n.IsInteger ∧ c.soft.lower ≤ n ∧ n ≤ c.soft.upper ∧
    (column c).fix (some x) = .ok (column (c.fixedAt n)) ∧
    (c.fixedAt n).Consistent (0.0 : Binary64)

/-- A model with a tolerance fixes a column at the integer nearest to its value. -/
theorem fix_eq_of_values (hindex : 0 ≤ c.index) (hx : Values x c y) :
    (column c).fix (some x) = .ok (column (c.fixedAt (c.valueAt y).nearest)) := by
  rcases Option.isSome_iff_exists.1 hx.tolerance with ⟨tolerance, htol⟩
  have hvalue := @Column.value?_of_solution c x.filled _ hindex hx.value
  have hfixed : c.fix x.filled = c.fixedAt (c.valueAt y).nearest := by
    simp only [Column.fix, hvalue]
    rfl
  rw [← hfixed]
  simp only [fix, Column.ask, Column.withParameter_of_tolerance htol]
  rfl

theorem fixesInside_iff (hc : c.Boxed) (hindex : 0 ≤ c.index) (hx : Values x c y) :
    FixesInside c x ↔
      c.soft.lower ≤ (c.valueAt y).nearest ∧ (c.valueAt y).nearest ≤ c.soft.upper := by
  rcases hc.valueAt_mem hx.finite with ⟨hfinite, hlow, hhigh⟩
  have hfix := fix_eq_of_values hindex hx
  constructor
  · rintro ⟨n, -, hn, hn', hfixed, -⟩
    have hsoft : c.fixedAt (c.valueAt y).nearest = c.fixedAt n := by
      rw [hfix] at hfixed
      injection hfixed with hfixed
      injection hfixed
    have hpoint : (c.valueAt y).nearest = n := congrArg (fun c => c.soft.lower) hsoft
    rw [hpoint]
    exact ⟨hn, hn'⟩
  · rintro ⟨hnear, hnear'⟩
    refine ⟨_, (nearest_exact hfinite).1, hnear, hnear', hfix, ?_⟩
    rw [hc.consistent_fixed_iff hfinite hlow hhigh, ← Interval.nearest_mem_iff hc.hard hfinite
      (le_trans hc.lower_le hlow) (le_trans hhigh hc.le_upper)]
    exact ⟨le_trans hc.lower_le hnear, le_trans hnear' hc.le_upper⟩

/-- Every number is the value that some model gives to a column. -/
theorem exists_values (c : Column Binary64) (hy : y.isFinite = true) : ∃ x, Values x c y := by
  refine ⟨{ Outline.ofRelaxation Relaxation.initial with
    solution := List.replicate (c.index.toNat + 1) y }, rfl, ?_, hy⟩
  simp

/-- A column of bounds in order is fixed at the integer nearest to its value.  The integer is in the
soft range, or the bounds stay in order, unless the value is rounded out of the soft range, or out
of the hard one.  All models fix the column inside its soft range exactly if neither end of that
range is rounded out of it. -/
theorem fix_boxed_iff (hc : c.Boxed) (hindex : 0 ≤ c.index) :
    (∀ x y, Values x c y → ∃ n : Binary64, n.IsInteger ∧
      (column c).fix (some x) = .ok (column (c.fixedAt n)) ∧
      (c.soft.lower ≤ n ∧ n ≤ c.soft.upper ↔
        ¬ c.soft.RoundsBelow (c.valueAt y) ∧ ¬ c.soft.RoundsAbove (c.valueAt y)) ∧
      ((c.fixedAt n).Consistent (0.0 : Binary64) ↔
        ¬ c.hard.RoundsBelow (c.valueAt y) ∧ ¬ c.hard.RoundsAbove (c.valueAt y))) ∧
    ((∀ x y, Values x c y → FixesInside c x) ↔
      ¬ c.soft.RoundsBelow c.soft.lower ∧ ¬ c.soft.RoundsAbove c.soft.upper) := by
  constructor
  · intro x y hx
    rcases hc.valueAt_mem hx.finite with ⟨hfinite, hlow, hhigh⟩
    exact ⟨_, (nearest_exact hfinite).1, fix_eq_of_values hindex hx,
      Interval.nearest_mem_iff hc.soft hfinite hlow hhigh,
      hc.consistent_fixed_iff hfinite hlow hhigh⟩
  · constructor
    · intro hinside
      have hend : ∀ y, y.isFinite = true →
          ¬ c.soft.RoundsBelow (c.valueAt y) ∧ ¬ c.soft.RoundsAbove (c.valueAt y) := by
        intro y hy
        rcases exists_values c hy with ⟨x, hx⟩
        rcases hc.valueAt_mem hy with ⟨hfinite, hlow, hhigh⟩
        rw [← Interval.nearest_mem_iff hc.soft hfinite hlow hhigh,
          ← fixesInside_iff hc hindex hx]
        exact hinside x y hx
      have hlower := le_refl_of_ne_nan (ne_nan_of_isFinite hc.soft.finite_lower)
      have hupper := le_refl_of_ne_nan (ne_nan_of_isFinite hc.soft.finite_upper)
      constructor
      · intro hrounds
        exact (hend _ hc.soft.finite_lower).1
          (hrounds.mono (hc.valueAt_toRat hc.soft.finite_lower hlower hc.soft.le).le)
      · intro hrounds
        exact (hend _ hc.soft.finite_upper).2
          (hrounds.mono (hc.valueAt_toRat hc.soft.finite_upper hc.soft.le hupper).ge)
    · rintro ⟨hlower, hupper⟩ x y hx
      rcases hc.valueAt_mem hx.finite with ⟨hfinite, hlow, hhigh⟩
      rw [fixesInside_iff hc hindex hx]
      exact Interval.nearest_mem_of_ends hc.soft hlower hupper hfinite hlow hhigh

/-- A column from one and a half to two and a half, in the first place of a model. -/
def betweenHalves : Column Binary64 :=
  { Column.initial with index := 0, hard := ⟨1.5, 2.5⟩, soft := ⟨1.5, 2.5⟩ }

/-- Both ends are halfway, and both are rounded to two. -/
theorem fixesInside_betweenHalves : betweenHalves.Boxed ∧ 0 ≤ betweenHalves.index ∧
    ∀ x y, Values x betweenHalves y → FixesInside betweenHalves x := by
  have hrange : (⟨1.5, 2.5⟩ : Interval Binary64).Bounded :=
    ⟨by decide +kernel, by decide +kernel, by decide +kernel⟩
  have hboxed : betweenHalves.Boxed := ⟨hrange, hrange, by decide +kernel, by decide +kernel⟩
  have hindex : 0 ≤ betweenHalves.index := by decide
  have hlower : ¬ betweenHalves.soft.RoundsBelow betweenHalves.soft.lower := by
    have hle : betweenHalves.soft.lower ≤ betweenHalves.soft.lower := by decide +kernel
    rw [← Interval.nearest_lt_lower_iff hboxed.soft.finite_lower hboxed.soft.finite_lower hle]
    decide +kernel
  have hupper : ¬ betweenHalves.soft.RoundsAbove betweenHalves.soft.upper := by
    have hle : betweenHalves.soft.upper ≤ betweenHalves.soft.upper := by decide +kernel
    rw [← Interval.upper_lt_nearest_iff hboxed.soft.finite_upper hboxed.soft.finite_upper hle]
    decide +kernel
  exact ⟨hboxed, hindex, (fix_boxed_iff hboxed hindex).2.2 ⟨hlower, hupper⟩⟩

/-- The fields of a column whose bounds are no integers. -/
def fractionalFields : Fields where
  hardLower := some (.real 0.4)
  hardUpper := some (.real 1.4)

/-- The column with these fields, in the first place of a model. -/
def fractional : Column Binary64 :=
  { Column.initial with index := 0, hard := ⟨0.4, 1.4⟩, soft := ⟨0.4, 1.4⟩ }

/-- A model that gives a column the value zero. -/
def zeroOutline : Outline Binary64 :=
  { Outline.ofRelaxation Relaxation.initial with solution := [0.0] }

/-- The column is built and placed without a fault, its bounds are in order, and one lies between
them; still it is fixed at zero, below its range. -/
theorem fix_fractional :
    build .column fractionalFields = .ok (column { fractional with index := Entity.unplaced }) ∧
      fractional.Boxed ∧ Values zeroOutline fractional 0.0 ∧
      fractional.soft.lower ≤ (1.0 : Binary64) ∧ (1.0 : Binary64) ≤ fractional.soft.upper ∧
      (column fractional).fix (some zeroOutline) = .ok (column (fractional.fixedAt 0.0)) ∧
      ¬ FixesInside fractional zeroOutline ∧
      ¬ (fractional.fixedAt (0.0 : Binary64)).Consistent (0.0 : Binary64) := by
  have hrange : (⟨0.4, 1.4⟩ : Interval Binary64).Bounded :=
    ⟨by decide +kernel, by decide +kernel, by decide +kernel⟩
  have hboxed : fractional.Boxed := ⟨hrange, hrange, by decide +kernel, by decide +kernel⟩
  have hindex : 0 ≤ fractional.index := by decide
  have hvalues : Values zeroOutline fractional 0.0 := ⟨rfl, rfl, by decide +kernel⟩
  have hnear : (fractional.valueAt 0.0).nearest = 0.0 := by decide +kernel
  have hfix := fix_eq_of_values hindex hvalues
  rw [hnear] at hfix
  refine ⟨rfl, hboxed, hvalues, by decide +kernel, by decide +kernel, hfix, ?_, by decide +kernel⟩
  rw [fixesInside_iff hboxed hindex hvalues, hnear]
  decide +kernel

end Object

end BranchBound
