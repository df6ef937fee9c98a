import BranchBound.Proofs.Column.Learning
import BranchBound.Proofs.Exact
import BranchBound.Proofs.Wire.RoundTrip
import Mathlib.Algebra.Order.BigOperators.Group.List

/-!
# Pseudo-costs as means

What a column keeps of the branchings in a direction is a mean that is taken along: an average and
the number of branchings behind it, from which the next average is computed.  Without rounding it is
the arithmetic mean of the unit costs of all the branchings that were counted.  The average that a
column starts with has the weight zero in it, and so the first unit cost replaces it.

As a mean it does not depend on the order of the branchings, and those in one direction do not count
for the other.

A column that is sent between two branchings is received with its averages, to the last bit of the
doubles that hold them, and goes on from there as if it had stayed.

Main results:

- Theorem `Average.observe_ofCosts`: one unit cost more in a mean.
- Theorem `Column.learn_of_costs`: what a column keeps of a run of branchings.
- Theorem `Column.learn_eq_after`: on doubles no report of such a run fails.
- Theorem `Column.learn_of_sent`: a column that is sent after a run.
- Theorem `Column.averages_exact`: the averages, their order, and sending in between.
-/

namespace BranchBound

/-! ## Means -/

/-- The arithmetic mean. -/
def mean (xs : List ℚ) : ℚ := xs.sum / xs.length

theorem mean_nonneg {xs : List ℚ} (h : ∀ x ∈ xs, 0 ≤ x) : 0 ≤ mean xs :=
  div_nonneg (List.sum_nonneg h) (Nat.cast_nonneg _)

theorem mean_perm {xs ys : List ℚ} (h : xs.Perm ys) : mean xs = mean ys := by
  rw [mean, mean, h.sum_eq, h.length_eq]

namespace Average

/-- The average of some unit costs, and the default estimate where there are none. -/
def ofCosts (xs : List ℚ) : Average ExactNumber :=
  ⟨if xs = [] then defaultEstimate else .finite (mean xs), xs.length⟩

theorem ofCosts_perm {xs ys : List ℚ} (h : xs.Perm ys) : ofCosts xs = ofCosts ys := by
  have hempty : xs = [] ↔ ys = [] := by
    rw [← List.length_eq_zero_iff, h.length_eq, List.length_eq_zero_iff]
  simp only [ofCosts, mean_perm h, h.length_eq, hempty]

/-- What is to be expected is the average, also where it is the default estimate. -/
theorem estimate_ofCosts (xs : List ℚ) : (ofCosts xs).estimate = (ofCosts xs).cost := by
  unfold estimate
  split
  · rename_i hcount
    have hnil : xs = [] := List.length_eq_zero_iff.1 (Int.natCast_eq_zero.1 hcount)
    rw [hnil]
    rfl
  · rfl

/-- Whether an average is the mean of some unit costs, and what is to be expected along with it. -/
structure IsMean (a : Average ExactNumber) (xs : List ℚ) : Prop where
  /-- The number of observations is that of the unit costs. -/
  count : a.count = xs.length
  /-- The average is their mean. -/
  cost : xs ≠ [] → a.cost = .finite (mean xs)
  /-- So is what is to be expected. -/
  estimate : xs ≠ [] → a.estimate = .finite (mean xs)
  /-- Without an observation the default estimate is to be expected. -/
  default : xs = [] → a.estimate = defaultEstimate
  /-- The average is not negative. -/
  nonneg : 0.0 ≤ a.cost

theorem isMean_ofCosts {xs : List ℚ} (h : ∀ x ∈ xs, 0 ≤ x) : (ofCosts xs).IsMean xs where
  count := rfl
  cost hne := if_neg hne
  estimate hne := (estimate_ofCosts xs).trans (if_neg hne)
  default hnil := (estimate_ofCosts xs).trans (if_pos hnil)
  nonneg := by
    unfold ofCosts
    dsimp only
    split
    · decide +kernel
    · rw [ExactNumber.zero_eq, ExactNumber.finite_le_finite]
      exact mean_nonneg h

/-- The average has the weight of its number in the next one; the default estimate has none. -/
theorem cost_mul_count (xs : List ℚ) :
    (ofCosts xs).cost * NumberSystem.ofInt (ofCosts xs).count = .finite xs.sum := by
  unfold ofCosts
  dsimp only
  split
  · rename_i hnil
    rw [hnil]
    decide +kernel
  · rename_i hne
    have hlength : (xs.length : ℚ) ≠ 0 := by
      rw [Nat.cast_ne_zero]
      exact (List.length_pos_iff.2 hne).ne'
    rw [ExactNumber.ofInt_eq, ExactNumber.finite_mul, Int.cast_natCast, mean,
      div_mul_cancel₀ _ hlength]

/-- One unit cost more is one term more in the mean. -/
theorem observe_ofCosts (xs : List ℚ) (x : ℚ) :
    (ofCosts xs).observe (.finite x) = .ok (ofCosts (xs ++ [x])) := by
  have hcount : (ofCosts xs).count + 1 = ((xs ++ [x]).length : ℤ) := by
    rw [List.length_append, List.length_singleton, Nat.cast_add, Nat.cast_one]
    rfl
  have hlength : ((xs ++ [x]).length : ℤ) ≠ 0 := by
    rw [Int.natCast_ne_zero, List.length_append, List.length_singleton]
    omega
  have hdivisor : (((xs ++ [x]).length : ℤ) : ℚ) ≠ 0 := Int.cast_ne_zero.2 hlength
  have hne : xs ++ [x] ≠ [] := List.concat_ne_nil x xs
  rw [observe, hcount, if_neg hlength, cost_mul_count, ExactNumber.finite_add,
    ExactNumber.ofInt_eq, ExactNumber.finite_div hdivisor, ofCosts, if_neg hne, mean,
    List.sum_append, List.sum_singleton, Int.cast_natCast]

end Average

/-! ## Reports without rounding -/

/-- A branching that is reported with numbers that were never rounded. -/
structure Trial where
  /-- The direction of the branching. -/
  direction : Direction
  /-- How much the objective improved. -/
  improvement : ℚ
  /-- The distance that the bound was moved by. -/
  distance : ℚ

namespace Trial

/-- The change of the objective for the worse, for a unit of distance. -/
def unitCost (o : Trial) : ℚ := max 0 o.improvement / o.distance

/-- What a report tells a column that computes without rounding. -/
def call (o : Trial) : Direction × ExactNumber × ExactNumber :=
  (o.direction, .finite o.improvement, .finite o.distance)

/-- Whether a branching is counted for a direction. -/
def CountsFor (o : Trial) (direction : Direction) : Prop :=
  o.direction = direction ∧ 1e-6 < o.distance

instance (o : Trial) (direction : Direction) : Decidable (o.CountsFor direction) :=
  inferInstanceAs (Decidable (_ ∧ _))

/-- The unit costs of the branchings that are counted for a direction. -/
def unitCosts (os : List Trial) (direction : Direction) : List ℚ :=
  (os.filter fun o => o.CountsFor direction).map unitCost

theorem unitCosts_nonneg (os : List Trial) (direction : Direction) :
    ∀ x ∈ unitCosts os direction, 0 ≤ x := by
  intro x hx
  rcases List.mem_map.1 hx with ⟨o, ho, rfl⟩
  have hcounts : o.CountsFor direction := of_decide_eq_true (List.mem_filter.1 ho).2
  have hshort : (0 : ℚ) < 1e-6 := by norm_num
  exact div_nonneg (le_max_left _ _) (hshort.trans hcounts.2).le

theorem unitCosts_perm {os os' : List Trial} (h : os'.Perm os) (direction : Direction) :
    (unitCosts os' direction).Perm (unitCosts os direction) :=
  (h.filter _).map _

theorem unitCosts_concat (os : List Trial) (o : Trial) (direction : Direction) :
    unitCosts (os ++ [o]) direction =
      if o.CountsFor direction then unitCosts os direction ++ [o.unitCost]
      else unitCosts os direction := by
  rw [unitCosts, List.filter_append, List.map_append]
  split
  · rename_i hcounts
    simp [unitCosts, hcounts]
  · rename_i hnot
    simp [unitCosts, hnot]

end Trial

namespace PseudoCosts

open Trial

/-- The pseudo-costs of the branchings that were reported. -/
def ofTrials (os : List Trial) : PseudoCosts ExactNumber :=
  ⟨.ofCosts (unitCosts os .down), .ofCosts (unitCosts os .up)⟩

theorem of_ofTrials (os : List Trial) (direction : Direction) :
    (ofTrials os).of direction = .ofCosts (unitCosts os direction) := by
  cases direction <;> rfl

/-- Only the unit costs of either direction matter, and not their order. -/
theorem ofTrials_congr {os os' : List Trial}
    (h : ∀ direction, (unitCosts os' direction).Perm (unitCosts os direction)) :
    ofTrials os' = ofTrials os := by
  rw [ofTrials, ofTrials, Average.ofCosts_perm (h .down), Average.ofCosts_perm (h .up)]

theorem unitCost_eq (o : Trial) (h : o.distance ≠ 0) :
    greater 0.0 (.finite o.improvement) / .finite o.distance = ExactNumber.finite o.unitCost := by
  rw [ExactNumber.zero_eq, ExactNumber.greater_finite, ExactNumber.finite_div h]
  rfl

/-- A report adds its unit cost to those of its direction, if it is counted. -/
theorem observe_ofTrials (os : List Trial) (o : Trial) :
    (ofTrials os).observe o.direction (.finite o.improvement) (.finite o.distance) =
      .ok (ofTrials (os ++ [o])) := by
  have hshort : (.finite o.distance ≤ (shortDistance : ExactNumber)) ↔ o.distance ≤ 1e-6 :=
    ExactNumber.finite_le_finite
  by_cases hle : o.distance ≤ 1e-6
  · have hnone (direction : Direction) :
        unitCosts (os ++ [o]) direction = unitCosts os direction := by
      rw [unitCosts_concat, if_neg fun hcounts => hle.not_gt hcounts.2]
    rw [observe_of_short (hshort.2 hle), ofTrials, ofTrials, hnone, hnone]
  · have hpos : (0 : ℚ) < 1e-6 := by norm_num
    have hne : o.distance ≠ 0 := (hpos.trans (not_le.1 hle)).ne'
    have hcounts (direction : Direction) : o.CountsFor direction ↔ o.direction = direction :=
      and_iff_left (not_le.1 hle)
    rw [observe, if_neg (mt hshort.1 hle), unitCost_eq o hne, of_ofTrials,
      Average.observe_ofCosts]
    simp only [ofTrials, unitCosts_concat, hcounts]
    cases o.direction <;> rfl

end PseudoCosts

namespace Column

/-! ## A run of reports -/

/-- The column after some branchings were reported to it, each with its direction, the change of
the objective and its distance. -/
def learn {N : Type} [NumberSystem N] (c : Column N) (calls : List (Direction × N × N)) :
    Except Fault (Column N) :=
  calls.foldlM (fun c call => c.observe call.1 call.2.1 call.2.2) c

section

variable {N : Type} [NumberSystem N] {c c' : Column N} {direction : Direction}
  {improvement distance : N} {calls : List (Direction × N × N)}

/-- The first report is taken up before the others. -/
theorem learn_cons (h : c.observe direction improvement distance = .ok c')
    (calls : List (Direction × N × N)) :
    c.learn ((direction, improvement, distance) :: calls) = c'.learn calls := by
  rw [learn, List.foldlM_cons, h]
  rfl

/-- A run goes on from where it has got to. -/
theorem learn_append (h : c.learn calls = .ok c') (rest : List (Direction × N × N)) :
    c.learn (calls ++ rest) = c'.learn rest := by
  unfold learn at h ⊢
  rw [List.foldlM_append, h]
  rfl

end

/-- What a column keeps of a run of reports are the averages of the unit costs. -/
theorem learn_of_costs {c : Column ExactNumber} {before : List Trial}
    (h : c.costs = .ofTrials before) (os : List Trial) :
    c.learn (os.map Trial.call) = .ok { c with costs := .ofTrials (before ++ os) } := by
  induction os generalizing c before with
  | nil =>
    rw [List.append_nil, ← h]
    rfl
  | cons o os ih =>
    have hstep : c.observe o.direction (.finite o.improvement) (.finite o.distance) =
        .ok { c with costs := .ofTrials (before ++ [o]) } := by
      rw [observe, h, PseudoCosts.observe_ofTrials]
    rw [List.map_cons, Trial.call, learn_cons hstep, ih rfl, List.append_assoc,
      List.singleton_append]

/-- A column that has had no reports before keeps those of the run alone. -/
theorem learn_of_initial {c : Column ExactNumber} (h : c.costs = .initial) (os : List Trial) :
    c.learn (os.map Trial.call) = .ok { c with costs := .ofTrials os } := by
  have hnone : c.costs = .ofTrials [] := h
  exact learn_of_costs hnone os

/-- Runs with the same unit costs for each direction teach such a column the same. -/
theorem learn_congr {c : Column ExactNumber} (h : c.costs = .initial) {os os' : List Trial}
    (hperm : ∀ direction, (Trial.unitCosts os' direction).Perm (Trial.unitCosts os direction)) :
    c.learn (os'.map Trial.call) = c.learn (os.map Trial.call) := by
  rw [learn_of_initial h, learn_of_initial h, PseudoCosts.ofTrials_congr hperm]

end Column

/-! ## Sending in between -/

/-- What a report tells a column that computes with doubles. -/
def Observation.call (o : Observation) : Direction × Binary64 × Binary64 :=
  (o.direction, o.improvement, o.distance)

namespace Column

/-- A run of reports to a column whose numbers are not negative does not fail. -/
theorem learn_eq_after {c : Column Binary64} (hcount : ∀ direction, 0 ≤ c.count direction)
    (os : List Observation) : c.learn (os.map Observation.call) = .ok (c.after os) := by
  induction os generalizing c with
  | nil => rfl
  | cons o os ih =>
    have hstep : c.observe o.direction o.improvement o.distance = .ok (c.note o) := by
      unfold note
      split
      · assumption
      · rename_i e herror
        have hminus := (observe_eq_error_iff.1 herror).2.2
        have hnonneg := hcount o.direction
        omega
    have hcount' (direction : Direction) : 0 ≤ (c.note o).count direction := by
      have hle := count_le_of_observe hstep direction
      have hnonneg := hcount direction
      omega
    rw [List.map_cons, Observation.call, learn_cons hstep, ih hcount']
    rfl

theorem count_of_initial {c : Column Binary64} (h : c.costs = .initial) (direction : Direction) :
    c.count direction = 0 := by
  rw [count, h]
  cases direction <;> rfl

/-- The numbers of a column that has had no reports before are those of the reports. -/
theorem count_after_of_initial {c : Column Binary64} (h : c.costs = .initial)
    (os : List Observation) (direction : Direction) :
    (c.after os).count direction = reports os direction := by
  rw [count_after, count_of_initial h, grown, if_pos le_rfl, zero_add]

theorem toEntity_note (c : Column Binary64) (o : Observation) :
    (c.note o).toEntity = c.toEntity := by
  unfold note
  split
  · rename_i hobserve
    exact toEntity_of_observe hobserve
  · rfl

theorem toEntity_after (c : Column Binary64) (os : List Observation) :
    (c.after os).toEntity = c.toEntity := by
  induction os generalizing c with
  | nil => rfl
  | cons o os ih => exact (ih (c.note o)).trans (toEntity_note c o)

/-- A column that has had some reports is sent exactly if its index and the numbers of the reports
have 32 bits. -/
theorem fits_after_iff {c : Column Binary64} (h : c.costs = .initial) (os : List Observation) :
    (c.after os).Fits ↔
      Wire.Fits c.index ∧ ∀ direction, Wire.Fits (reports os direction) := by
  have hcount := count_after_of_initial h os
  have hindex : (c.after os).index = c.index := congrArg Entity.index (toEntity_after c os)
  constructor
  · intro hfits
    refine ⟨hindex ▸ hfits.index, fun direction => ?_⟩
    rw [← hcount]
    cases direction with
    | down => exact hfits.down
    | up => exact hfits.up
  · rintro ⟨hplace, hnumbers⟩
    have hfits (direction : Direction) : Wire.Fits ((c.after os).count direction) :=
      (hcount direction).symm ▸ hnumbers direction
    exact ⟨hindex.symm ▸ hplace, hfits .down, hfits .up⟩

/-- A column that is sent after a run is received as it was, and learns from there on what follows
the run. -/
theorem learn_of_sent {c c' : Column Binary64} {calls : List (Direction × Binary64 × Binary64)}
    (hlearn : c.learn calls = .ok c') {sent : Buffer}
    (hsent : (Knowledge.object (.column c')).toBuffer = .ok sent)
    (rest : List (Direction × Binary64 × Binary64)) :
    ∃ c'' left, Registry.initial.decodeFrame sent.frame = .ok (.object (.column c''), left) ∧
      c''.learn rest = c.learn (calls ++ rest) := by
  have hfits : (Knowledge.object (.column c')).Fits :=
    Knowledge.exists_toBuffer_column_iff.1 ⟨sent, hsent⟩
  rcases Knowledge.decodeFrame_frame hfits with ⟨sent', left, hsent', hreceived, -⟩
  rw [hsent] at hsent'
  cases hsent'
  exact ⟨c', left, hreceived, (learn_append hlearn rest).symm⟩

/-- Without rounding a column that has had no reports before takes up every run of reports.  It then
has for each direction the mean of the unit costs of the reports that were counted for it, as many
of them as these, and the default estimate only where there are none.  Reports in another order, or
others with the same unit costs for each direction, make the same column of it.

On doubles no report fails either.  In between a column can be sent exactly if its index and its
numbers have 32 bits; and the column that is received becomes by the reports that follow what the
column itself becomes. -/
theorem averages_exact :
    (∀ (c : Column ExactNumber) (os : List Trial), c.costs = .initial →
      (∃ c', c.learn (os.map Trial.call) = .ok c' ∧ c'.toEntity = c.toEntity ∧
        ∀ direction, (c'.costs.of direction).IsMean (Trial.unitCosts os direction)) ∧
      ∀ os' : List Trial,
        (os'.Perm os → c.learn (os'.map Trial.call) = c.learn (os.map Trial.call)) ∧
        ((∀ direction,
            (Trial.unitCosts os' direction).Perm (Trial.unitCosts os direction)) →
          c.learn (os'.map Trial.call) = c.learn (os.map Trial.call))) ∧
    ∀ (c : Column Binary64) (before rest : List Observation), c.costs = .initial →
      ∃ c', c.learn (before.map Observation.call) = .ok c' ∧
        ((∃ sent, (Knowledge.object (.column c')).toBuffer = .ok sent) ↔
          Wire.Fits c.index ∧ ∀ direction, Wire.Fits (reports before direction)) ∧
        ∀ sent, (Knowledge.object (.column c')).toBuffer = .ok sent →
          ∃ c'' left, Registry.initial.decodeFrame sent.frame = .ok (.object (.column c''), left) ∧
            c''.learn (rest.map Observation.call) =
              c.learn ((before ++ rest).map Observation.call) := by
  constructor
  · intro c os hcosts
    refine ⟨⟨_, learn_of_initial hcosts os, rfl, fun direction => ?_⟩, fun os' => ?_⟩
    · rw [PseudoCosts.of_ofTrials]
      exact Average.isMean_ofCosts (Trial.unitCosts_nonneg os direction)
    · exact ⟨fun hperm => learn_congr hcosts (Trial.unitCosts_perm hperm), learn_congr hcosts⟩
  · intro c before rest hcosts
    have hlearn := learn_eq_after (fun direction => (count_of_initial hcosts direction).ge) before
    refine ⟨_, hlearn, ?_, fun sent hsent => ?_⟩
    · rw [Knowledge.exists_toBuffer_column_iff, fits_after_iff hcosts]
    · rw [List.map_append]
      exact learn_of_sent hlearn hsent _

/-- Branchings in both directions; one of them is too short to be counted. -/
def interleaved : List Trial :=
  [⟨.down, 6, 2⟩, ⟨.up, -1, 1⟩, ⟨.down, 5, 0⟩, ⟨.down, 1, 1 / 2⟩]

/-- Downwards the mean is that of three and two, upwards it is zero; and so it is in the opposite
order.  A column on doubles is sent after one branching and learns of another one. -/
theorem averages_exact_interleaved :
    (∃ c' : Column ExactNumber,
      learn ⟨.free, .initial⟩ (interleaved.map Trial.call) = .ok c' ∧
        (c'.costs.of .down).count = 2 ∧ (c'.costs.of .down).estimate = .finite (5 / 2) ∧
        (c'.costs.of .up).count = 1 ∧ (c'.costs.of .up).estimate = .finite 0 ∧
        learn ⟨.free, .initial⟩ (interleaved.reverse.map Trial.call) = .ok c') ∧
    ∃ (c' c'' : Column Binary64) (sent left : Buffer),
      initial.learn [(.down, 1.0, 0.5)] = .ok c' ∧
        (Knowledge.object (.column c')).toBuffer = .ok sent ∧
        Registry.initial.decodeFrame sent.frame = .ok (.object (.column c''), left) ∧
        c''.learn [(.up, 3.0, 2.0)] = initial.learn [(.down, 1.0, 0.5), (.up, 3.0, 2.0)] := by
  have hdown : Trial.unitCosts interleaved .down = [3, 2] := by decide +kernel
  have hup : Trial.unitCosts interleaved .up = [0] := by decide +kernel
  have hmean : mean [3, 2] = 5 / 2 := by norm_num [mean]
  have hzero : mean [0] = 0 := by norm_num [mean]
  constructor
  · rcases averages_exact.1 ⟨.free, .initial⟩ interleaved rfl with ⟨⟨c', hlearn, -, hmeans⟩, hsame⟩
    have hmeanDown := hmeans .down
    have hmeanUp := hmeans .up
    rw [hdown] at hmeanDown
    rw [hup] at hmeanUp
    refine ⟨c', hlearn, hmeanDown.count, ?_, hmeanUp.count, ?_, ?_⟩
    · rw [hmeanDown.estimate (List.cons_ne_nil _ _), hmean]
    · rw [hmeanUp.estimate (List.cons_ne_nil _ _), hzero]
    · rw [(hsame interleaved.reverse).1 (List.reverse_perm _), hlearn]
  · rcases averages_exact.2 initial [⟨.down, 1.0, 0.5⟩] [⟨.up, 3.0, 2.0⟩] rfl with
      ⟨c', hlearn, hsends, hreceived⟩
    have hnumbers (direction : Direction) :
        Wire.Fits (reports [⟨.down, 1.0, 0.5⟩] direction) := by
      cases direction <;> decide +kernel
    rcases hsends.2 ⟨by decide, hnumbers⟩ with ⟨sent, hsent⟩
    rcases hreceived sent hsent with ⟨c'', left, hframe, hrest⟩
    exact ⟨c', c'', sent, left, hlearn, hsent, hframe, hrest⟩

end Column

end BranchBound
