import BranchBound.Object.Build
import BranchBound.Object.Search
import BranchBound.Proofs.Binary64.Value
import BranchBound.Proofs.Wire.Record

/-!
# What a column learns of branchings

Every branching that is reported to a column with more than a short distance goes into the average
of its direction, and the number of branchings of that average grows by one.  The new average is
taken over the new number, which must not be zero.

The numbers of a column that is built start at zero.  Those of a column that is read are sent, as
any integers of 32 bits, and nothing keeps them from being negative.  A number that was sent as
minus one can never grow, and the report of another branching in this direction fails; a number
below gets as far as minus one and then stays there.

Main results:

- Theorem `Column.observe_eq_error_iff`: which reports fail.
- Theorem `Column.count_after`: the numbers after a run of reports.
- Theorem `Column.learns_after_iff`: a column that was built or read can learn, after any run of
  reports, exactly if its number did not start out negative.
-/

namespace BranchBound

open Binary64

/-! ## Averages of a direction -/

namespace PseudoCosts

variable {N : Type} {direction other : Direction}

@[simp] theorem of_put_self (p : PseudoCosts N) (a : Average N) :
    (p.put a direction).of direction = a := by
  cases direction <;> rfl

theorem of_put_of_ne (p : PseudoCosts N) (a : Average N) (h : other ≠ direction) :
    (p.put a direction).of other = p.of other := by
  cases direction <;> cases other <;> first | rfl | exact absurd rfl h

end PseudoCosts

/-- A branching that is reported to a column. -/
structure Observation where
  /-- The direction of the branching. -/
  direction : Direction
  /-- How much the objective improved. -/
  improvement : Binary64
  /-- The distance that the bound was moved by. -/
  distance : Binary64

/-- Whether a branching goes into the average of a direction. -/
def Observation.CountsFor (o : Observation) (direction : Direction) : Prop :=
  o.direction = direction ∧ ¬ o.distance ≤ PseudoCosts.shortDistance

instance (o : Observation) (direction : Direction) : Decidable (o.CountsFor direction) :=
  inferInstanceAs (Decidable (_ ∧ _))

namespace Column

variable {c c' : Column Binary64} {direction other : Direction} {improvement distance : Binary64}

/-- The number of branchings that the average of a direction was taken over. -/
def count (c : Column Binary64) (direction : Direction) : Int := (c.costs.of direction).count

/-! ## One report -/

theorem observe_of_short (h : distance ≤ PseudoCosts.shortDistance) :
    c.observe direction improvement distance = .ok c := by
  rw [observe, PseudoCosts.observe_of_short h]

/-- An average cannot be taken over no branchings. -/
theorem observe_of_count_eq (h : ¬ distance ≤ PseudoCosts.shortDistance)
    (hminus : c.count direction = -1) :
    c.observe direction improvement distance = .error .divisionByZero := by
  rw [count] at hminus
  rw [observe, PseudoCosts.observe, if_neg h, Average.observe, if_pos (by omega)]

/-- A report that counts goes into the average of its direction, and changes nothing else. -/
theorem exists_observe (h : ¬ distance ≤ PseudoCosts.shortDistance)
    (hminus : c.count direction ≠ -1) (improvement : Binary64) :
    ∃ c', c.observe direction improvement distance = .ok c' ∧ c'.toEntity = c.toEntity ∧
      c'.count direction = c.count direction + 1 ∧
      ∀ other, other ≠ direction → c'.costs.of other = c.costs.of other := by
  rw [count] at hminus
  rw [observe, PseudoCosts.observe, if_neg h, Average.observe, if_neg (by omega)]
  refine ⟨_, rfl, rfl, ?_, fun other hother => PseudoCosts.of_put_of_ne _ _ hother⟩
  rw [count, PseudoCosts.of_put_self]
  rfl

/-- A report fails exactly if it counts and the number of its direction is minus one. -/
theorem observe_eq_error_iff {e : Fault} :
    c.observe direction improvement distance = .error e ↔
      e = .divisionByZero ∧ ¬ distance ≤ PseudoCosts.shortDistance ∧ c.count direction = -1 := by
  by_cases hshort : distance ≤ PseudoCosts.shortDistance
  · rw [observe_of_short hshort]
    constructor
    · intro h
      cases h
    · rintro ⟨-, hlong, -⟩
      exact absurd hshort hlong
  · by_cases hminus : c.count direction = -1
    · rw [observe_of_count_eq hshort hminus, Except.error.injEq, eq_comm]
      exact (and_iff_left ⟨hshort, hminus⟩).symm
    · rcases exists_observe hshort hminus improvement with ⟨c', hc', -⟩
      rw [hc']
      constructor
      · intro h
        cases h
      · rintro ⟨-, -, hminus'⟩
        exact absurd hminus' hminus

/-- No number gets smaller by a report. -/
theorem count_le_of_observe (h : c.observe direction improvement distance = .ok c')
    (other : Direction) : c.count other ≤ c'.count other := by
  by_cases hshort : distance ≤ PseudoCosts.shortDistance
  · rw [observe_of_short hshort] at h
    cases h
    exact le_rfl
  · by_cases hminus : c.count direction = -1
    · rw [observe_of_count_eq hshort hminus] at h
      cases h
    · rcases exists_observe hshort hminus improvement with ⟨c'', hc'', -, hcount, hother⟩
      rw [hc''] at h
      cases h
      by_cases hdirection : other = direction
      · rw [hdirection, hcount]
        omega
      · exact (congrArg Average.count (hother other hdirection)).ge

/-! ## A run of reports -/

/-- The column after a report; a report that fails leaves it. -/
def note (c : Column Binary64) (o : Observation) : Column Binary64 :=
  match c.observe o.direction o.improvement o.distance with
  | .ok c' => c'
  | .error _ => c

/-- The column after a run of reports. -/
def after (c : Column Binary64) (os : List Observation) : Column Binary64 := os.foldl note c

/-- How many reports go into the average of a direction. -/
def reports (os : List Observation) (direction : Direction) : Nat :=
  os.countP fun o => o.CountsFor direction

/-- What a number becomes that grows by one with every report: one that starts out negative does not
get past minus one. -/
def grown (start : Int) (reports : Nat) : Int :=
  if 0 ≤ start then start + reports else min (start + reports) (-1)

/-- A report adds one to the number of its direction, unless that is minus one. -/
theorem count_note (c : Column Binary64) (o : Observation) (direction : Direction) :
    (c.note o).count direction =
      if o.CountsFor direction ∧ c.count direction ≠ -1 then c.count direction + 1
      else c.count direction := by
  unfold note
  by_cases hshort : o.distance ≤ PseudoCosts.shortDistance
  · rw [observe_of_short hshort, if_neg fun h => h.1.2 hshort]
  · by_cases hminus : c.count o.direction = -1
    · rw [observe_of_count_eq hshort hminus, if_neg]
      rintro ⟨⟨rfl, -⟩, hminus'⟩
      exact hminus' hminus
    · rcases exists_observe hshort hminus o.improvement with ⟨c', hc', -, hcount, hother⟩
      rw [hc']
      by_cases hdirection : o.direction = direction
      · subst hdirection
        rw [if_pos ⟨⟨rfl, hshort⟩, hminus⟩]
        exact hcount
      · rw [if_neg fun h => hdirection h.1.1]
        exact congrArg Average.count (hother direction (Ne.symm hdirection))

/-- The number of a direction after a run of reports. -/
theorem count_after (c : Column Binary64) (os : List Observation) (direction : Direction) :
    (c.after os).count direction = grown (c.count direction) (reports os direction) := by
  induction os generalizing c with
  | nil =>
    simp only [after, reports, grown, List.foldl_nil, List.countP_nil]
    split <;> omega
  | cons o os ih =>
    have hstep := count_note c o direction
    have hrest := ih (c.note o)
    rw [show c.after (o :: os) = (c.note o).after os from rfl, hrest, hstep]
    simp only [reports, grown, List.countP_cons, decide_eq_true_eq]
    by_cases hcounts : o.CountsFor direction
    · by_cases hminus : c.count direction = -1
      · simp only [hcounts, hminus, true_and, ne_eq, not_true_eq_false, if_false, if_true]
        split <;> omega
      · simp only [hcounts, hminus, true_and, ne_eq, not_false_eq_true, if_true]
        split <;> split <;> omega
    · simp only [hcounts, false_and, if_false]
      rfl

theorem grown_nonneg_iff {start : Int} {reports : Nat} : 0 ≤ grown start reports ↔ 0 ≤ start := by
  unfold grown
  split <;> omega

end Column

/-! ## Where columns come from -/

/-- A column that is built has no branchings behind it. -/
theorem Object.column_of_build {f : Fields} {o : Object} (h : build .column f = .ok o) :
    ∃ c, o = column c ∧ c.costs = .initial := by
  unfold build at h
  split at h
  · rcases exists_of_bind_eq_ok h with ⟨e, -, hdone⟩
    cases hdone
    exact ⟨_, rfl, rfl⟩
  · cases h

namespace Column

variable {c : Column Binary64}

/-- The number of a direction among the bytes of a column, as it was sent: the header is followed by
the two averages, and these by the two numbers. -/
def sentCount (bs : List UInt8) : Direction → Int
  | .down => Wire.decodeInt ((bs.drop 69).take 4)
  | .up => Wire.decodeInt ((bs.drop 73).take 4)

/-- A column that bytes stand for has the numbers that were sent. -/
theorem sentCount_eq {bs : List UInt8} (h : grammar bs c) (rest : List UInt8)
    (direction : Direction) : sentCount (bs ++ rest) direction = c.count direction := by
  rcases h with ⟨front, costs, hheader, heach, hdown, hup, rfl⟩
  have hcosts : costs.length = 16 := ((Grammar.each_iff fun _ _ => Iff.rfl).1 heach).1
  have hfront : (front ++ costs).length = 69 := by
    rw [List.length_append, Grammar.length_header hheader, hcosts]
  have hback : (front ++ costs ++ Wire.encodeInt c.costs.down.count).length = 73 := by
    rw [List.length_append, hfront, Wire.length_encodeInt]
  cases direction with
  | down =>
    simp only [sentCount, countBytes, ← List.append_assoc front]
    simp only [List.append_assoc (front ++ costs), List.append_assoc (Wire.encodeInt _)]
    rw [List.drop_left' hfront, List.take_left' (Wire.length_encodeInt _),
      Wire.decodeInt_encodeInt hdown]
    rfl
  | up =>
    simp only [sentCount, countBytes, ← List.append_assoc]
    rw [List.append_assoc _ (Wire.encodeInt c.costs.up.count), List.drop_left' hback,
      List.take_left' (Wire.length_encodeInt _), Wire.decodeInt_encodeInt hup]
    rfl

/-- What a column is made from: fields, or the bytes that come next in a buffer. -/
inductive Origin where
  /-- A column is built from fields. -/
  | fields (f : Fields)
  /-- A column is read from a buffer. -/
  | buffer (b : Buffer)

namespace Origin

/-- Whether a column is what is made from an origin. -/
def Gives : Origin → Column Binary64 → Prop
  | fields f, c => Object.build .column f = .ok (.column c)
  | buffer b, c => b.cursor ≤ b.size ∧ ∃ b', decode.run b = (.ok c, b')

/-- Every column that can be sent is read from its record. -/
theorem gives_record (h : c.Fits) : (buffer { bytes := c.record }).Gives c := by
  have hunread : ({ bytes := c.record } : Buffer).unread = c.record ++ [] :=
    (List.append_nil _).symm
  exact ⟨Nat.zero_le _, _, reads_decode.complete (Nat.zero_le _) hunread (grammar_record h)⟩

/-- The number that the average of a direction starts with. -/
def start : Origin → Direction → Int
  | fields _, _ => 0
  | buffer b, direction => sentCount b.unread direction

/-- A column that was built or read has the numbers of its origin. -/
theorem count_eq {origin : Origin} (h : origin.Gives c) (direction : Direction) :
    c.count direction = origin.start direction := by
  cases origin with
  | fields f =>
    rcases Object.column_of_build h with ⟨c', hc, hcosts⟩
    cases hc
    rw [count, hcosts]
    cases direction <;> rfl
  | buffer b =>
    rcases h with ⟨hb, b', hrun⟩
    rcases reads_decode.sound hb hrun with ⟨bs, rest, hnext, hcolumn, -⟩
    rw [start, hnext, sentCount_eq hcolumn]

end Origin

end Column

/-! ## Learning -/

namespace Object

variable {c : Column Binary64} {direction : Direction}

/-- A report of numbers to a column is the report to the object. -/
theorem observe_real (c : Column Binary64) (direction : Direction)
    (improvement distance : Binary64) :
    (column c).observe direction (.real improvement) (.real distance) =
      (c.observe direction improvement distance).map column := by
  have hobserve : (column c).observe direction (.real improvement) (.real distance) =
      if distance ≤ PseudoCosts.shortDistance then .ok (column c)
      else (c.observe direction improvement distance).map column := by
    simp only [observe, Datum.toReal_real, bind, Except.bind]
    split
    · rfl
    · cases c.observe direction improvement distance <;> rfl
  rw [hobserve]
  split
  · rename_i hshort
    rw [Column.observe_of_short hshort]
    rfl
  · rfl

/-- What a column becomes by a report of any values. -/
theorem observe_cases {improvement distance : Datum} {o : Object}
    (h : (column c).observe direction improvement distance = .ok o) :
    o = column c ∨ ∃ i x c', c.observe direction i x = .ok c' ∧ o = column c' := by
  rcases exists_of_bind_eq_ok h with ⟨x, -, hrest⟩
  split at hrest
  · cases hrest
    exact Or.inl rfl
  · rcases exists_of_bind_eq_ok hrest with ⟨i, -, hrest⟩
    rcases exists_of_bind_eq_ok hrest with ⟨c', hc', hdone⟩
    cases hdone
    exact Or.inr ⟨i, x, c', hc', rfl⟩

/-- A report fails exactly if the report to the column does. -/
theorem observe_real_eq_error_iff {improvement distance : Binary64} {e : Fault} :
    (column c).observe direction (.real improvement) (.real distance) = .error e ↔
      c.observe direction improvement distance = .error e := by
  rw [observe_real]
  cases c.observe direction improvement distance <;> simp [Except.map]

end Object

namespace Column

variable {c : Column Binary64} {direction : Direction}

/-- No report of finite numbers for a direction fails, and one with more than a short distance adds
one to the number of this direction, which becomes positive, and leaves the other average. -/
def Learns (c : Column Binary64) (direction : Direction) : Prop :=
  ∀ improvement distance : Binary64, improvement.isFinite = true → distance.isFinite = true →
    ∃ c' : Column Binary64,
      (Object.column c).observe direction (.real improvement) (.real distance) =
        .ok (.column c') ∧
      (PseudoCosts.shortDistance < distance →
        c'.count direction = c.count direction + 1 ∧ 1 ≤ c'.count direction ∧
          ∀ other, other ≠ direction → c'.costs.of other = c.costs.of other)

/-- A column learns of a direction exactly if its number is not negative. -/
theorem learns_iff : c.Learns direction ↔ 0 ≤ c.count direction := by
  have hshort : (PseudoCosts.shortDistance : Binary64).isFinite = true := by decide +kernel
  constructor
  · intro hlearns
    have hone : (1.0 : Binary64).isFinite = true := by decide +kernel
    rcases hlearns 1.0 1.0 hone hone with ⟨c', -, hcounted⟩
    rcases hcounted (by decide +kernel) with ⟨hcount, hpos, -⟩
    omega
  · intro hnonneg improvement distance himprovement hdistance
    rw [Object.observe_real]
    by_cases hle : distance ≤ PseudoCosts.shortDistance
    · refine ⟨c, by rw [observe_of_short hle]; rfl, fun hlt => absurd hlt ?_⟩
      exact (not_lt_iff (ne_nan_of_isFinite hshort) (ne_nan_of_isFinite hdistance)).2 hle
    · have hminus : c.count direction ≠ -1 := by omega
      rcases exists_observe hle hminus improvement with ⟨c', hc', -, hcount, hother⟩
      exact ⟨c', by rw [hc']; rfl, fun _ => ⟨hcount, by omega, hother⟩⟩

/-- A column that was built, or read with the numbers that were sent, has after any run of reports
the number of every direction grown by those that count.  It learns of a direction exactly if this
number did not start out negative; and a report fails, by a division by zero, exactly if it counts
and the number has got to minus one. -/
theorem learns_after_iff {origin : Origin} (h : origin.Gives c) (os : List Observation)
    (direction : Direction) :
    (c.after os).count direction = grown (origin.start direction) (reports os direction) ∧
      ((c.after os).Learns direction ↔ 0 ≤ origin.start direction) ∧
      ∀ (improvement distance : Binary64) (e : Fault),
        (Object.column (c.after os)).observe direction (.real improvement) (.real distance) =
          .error e ↔
        e = .divisionByZero ∧ ¬ distance ≤ PseudoCosts.shortDistance ∧
          grown (origin.start direction) (reports os direction) = -1 := by
  have hcount : (c.after os).count direction =
      grown (origin.start direction) (reports os direction) := by
    rw [count_after, Origin.count_eq h]
  refine ⟨hcount, ?_, fun improvement distance e => ?_⟩
  · rw [learns_iff, hcount, grown_nonneg_iff]
  · rw [Object.observe_real_eq_error_iff, observe_eq_error_iff, hcount]

/-- A column that was branched on downwards minus two times, and upwards three times. -/
def overdrawn : Column Binary64 :=
  { initial with costs := ⟨⟨0.0, -2⟩, ⟨0.5, 3⟩⟩ }

/-- After a report downwards it learns of branchings upwards alone. -/
theorem learns_overdrawn :
    (Origin.buffer { bytes := overdrawn.record }).Gives overdrawn ∧
      ¬ (overdrawn.after [⟨.down, 1.0, 1.0⟩]).Learns .down ∧
      (overdrawn.after [⟨.down, 1.0, 1.0⟩]).Learns .up := by
  have hfits : overdrawn.Fits := ⟨by decide, by decide, by decide⟩
  have hgives := Origin.gives_record hfits
  have hdown := (learns_after_iff hgives [⟨.down, 1.0, 1.0⟩] .down).2.1
  have hup := (learns_after_iff hgives [⟨.down, 1.0, 1.0⟩] .up).2.1
  rw [← Origin.count_eq hgives] at hdown hup
  exact ⟨hgives, by rw [hdown]; decide, by rw [hup]; decide⟩

/-- A column that was branched on downwards minus one times. -/
def stuck : Column Binary64 :=
  { initial with costs := ⟨⟨defaultEstimate, -1⟩, .initial⟩ }

/-- The column is read without a fault, but a report of finite numbers fails. -/
theorem not_learns_stuck :
    (Origin.buffer { bytes := stuck.record }).Gives stuck ∧
      (Object.column stuck).observe .down (.real 1.0) (.real 1.0) = .error .divisionByZero ∧
      ¬ stuck.Learns .down := by
  refine ⟨Origin.gives_record ⟨by decide, by decide, by decide⟩, ?_, ?_⟩
  · rw [Object.observe_real_eq_error_iff, observe_eq_error_iff]
    exact ⟨rfl, by decide +kernel, rfl⟩
  · rw [learns_iff]
    decide

end Column

end BranchBound
