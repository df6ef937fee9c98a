import BranchBound.Object.Build
import BranchBound.Object.Search
import BranchBound.Proofs.Column.Within
import BranchBound.Proofs.Wire.RoundTrip
import BranchBound.Proofs.Workspace.Upkeep

/-!
# Sessions with a column

In the course of a search, a column is asked for its infeasibility and its branchings, fixed,
hashed, sent to another process and back, told what branching has cost, and set back to its hard
bounds.  The branchings that it has made are kept, and any of them may be applied to it at any
later time.

None of these operations looks at the order of the bounds.  It is kept all the same, since the soft
range and the ranges of all branchings made are integral and within the hard range.

Main results:

- Theorem `Session.run_applyTo`: a branching is applied in a workspace as in a session.
- Theorems `Session.follows_of_run` and `Session.mem_made_of_run`: all that an operation can do.
- Theorem `Session.Sound.run`: an operation keeps the ranges in order.
- Theorem `Session.Sound.after`: so does a run of operations.
- Theorem `Session.consistent_after`: bounds are in order throughout a search.
-/

namespace BranchBound

open Binary64

-- The number of units in one has 1075 bits and is never to be evaluated.
attribute [local irreducible] Grid.one

/-! ## What is asked of a column -/

/-- A relaxation in which a parameter is used is the one of the outline. -/
theorem Outline.eq_filled_of_withParameter {o : Outline Binary64} {p : Parameter}
    {r : Relaxation Binary64} (h : o.withParameter p = .ok r) : r = o.filled := by
  unfold withParameter at h
  split at h
  · cases h
    rfl
  · cases h

/-- A relaxation that a column is judged by is the one of the outline. -/
theorem Column.eq_filled_of_withParameter {c : Column Binary64} {o : Outline Binary64}
    {p : Parameter} {r : Relaxation Binary64} (h : c.withParameter o p = .ok r) :
    r = o.filled := by
  unfold withParameter at h
  split at h
  · exact Outline.eq_filled_of_withParameter h
  · cases h
    rfl

namespace Object

variable {c : Column Binary64} {m : Outline?}

/-- A column is fixed by the relaxation of its model or, without an index and a model, left as it
is. -/
theorem fix_column {o : Object} (h : (column c).fix m = .ok o) :
    o = column c ∨ ∃ x, m = some x ∧ o = column (c.fix x.filled) := by
  cases m with
  | none =>
    simp only [fix, Column.ask] at h
    split at h <;> cases h
    exact Or.inl rfl
  | some x =>
    rcases exists_of_bind_eq_ok h with ⟨r, hr, hfix⟩
    cases hfix
    rw [Column.eq_filled_of_withParameter hr]
    exact Or.inr ⟨x, rfl, rfl⟩

/-- A branching of a column is one by the relaxation of its model. -/
theorem split_column {way : Datum} {b : Branch Binary64}
    (h : (column c).split m way = .ok (some b)) :
    ∃ x direction, m = some x ∧ c.split? x.filled direction = some b := by
  cases m with
  | none =>
    simp only [split, Column.ask] at h
    split at h <;> cases h
  | some x =>
    simp only [split, Column.ask] at h
    unfold Column.splitBy at h
    have hways : way.toDirection.map (c.split? x.filled) = .ok (some b) := by
      split at h
      · rcases exists_of_bind_eq_ok h with ⟨r, hr, hjudged⟩
        cases hr
        dsimp only at hjudged
        split at hjudged
        · cases hjudged
        · exact hjudged
      · rcases exists_of_bind_eq_ok h with ⟨r, hr, hjudged⟩
        rw [Column.eq_filled_of_withParameter hr] at hjudged
        dsimp only at hjudged
        split at hjudged
        · cases hjudged
        · exact hjudged
    rcases exists_of_map_eq_ok hways with ⟨direction, -, hsplit⟩
    exact ⟨x, direction, rfl, hsplit.symm⟩

/-- A step of a column is one by the relaxation of its model. -/
theorem step_column {preferred : Bool} {b : Branch Binary64}
    (h : (column c).step m preferred = .ok (some b)) :
    ∃ x, m = some x ∧ c.step? x.filled preferred = .ok (some b) := by
  cases m with
  | none => cases h
  | some x =>
    rcases exists_of_bind_eq_ok h with ⟨found, hfound, hrest⟩
    refine ⟨x, rfl, ?_⟩
    rw [hfound]
    split at hrest
    · rcases exists_of_bind_eq_ok hrest with ⟨r, -, hdone⟩
      exact hdone
    · exact hrest

/-- What a column learns of costs leaves its header alone. -/
theorem observe_column {direction : Direction} {improvement distance : Datum} {o : Object}
    (h : (column c).observe direction improvement distance = .ok o) :
    ∃ costs, o = column { c with costs } := by
  rcases exists_of_bind_eq_ok h with ⟨d, -, hrest⟩
  split at hrest
  · cases hrest
    exact ⟨c.costs, rfl⟩
  · rcases exists_of_bind_eq_ok hrest with ⟨i, -, hrest⟩
    rcases exists_of_bind_eq_ok hrest with ⟨c', hc', hdone⟩
    cases hdone
    exact ⟨c'.costs, by rw [← Column.toEntity_of_observe hc']⟩

end Object

/-- A column that is sent is the column that is received. -/
theorem Knowledge.eq_of_resend {c : Column Binary64} {sent left : Buffer} {k : Knowledge}
    (hsent : (object (.column c)).toBuffer = .ok sent)
    (hreceived : Registry.initial.decodeFrame sent.frame = .ok (k, left)) :
    k = object (.column c) := by
  have hfits : (object (.column c)).Fits := exists_toBuffer_column_iff.1 ⟨sent, hsent⟩
  rcases decodeFrame_frame hfits with ⟨sent', left', hsent', hreceived', -⟩
  rw [hsent] at hsent'
  cases hsent'
  rw [hreceived] at hreceived'
  cases hreceived'
  rfl

/-! ## Operations -/

/-- An object in the course of a search, and the branchings that it has made so far. -/
structure Session where
  /-- The object. -/
  object : Object
  /-- The branchings, the first one first. -/
  made : List (Branch Binary64)

/-- What may be done in a session.  A model may be missing, or parameters of it. -/
inductive Operation where
  /-- Ask for the infeasibility. -/
  | infeasibility (m : Outline?)
  /-- Fix the soft bounds by the relaxation. -/
  | fix (m : Outline?)
  /-- Make a branching. -/
  | split (m : Outline?) (way : Datum)
  /-- Make a step towards a new feasible point. -/
  | step (m : Outline?) (preferred : Bool)
  /-- Learn what a branching cost. -/
  | observe (direction improvement distance : Datum)
  /-- Renew the hash. -/
  | rehash (source : WeightSource)
  /-- Set the soft bounds to the hard ones. -/
  | resetBounds
  /-- Send the object and go on with what is received. -/
  | resend
  /-- Apply the branching of a number; without a direction, in the one to explore first. -/
  | apply (number : Nat) (direction : Datum)

namespace Operation

/-- Whether the values of the relaxation that is looked at, if one is, are finite. -/
def Finite : Operation → Prop
  | infeasibility m | fix m | split m _ | step m _ =>
    ∀ x, m = some x → ∀ v ∈ x.solution, v.isFinite = true
  | _ => True

/-- Carries out an operation. -/
def run (s : Session) : Operation → Except Fault Session
  | infeasibility m => (s.object.infeasibility m).map fun _ => s
  | fix m => (s.object.fix m).map fun object => { s with object }
  | split m way => (s.object.split m way).map fun b => { s with made := s.made ++ b.toList }
  | step m preferred =>
    (s.object.step m preferred).map fun b => { s with made := s.made ++ b.toList }
  | observe direction improvement distance =>
    (s.object.observe direction.anyDirection improvement distance).map fun object =>
      { s with object }
  | rehash source =>
    (s.object.hashing.run source).1.map fun hash =>
      { s with object := s.object.mapHeader fun e => { e with hash } }
  | resetBounds => .ok { s with object := s.object.mapHeader Entity.resetBounds }
  | resend => do
    let sent ← (Knowledge.object s.object).toBuffer
    match ← Registry.initial.decodeFrame sent.frame with
    | (.object object, _) => return { s with object }
    | (.solution _, _) => .error .unsupported
  | apply number direction =>
    match s.made[number]? with
    | none => .error .outOfBounds
    | some b =>
      let direction := match direction with
        | .nothing => b.first
        | d => d.anyDirection
      (b.apply s.object.header direction).map fun header =>
        { s with object := s.object.setHeader header }

end Operation

namespace Session

/-- The session after an operation; one that fails changes nothing. -/
def next (s : Session) (op : Operation) : Session :=
  match op.run s with
  | .ok s' => s'
  | .error _ => s

/-- The session after some operations. -/
def after (s : Session) (ops : List Operation) : Session := ops.foldl next s

/-- The session that starts with an object placed at an index. -/
def start (o : Object) (index : Int) : Session :=
  ⟨o.mapHeader fun e => { e with index }, []⟩

theorem after_append (s : Session) (ops more : List Operation) :
    s.after (ops ++ more) = (s.after ops).after more :=
  List.foldl_append

/-- In a workspace, where a branching is applied one end after the other, applying one that was made
leaves the object of the session after it. -/
theorem run_applyTo {w : Workspace} {s : Session} {id number : Nat} {b : Branch Binary64}
    (ho : w.store.objects[id]? = some s.object) (hb : s.made[number]? = some b) (d : Datum) :
    ((Workspace.applyTo id b.allowGaps d).run w).1 =
        ((Operation.apply number d).run s).map (fun _ => {}) ∧
      ((Workspace.applyTo id b.allowGaps d).run w).2.store.objects[id]? =
        some (s.next (.apply number d)).object := by
  have hlt := (Array.getElem?_eq_some_iff.1 ho).1
  have hput (o : Object) : (w.store.objects.setIfInBounds id o)[id]? = some o :=
    Array.getElem?_setIfInBounds_self_of_lt hlt
  -- both apply the branching in one direction, which is settled before
  obtain ⟨direction, hop, hdone⟩ : ∃ direction,
      (Operation.apply number d).run s = (b.apply s.object.header direction).map
          (fun header => { s with object := s.object.setHeader header }) ∧
        (Workspace.applyTo id b.allowGaps d).run w = (do
          let done := (b.allowGaps.applyEnds direction).run s.object.header
          Workspace.onStore (Store.setObject id (s.object.setHeader done.2))
          .ofExcept done.1
          return {} : Work).run w := by
    apply Exists.intro
    constructor
    · unfold Operation.run
      dsimp only
      rw [hb]
    · unfold Workspace.applyTo
      rw [Action.run_bind_of_ok (Workspace.run_object ho)]
      rfl
  rw [hdone, next, hop, Branch.run_applyEnds_some]
  cases b.apply s.object.header direction with
  | ok header => exact ⟨rfl, hput _⟩
  | error fault =>
    exact ⟨rfl, (hput _).trans (congrArg some (Object.setHeader_header s.object))⟩

/-! ## What an operation does -/

/-- Where the soft range of a column comes from after an operation. -/
inductive Source (s : Session) (c : Column Binary64) : Interval Binary64 → Prop where
  /-- It is what it was. -/
  | kept : Source s c c.soft
  /-- It was set to the hard range. -/
  | reset : Source s c c.hard
  /-- It was fixed by a relaxation. -/
  | fixed (r : Relaxation Binary64) (finite : ∀ v ∈ r.solution, v.isFinite = true) :
    Source s c (c.fix r).soft
  /-- It is that of a child of a branching made before. -/
  | child (b : Branch Binary64) (made : b ∈ s.made) (direction : Direction) :
    Source s c (b.bounds direction)

/-- What becomes of a column in an operation. -/
structure Follows (s : Session) (c c' : Column Binary64) : Prop where
  /-- The integrality class stays. -/
  integrality : c'.integrality = c.integrality
  /-- The hard range stays. -/
  hard : c'.hard = c.hard
  /-- The mark of having been branched on stays. -/
  branchedOn : c.status.branchedOn = true → c'.status.branchedOn = true
  /-- The soft range comes from one of few places. -/
  soft : Source s c c'.soft

/-- A column follows itself. -/
theorem Follows.refl (s : Session) (c : Column Binary64) : Follows s c c :=
  ⟨rfl, rfl, id, .kept⟩

/-- A column that is fixed follows the one that it was. -/
theorem Follows.fix (s : Session) (c : Column Binary64) {r : Relaxation Binary64}
    (hr : ∀ v ∈ r.solution, v.isFinite = true) : Follows s c (c.fix r) := by
  have hsoft : Source s c (c.fix r).soft := .fixed r hr
  unfold Column.fix at hsoft ⊢
  split
  · exact Follows.refl s c
  · rename_i v hv
    rw [hv] at hsoft
    exact ⟨rfl, rfl, id, hsoft⟩

variable {s s' : Session} {c : Column Binary64} {op : Operation}

/-- A column that is sent and received again leaves the session as it was. -/
theorem eq_of_run_resend (hc : s.object = .column c)
    (hrun : Operation.resend.run s = .ok s') : s' = s := by
  rcases exists_of_bind_eq_ok hrun with ⟨sent, hsent, hrest⟩
  rcases exists_of_bind_eq_ok hrest with ⟨⟨k, left⟩, hreceived, hdone⟩
  rw [hc] at hsent
  cases Knowledge.eq_of_resend hsent hreceived
  cases hdone
  rw [← hc]

/-- What an operation makes of the column of a session. -/
theorem follows_of_run (hc : s.object = .column c) (hop : op.Finite)
    (hrun : op.run s = .ok s') : ∃ c', s'.object = .column c' ∧ Follows s c c' := by
  cases op with
  | infeasibility m =>
    rcases exists_of_map_eq_ok hrun with ⟨_, _, hs⟩
    rw [hs]
    exact ⟨c, hc, Follows.refl s c⟩
  | split m way =>
    rcases exists_of_map_eq_ok hrun with ⟨_, _, rfl⟩
    exact ⟨c, hc, Follows.refl s c⟩
  | step m preferred =>
    rcases exists_of_map_eq_ok hrun with ⟨_, _, rfl⟩
    exact ⟨c, hc, Follows.refl s c⟩
  | fix m =>
    rcases exists_of_map_eq_ok hrun with ⟨o, ho, rfl⟩
    rw [hc] at ho
    rcases Object.fix_column ho with rfl | ⟨x, hx, rfl⟩
    · exact ⟨c, rfl, Follows.refl s c⟩
    · exact ⟨c.fix x.filled, rfl, Follows.fix s c (hop x hx)⟩
  | observe direction improvement distance =>
    rcases exists_of_map_eq_ok hrun with ⟨o, ho, rfl⟩
    rw [hc] at ho
    rcases Object.observe_column ho with ⟨costs, rfl⟩
    exact ⟨{ c with costs }, rfl, rfl, rfl, id, .kept⟩
  | rehash source =>
    rcases exists_of_map_eq_ok hrun with ⟨hash, -, rfl⟩
    refine ⟨{ c with hash }, ?_, rfl, rfl, id, .kept⟩
    rw [hc]
    rfl
  | resetBounds =>
    cases hrun
    refine ⟨{ c with soft := c.hard }, ?_, rfl, rfl, id, .reset⟩
    rw [hc]
    rfl
  | resend =>
    rw [eq_of_run_resend hc hrun]
    exact ⟨c, hc, Follows.refl s c⟩
  | apply number direction =>
    simp only [Operation.run] at hrun
    split at hrun
    · cases hrun
    · rename_i b hb
      rcases exists_of_map_eq_ok hrun with ⟨e, he, rfl⟩
      rw [hc] at he ⊢
      unfold Branch.apply at he
      split at he
      · cases he
        refine ⟨_, rfl, rfl, rfl, fun _ => Bool.or_true _, ?_⟩
        exact .child b (List.mem_of_getElem? hb) _
      · cases he

/-- Where the branchings of a session come from: they were there before, or the column made
them. -/
theorem mem_made_of_run (hc : s.object = .column c) (hop : op.Finite)
    (hrun : op.run s = .ok s') {b : Branch Binary64} (hb : b ∈ s'.made) :
    b ∈ s.made ∨ ∃ r : Relaxation Binary64, (∀ v ∈ r.solution, v.isFinite = true) ∧
      ((∃ way, c.split? r way = some b) ∨ ∃ preferred, c.step? r preferred = .ok (some b)) := by
  cases op with
  | split m way =>
    rcases exists_of_map_eq_ok hrun with ⟨found, hfound, rfl⟩
    rcases List.mem_append.1 hb with hb | hb
    · exact Or.inl hb
    · rw [hc, Option.mem_toList.1 hb] at hfound
      rcases Object.split_column hfound with ⟨x, direction, hx, hsplit⟩
      exact Or.inr ⟨x.filled, hop x hx, Or.inl ⟨direction, hsplit⟩⟩
  | step m preferred =>
    rcases exists_of_map_eq_ok hrun with ⟨found, hfound, rfl⟩
    rcases List.mem_append.1 hb with hb | hb
    · exact Or.inl hb
    · rw [hc, Option.mem_toList.1 hb] at hfound
      rcases Object.step_column hfound with ⟨x, hx, hstep⟩
      exact Or.inr ⟨x.filled, hop x hx, Or.inr ⟨preferred, hstep⟩⟩
  | infeasibility m =>
    rcases exists_of_map_eq_ok hrun with ⟨_, _, rfl⟩
    exact Or.inl hb
  | fix m =>
    rcases exists_of_map_eq_ok hrun with ⟨_, _, rfl⟩
    exact Or.inl hb
  | observe direction improvement distance =>
    rcases exists_of_map_eq_ok hrun with ⟨_, _, rfl⟩
    exact Or.inl hb
  | rehash source =>
    rcases exists_of_map_eq_ok hrun with ⟨_, _, rfl⟩
    exact Or.inl hb
  | resetBounds =>
    cases hrun
    exact Or.inl hb
  | resend =>
    rw [eq_of_run_resend hc hrun] at hb
    exact Or.inl hb
  | apply number direction =>
    simp only [Operation.run] at hrun
    split at hrun
    · cases hrun
    · rcases exists_of_map_eq_ok hrun with ⟨_, _, rfl⟩
      exact Or.inl hb

/-! ## The invariant -/

/-- A column of integer or binary values whose soft range is within some hard range, as are the
ranges of the branchings made. -/
structure Sound (hard : Interval Binary64) (s : Session) (c : Column Binary64) : Prop where
  /-- It is the column of the session. -/
  object : s.object = .column c
  /-- It is a column of integer or binary values. -/
  integrality : c.integrality = .integer ∨ c.integrality = .binary
  /-- It has the hard range. -/
  hard_eq : c.hard = hard
  /-- The hard range is integral. -/
  integral : hard.Integral
  /-- The soft range is within the hard range. -/
  soft : c.soft.Within hard
  /-- So are the ranges of the branchings made. -/
  made : ∀ b ∈ s.made, Column.Narrows hard b

variable {hard : Interval Binary64}

theorem Sound.searchable (h : Sound hard s c) : c.Searchable := ⟨h.integrality, h.soft.integral⟩

/-- Wherever the soft range of a sound session comes from, it is within the hard range. -/
theorem Sound.within_of_source (h : Sound hard s c) {i : Interval Binary64}
    (hi : Source s c i) : i.Within hard := by
  cases hi with
  | kept => exact h.soft
  | reset =>
    rw [h.hard_eq]
    exact h.integral.within_self
  | fixed r hr => exact (h.searchable.fix_within hr).trans h.soft
  | child b hb direction => exact h.made b hb direction

/-- An operation that succeeds keeps a session sound. -/
theorem Sound.run (h : Sound hard s c) (hop : op.Finite) (hrun : op.run s = .ok s') :
    ∃ c', Sound hard s' c' ∧ Follows s c c' := by
  rcases follows_of_run h.object hop hrun with ⟨c', hc', hfollows⟩
  refine ⟨c', ⟨hc', ?_, ?_, h.integral, h.within_of_source hfollows.soft, fun b hb => ?_⟩,
    hfollows⟩
  · rw [hfollows.integrality]
    exact h.integrality
  · rw [hfollows.hard]
    exact h.hard_eq
  · rcases mem_made_of_run h.object hop hrun hb with hb | ⟨r, hr, ⟨way, hway⟩ | ⟨p, hp⟩⟩
    · exact h.made b hb
    · exact fun direction => (h.searchable.split?_within hr hway direction).trans h.soft
    · exact fun direction => (h.searchable.step?_within hr hp direction).trans h.soft

/-- An operation, whether it succeeds or not, keeps a session sound and the mark of having been
branched on. -/
theorem Sound.next (h : Sound hard s c) (hop : op.Finite) :
    ∃ c', Sound hard (s.next op) c' ∧
      (c.status.branchedOn = true → c'.status.branchedOn = true) := by
  unfold Session.next
  split
  · rename_i s' hrun
    rcases h.run hop hrun with ⟨c', hc', hfollows⟩
    exact ⟨c', hc', hfollows.branchedOn⟩
  · exact ⟨c, h, id⟩

/-- So does a run of operations. -/
theorem Sound.after (h : Sound hard s c) {ops : List Operation}
    (hops : ∀ op ∈ ops, op.Finite) :
    ∃ c', Sound hard (s.after ops) c' ∧
      (c.status.branchedOn = true → c'.status.branchedOn = true) := by
  induction ops generalizing s c with
  | nil => exact ⟨c, h, id⟩
  | cons op ops ih =>
    rw [List.forall_mem_cons] at hops
    rcases h.next hops.1 with ⟨c', hc', hmark⟩
    rcases ih hc' hops.2 with ⟨c'', hc'', hmark'⟩
    exact ⟨c'', hc'', fun hmarked => hmark' (hmark hmarked)⟩

/-! ## Whole searches -/

/-- The bounds of a sound session are in order. -/
theorem Sound.consistent (h : Sound hard s c) : s.object.header.Consistent (0.0 : Binary64) := by
  have hsoft := h.soft.integral
  have hlower := le_add_zero hsoft.ne_nan_lower
  have hupper := le_add_zero hsoft.ne_nan_upper
  have hend := le_add_zero h.integral.ne_nan_upper
  rw [h.object]
  show c.Consistent (0.0 : Binary64)
  unfold Entity.Consistent
  rw [h.hard_eq]
  exact ⟨le_trans h.soft.lower_le hlower, le_trans hsoft.le hupper,
    le_trans h.soft.le_upper hend⟩

/-- The ends of the soft range of a sound session are integers or those of the hard range. -/
theorem Sound.ends (h : Sound hard s c) :
    (c.soft.lower.IsInteger ∨ c.soft.lower = infinity true ∧ hard.lower = infinity true) ∧
      (c.soft.upper.IsInteger ∨ c.soft.upper = infinity false ∧ hard.upper = infinity false) := by
  constructor
  · refine h.soft.integral.lower.imp_right fun hopen => ⟨hopen, ?_⟩
    have hle := h.soft.lower_le
    rw [hopen] at hle
    exact eq_infinity_true_of_le hle
  · refine h.soft.integral.upper.imp_right fun hopen => ⟨hopen, ?_⟩
    have hle := h.soft.le_upper
    rw [hopen] at hle
    exact eq_infinity_false_of_le hle

end Session

/-- An entity that is built without soft bounds has its hard bounds for them. -/
theorem Fields.header_of_softBound {f : Fields} {kindly e : Entity Binary64}
    (h : f.header kindly = .ok e) (hlower : f.softLower = .nothing)
    (hupper : f.softUpper = .nothing) (hclass : f.integrality = none) :
    e.soft = e.hard ∧ e.integrality = kindly.integrality := by
  unfold header at h
  rw [hlower, hupper, hclass] at h
  dsimp only at h
  split at h
  all_goals
    rcases exists_of_bind_eq_ok h with ⟨representation, _, hclass⟩
    rcases exists_of_bind_eq_ok hclass with ⟨integrality, hintegrality, hbounds⟩
    rcases exists_of_bind_eq_ok hbounds with ⟨hardLower, _, hbounds⟩
    rcases exists_of_bind_eq_ok hbounds with ⟨hardUpper, _, hbounds⟩
    rcases exists_of_bind_eq_ok hbounds with ⟨softLower, hsoftLower, hbounds⟩
    rcases exists_of_bind_eq_ok hbounds with ⟨softUpper, hsoftUpper, hdone⟩
    cases hintegrality
    cases hsoftLower
    cases hsoftUpper
    cases hdone
    exact ⟨rfl, rfl⟩

/-- A column that is built without soft bounds has its hard bounds for them. -/
theorem Object.build_column {f : Fields} {o : Object} (h : build .column f = .ok o)
    (hlower : f.softLower = .nothing) (hupper : f.softUpper = .nothing) :
    ∃ c, o = column c ∧ c.soft = c.hard ∧
      (c.integrality = .integer ∨ c.integrality = .binary) := by
  unfold build at h
  split at h
  · rename_i hsuit
    rcases exists_of_bind_eq_ok h with ⟨e, he, hdone⟩
    cases hdone
    rcases Fields.header_of_softBound he hlower hupper (Option.isNone_iff_eq_none.1 hsuit) with
      ⟨hsoft, hclass⟩
    refine ⟨_, rfl, hsoft, ?_⟩
    rw [show _ = e.integrality from rfl, hclass]
    dsimp only
    split
    · exact Or.inr rfl
    · exact Or.inl rfl
  · cases h

namespace Session

/-- Throughout a search, the bounds of a column are in order, its soft bounds are integers or the
infinite hard bounds, its hard bounds are those that it was built with, and once it was branched on
it stays marked so. -/
theorem consistent_after {f : Fields} {o : Object} (hbuild : Object.build .column f = .ok o)
    (hsoftLower : f.softLower = .nothing) (hsoftUpper : f.softUpper = .nothing)
    (hlower : o.header.hard.lower.IsInteger ∨ o.header.hard.lower = infinity true)
    (hupper : o.header.hard.upper.IsInteger ∨ o.header.hard.upper = infinity false)
    (hle : o.header.hard.lower ≤ o.header.hard.upper) (index : Int) {ops : List Operation}
    (hops : ∀ op ∈ ops, op.Finite) :
    ∃ e, ((start o index).after ops).object.header = e ∧ e.Consistent (0.0 : Binary64) ∧
      (e.soft.lower.IsInteger ∨
        e.soft.lower = infinity true ∧ o.header.hard.lower = infinity true) ∧
      (e.soft.upper.IsInteger ∨
        e.soft.upper = infinity false ∧ o.header.hard.upper = infinity false) ∧
      e.hard = o.header.hard ∧
      ∀ more : List Operation, (∀ op ∈ more, op.Finite) → e.status.branchedOn = true →
        ((start o index).after (ops ++ more)).object.header.status.branchedOn = true := by
  rcases Object.build_column hbuild hsoftLower hsoftUpper with ⟨c, rfl, hsoft, hinteger⟩
  have hintegral : Interval.Integral c.hard := ⟨hlower, hupper, hle⟩
  have hstart : Sound c.hard (start (.column c) index) { c with index } := by
    refine ⟨rfl, hinteger, rfl, hintegral, ?_, fun b hb => ?_⟩
    · show Interval.Within c.soft c.hard
      rw [hsoft]
      exact hintegral.within_self
    · cases hb
  rcases hstart.after hops with ⟨c', hc', -⟩
  refine ⟨c'.toEntity, ?_, ?_, hc'.ends.1, hc'.ends.2, hc'.hard_eq, fun more hmore hmark => ?_⟩
  · rw [hc'.object]
    rfl
  · have hconsistent := hc'.consistent
    rw [hc'.object] at hconsistent
    exact hconsistent
  · rcases hc'.after hmore with ⟨c'', hc'', hmark'⟩
    rw [after_append, hc''.object]
    exact hmark' hmark

/-- A model whose relaxation has one value, halfway between zero and one. -/
def halfway : Outline? := some (.ofRelaxation { Relaxation.initial with solution := [0.5] })

/-- A search that branches, takes the branching back, and applies it again when it is stale. -/
def detour : List Operation :=
  [.split halfway (.integer 1), .apply 0 .nothing, .resend, .resetBounds,
    .apply 0 (.integer (-1))]

/-- The bounds of a column between zero and one are in order after the detour. -/
theorem consistent_after_detour :
    ∃ e, ((start (.column Column.initial) 0).after detour).object.header = e ∧
      e.Consistent (0.0 : Binary64) ∧
      (e.soft.lower.IsInteger ∨
        e.soft.lower = infinity true ∧ Column.initial.hard.lower = infinity true) ∧
      (e.soft.upper.IsInteger ∨
        e.soft.upper = infinity false ∧ Column.initial.hard.upper = infinity false) ∧
      e.hard = Column.initial.hard ∧
      ∀ more : List Operation, (∀ op ∈ more, op.Finite) → e.status.branchedOn = true →
        ((start (.column Column.initial) 0).after (detour ++ more)).object.header.status.branchedOn
          = true := by
  have hbuild : Object.build .column {} = .ok (.column Column.initial) := rfl
  have hlower : Column.initial.hard.lower.IsInteger := by decide +kernel
  have hupper : Column.initial.hard.upper.IsInteger := by decide +kernel
  have hle : Column.initial.hard.lower ≤ Column.initial.hard.upper := by decide +kernel
  have hhalf : ∀ v ∈ [(0.5 : Binary64)], v.isFinite = true := by decide +kernel
  have hdetour : ∀ op ∈ detour, op.Finite := by
    rw [detour, List.forall_mem_cons, List.forall_mem_cons, List.forall_mem_cons,
      List.forall_mem_cons, List.forall_mem_singleton]
    refine ⟨?_, trivial, trivial, trivial, trivial⟩
    intro x hx
    cases hx
    exact hhalf
  exact consistent_after hbuild rfl rfl (Or.inl hlower) (Or.inl hupper) hle 0 hdetour

end Session

end BranchBound
