import BranchBound.Proofs.Workspace.Ownership

/-!
# Members by index

A model gives a member by a position in the list of its members, and the index of a member is its
position.  So from zero up the member that is found is the one with the index that was asked for.

A position below zero counts from the end of the list, though, and so an index below zero finds the
member of another index as long as there are that many members.  Minus one is the index of every
object that no model has taken, and finds the last member.

Main results:

- Theorem `Workspace.gives_of_inOrder`: a position that finds a member gives it with its index.
- Theorem `Workspace.Gives.answersOwn_iff`: when the member given has the index asked for.
- Theorem `Workspace.lookups_after`: what a model answers to every integer.
-/

namespace BranchBound

/-! ## Members of one model -/

/-- A task that sets no index keeps the members of each model in order, whatever those of the others
are. -/
theorem Task.inOrder {t : Task} (ht : t.setsNoIndex = true) (refs : References) {w : Workspace}
    {modelId : Nat} (h : w.store.InOrder modelId) :
    ((t.run refs).run w).2.store.InOrder modelId := by
  rcases Task.membership_cases ht refs w with hmet | ⟨_, _, o, m, ho, hm, hindex, htaken⟩
  · exact h.of_met hmet
  · rw [htaken]
    exact h.placed ho hm hindex

theorem Store.inOrder_of_no_members {s : Store} {modelId : Nat}
    (h : ∀ m, s.models[modelId]? = some m → m.members = []) : s.InOrder modelId := by
  rintro position objectId ⟨m, hm, hmember⟩
  rw [h m hm, List.getElem?_nil] at hmember
  cases hmember

namespace Workspace

theorem inOrder_of_steps {w : Workspace} {modelId : Nat} {steps : List Step}
    (hsteps : ∀ s ∈ steps, s.task.setsNoIndex = true) (h : w.store.InOrder modelId) :
    (w.after steps).store.InOrder modelId :=
  store_after (P := fun s => s.InOrder modelId) (fun _ refs _ ht => Task.inOrder ht refs) hsteps h

/-! ## Questions for a member -/

/-- What a model answers when it is asked for the member of an index, and the workspace after it. -/
def askMember (w : Workspace) (modelId : Nat) (i : Int) : Except Fault Outcome × Workspace :=
  ((Task.model (.member i)).run { self := some (.model modelId) }).run w

/-- Whether a model that is asked for the member of an index gives the one at a position, whose
index is this position. -/
def Gives (w : Workspace) (modelId : Nat) (i : Int) (position : Nat) : Prop :=
  ∃ objectId o names, w.store.MemberAt modelId position objectId ∧
    w.store.objects[objectId]? = some o ∧ o.header.index = position ∧
    w.askMember modelId i = (.ok { answer := .list [.view (.object o), .list names] }, w)

/-- Whether a model that is asked for the member of an index gives an object with this index, if it
gives one at all. -/
def AnswersOwn (w : Workspace) (modelId : Nat) (i : Int) : Prop :=
  ∀ outcome w', w.askMember modelId i = (.ok outcome, w') →
    ∃ o names, outcome.answer = .list [.view (.object o), .list names] ∧ o.header.index = i

variable {w : Workspace} {modelId : Nat} {m : Model} {i : Int}

theorem askMember_of_none (hm : w.store.models[modelId]? = some m)
    (hnone : signedGet? m.members i = none) :
    w.askMember modelId i = (.error .outOfBounds, w) := by
  have hself : (Handle.modelId (some (.model modelId))).run w = (.ok modelId, w) := rfl
  have hmember : (Action.ofExcept (m.member i)).run w = (.error .outOfBounds, w) := by
    rw [Action.run_ofExcept, Model.member, hnone]
  rw [askMember, Task.run, ModelTask.run, Action.run_bind_of_ok hself,
    Action.run_bind_of_ok (run_model hm)]
  exact Action.run_bind_of_error hmember

theorem askMember_of_some {objectId : Nat} {o : Object} (hm : w.store.models[modelId]? = some m)
    (hfound : signedGet? m.members i = some objectId)
    (ho : w.store.objects[objectId]? = some o) :
    w.askMember modelId i =
      (.ok { answer := .list [.view (.object o), .list ((w.namesOf objectId).map .text)] }, w) := by
  have hself : (Handle.modelId (some (.model modelId))).run w = (.ok modelId, w) := rfl
  have hmember : (Action.ofExcept (m.member i)).run w = (.ok objectId, w) := by
    rw [Action.run_ofExcept, Model.member, hfound]
  rw [askMember, Task.run, ModelTask.run, Action.run_bind_of_ok hself,
    Action.run_bind_of_ok (run_model hm)]
  dsimp only
  rw [Action.run_bind_of_ok hmember, Action.run_bind_of_ok (run_object ho)]
  rfl

/-- Where members are in order, a position that finds one gives it with its index. -/
theorem gives_of_inOrder {k : Nat} (horder : w.store.InOrder modelId)
    (hm : w.store.models[modelId]? = some m) (hk : k < m.members.length)
    (hfound : signedGet? m.members i = m.members[k]?) : w.Gives modelId i k := by
  have hmember := List.getElem?_eq_getElem hk
  rcases horder k _ ⟨m, hm, hmember⟩ with ⟨o, ho, hindex⟩
  exact ⟨_, o, _, ⟨m, hm, hmember⟩, ho, hindex, askMember_of_some hm (hfound.trans hmember) ho⟩

theorem AnswersOwn.index_eq {o : Object} {names : List Answer} {w' : Workspace}
    (h : w.AnswersOwn modelId i) (hanswer : w.askMember modelId i =
      (.ok { answer := .list [.view (.object o), .list names] }, w')) : o.header.index = i := by
  rcases h _ _ hanswer with ⟨o', names', hsame, hasked⟩
  rw [Answer.list.injEq, List.cons.injEq, Answer.view.injEq, View.object.injEq] at hsame
  rw [hsame.1, hasked]

/-- The member that is given has the index asked for exactly if this is its position. -/
theorem Gives.answersOwn_iff {k : Nat} (h : w.Gives modelId i k) :
    w.AnswersOwn modelId i ↔ i = k := by
  rcases h with ⟨objectId, o, names, -, -, hindex, hanswer⟩
  constructor
  · intro hown
    rw [← hown.index_eq hanswer, hindex]
  · rintro rfl outcome w' hgiven
    rw [hanswer] at hgiven
    cases hgiven
    exact ⟨o, names, rfl, hindex⟩

/-- A question that fails has no wrong answer. -/
theorem answersOwn_of_error {fault : Fault} (h : w.askMember modelId i = (.error fault, w)) :
    w.AnswersOwn modelId i := by
  intro outcome w' hgiven
  rw [h] at hgiven
  cases hgiven

/-! ## After tasks -/

/-- What a model answers to every integer after tasks that set no index, if it had no members before
them.  Each of its members is found at its index, and once more with the number of members taken off
that; no other integer finds anything.  So what is found has the index that was asked for exactly
for integers that are not negative, and for those too far below zero to find anything. -/
theorem lookups_after {steps : List Step}
    (hnew : ∀ m₀, w.store.models[modelId]? = some m₀ → m₀.members = [])
    (hsteps : ∀ s ∈ steps, s.task.setsNoIndex = true)
    (hm : (w.after steps).store.models[modelId]? = some m) :
    let w' := w.after steps
    let count : Int := m.members.length
    (∀ k < m.members.length, w'.Gives modelId k k ∧ w'.Gives modelId (k - count) k) ∧
      (∀ i, count ≤ i ∨ i < -count → w'.askMember modelId i = (.error .outOfBounds, w')) ∧
      ∀ i, w'.AnswersOwn modelId i ↔ 0 ≤ i ∨ i < -count := by
  intro w' count
  have horder : w'.store.InOrder modelId :=
    inOrder_of_steps hsteps (Store.inOrder_of_no_members hnew)
  have hfront : ∀ k < m.members.length, w'.Gives modelId k k := fun k hk =>
    gives_of_inOrder horder hm hk (signedGet?_ofNat _ k)
  have hback : ∀ k < m.members.length, w'.Gives modelId (k - count) k := fun k hk =>
    gives_of_inOrder horder hm hk (signedGet?_sub_length hk)
  have houtside : ∀ i, count ≤ i ∨ i < -count →
      w'.askMember modelId i = (.error .outOfBounds, w') := fun i hi =>
    askMember_of_none hm ((signedGet?_eq_none_iff _ i).2 hi)
  refine ⟨fun k hk => ⟨hfront k hk, hback k hk⟩, houtside, fun i => ?_⟩
  by_cases hi : count ≤ i ∨ i < -count
  · exact iff_of_true (answersOwn_of_error (houtside i hi)) (by omega)
  · by_cases hneg : i < 0
    · have hk : (i + count).toNat < m.members.length := by omega
      have hsame : (((i + count).toNat : Nat) : Int) - count = i := by omega
      have hgives := hback _ hk
      rw [hsame] at hgives
      rw [hgives.answersOwn_iff]
      omega
    · have hk : i.toNat < m.members.length := by omega
      have hgives := hfront _ hk
      rw [Int.toNat_of_nonneg (by omega)] at hgives
      rw [hgives.answersOwn_iff]
      omega

/-- After the run with a shared pool the first model has two members, the column and the one that
was decoded from its record. -/
theorem lookups_after_sharedPool :
    ∃ m, (initial.after sharedPool).store.models[0]? = some m ∧ m.members = [0, 3] ∧
      (initial.after sharedPool).Gives 0 1 1 ∧ (initial.after sharedPool).Gives 0 (-1) 1 ∧
      (initial.after sharedPool).askMember 0 (-3) =
        (.error .outOfBounds, initial.after sharedPool) ∧
      ¬ (initial.after sharedPool).AnswersOwn 0 (-2) := by
  have hsteps : ∀ s ∈ sharedPool, s.task.setsNoIndex = true := by decide
  have hnew : ∀ m₀, initial.store.models[0]? = some m₀ → m₀.members = [] := by
    intro m₀ h
    cases h
  have hmembers : (initial.after sharedPool).store.models[0]?.map Model.members = some [0, 3] := by
    decide +kernel
  rcases Option.map_eq_some_iff.1 hmembers with ⟨m, hm, hlist⟩
  have hlookups := lookups_after hnew hsteps hm
  rw [hlist] at hlookups
  rcases hlookups with ⟨hgives, houtside, hown⟩
  have hsecond := hgives 1 (by decide)
  refine ⟨m, hm, hlist, hsecond.1, hsecond.2, houtside (-3) (by decide), ?_⟩
  rw [hown]
  decide

/-- A run in which a model takes one of two columns. -/
def oneLeftOut : List Step := [
  { task := .newModel [], result := some "model" },
  { task := .newObject .column {}, result := some "member" },
  { task := .newObject .column {}, result := some "stranger" },
  { task := .model .place, self := some "model", source := some "member" }]

/-- The index of a column that no model took is minus one, and the model gives another column for
it. -/
theorem unplaced_finds_last :
    let w := initial.after oneLeftOut
    ∃ member stranger, w.store.objects[0]? = some member ∧ w.store.objects[1]? = some stranger ∧
      member.header.index = 0 ∧ stranger.header.index = -1 ∧
      w.askMember 0 stranger.header.index =
        (.ok { answer := .list [.view (.object member), .list [.text "member"]] }, w) ∧
      ¬ w.AnswersOwn 0 stranger.header.index := by
  intro w
  have hmembers : w.store.models[0]?.map Model.members = some [0] := by decide +kernel
  have hfirst : w.store.objects[0]?.map (·.header.index) = some 0 := by decide +kernel
  have hsecond : w.store.objects[1]?.map (·.header.index) = some (-1) := by decide +kernel
  have hnames : w.namesOf 0 = ["member"] := by decide +kernel
  rcases Option.map_eq_some_iff.1 hmembers with ⟨m, hm, hlist⟩
  rcases Option.map_eq_some_iff.1 hfirst with ⟨member, hmember, hzero⟩
  rcases Option.map_eq_some_iff.1 hsecond with ⟨stranger, hstranger, hunplaced⟩
  have hfound : signedGet? m.members (-1) = some 0 := by
    rw [hlist]
    rfl
  have hanswer := askMember_of_some hm hfound hmember
  rw [hnames] at hanswer
  refine ⟨member, stranger, hmember, hstranger, hzero, hunplaced, ?_, ?_⟩
  · rw [hunplaced]
    exact hanswer
  · rw [hunplaced]
    intro hown
    have hasked := hown.index_eq hanswer
    rw [hzero] at hasked
    cases hasked

end Workspace

end BranchBound
