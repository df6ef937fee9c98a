import BranchBound.Proofs.Workspace.History

/-!
# Members and their indices

An object is known to everyone who refers to it, and can be offered to any model at any time.  It is
taken only while it has no index, and then gets that of its position.  From then on it has an index
for good, and so it is a member of one model at one position: every other offer, to this model or to
another, is refused and changes nothing.

What does not come from a model cannot upset this.  A copy of a member has the index of the member,
and an object that is read from a buffer has the index on the wire, but neither is a member.  Only
setting an index, or reading the header of a member anew, could.

Main results:

- Theorem `Store.Owned.placed`: taking an object without an index keeps the members in order.
- Theorem `Task.membership_cases`: all that a task which sets no index can do to the members.
- Theorem `Task.owned`: every such task keeps the members in order.
- Theorem `Workspace.owned_after`: members are in order after all such tasks, and an object is
  refused exactly if it has an index.
-/

namespace BranchBound

/-- Whether a task sets no index, but that of an object that a model takes. -/
def Task.setsNoIndex : Task → Bool
  | object t => t.steady
  | _ => true

namespace Store

/-- Whether an object is the member of a model at a position. -/
def MemberAt (s : Store) (modelId position objectId : Nat) : Prop :=
  ∃ m, s.models[modelId]? = some m ∧ m.members[position]? = some objectId

/-- Whether every member of one model has its position for an index. -/
def InOrder (s : Store) (modelId : Nat) : Prop :=
  ∀ position objectId, s.MemberAt modelId position objectId →
    ∃ o, s.objects[objectId]? = some o ∧ o.header.index = position

/-- Whether every member has its position for an index, and no other place among the members. -/
structure Owned (s : Store) : Prop where
  /-- The index of a member is its position. -/
  index : ∀ {modelId position objectId}, s.MemberAt modelId position objectId →
    ∃ o, s.objects[objectId]? = some o ∧ o.header.index = position
  /-- No object is a member twice. -/
  once : ∀ {modelId position modelId' position' objectId}, s.MemberAt modelId position objectId →
    s.MemberAt modelId' position' objectId → modelId = modelId' ∧ position = position'

/-- The store after a model took an object. -/
def placed (s : Store) (modelId objectId : Nat) (m : Model) (o : Object) : Store :=
  { s with
    objects := s.objects.setIfInBounds objectId
      (o.mapHeader fun e => { e with index := m.members.length })
    models := s.models.setIfInBounds modelId { m with members := m.members ++ [objectId] } }

/-- Without members everything is in order. -/
theorem owned_of_no_members {s : Store}
    (h : ∀ (id : Nat) (m : Model), s.models[id]? = some m → m.members = []) : s.Owned := by
  have hnone : ∀ {modelId position objectId}, ¬ s.MemberAt modelId position objectId := by
    rintro modelId position objectId ⟨m, hm, hmember⟩
    rw [h modelId m hm, List.getElem?_nil] at hmember
    cases hmember
  exact ⟨fun hmember => absurd hmember hnone, fun hmember => absurd hmember hnone⟩

/-! ## Tasks that leave the members -/

/-- What is required of a store with the same members: old objects with their indices, and no new
members. -/
def membership (s : Store) : Requirement where
  objects := s.objects.size
  models := s.models.size
  object id o := ∀ o₀, s.objects[id]? = some o₀ → o.header.index = o₀.header.index
  model id m := ∀ position objectId, m.members[position]? = some objectId →
    s.MemberAt id position objectId
  new_object := by
    intro id o hle o₀ h₀
    have hlt := (Array.getElem?_eq_some_iff.1 h₀).1
    exact absurd hle (Nat.not_le.2 hlt)
  new_model := by
    intro id m hle hcoherent hmembers position objectId h
    rw [hmembers, List.getElem?_nil] at h
    cases h
  revised := by
    intro id o o' ho hrevised o₀ h₀
    rw [hrevised.index, ho o₀ h₀]
  changed := by
    intro id m m' hm hweights hmembers
    rwa [hmembers]
  drawn hm _ := hm

theorem met_membership (s : Store) : s.membership.Met s where
  objects_le := Nat.le_refl _
  models_le := Nat.le_refl _
  object := by
    intro id o h o₀ h₀
    rw [h, Option.some.injEq] at h₀
    rw [h₀]
  model _ m h _ _ hmember := ⟨m, h, hmember⟩

theorem memberAt_of_met {s s' : Store} (hmet : s.membership.Met s')
    {modelId position objectId : Nat} (h : s'.MemberAt modelId position objectId) :
    s.MemberAt modelId position objectId := by
  rcases h with ⟨m, hm, hmember⟩
  exact hmet.model modelId m hm position objectId hmember

theorem InOrder.of_met {s s' : Store} {modelId : Nat} (h : s.InOrder modelId)
    (hmet : s.membership.Met s') : s'.InOrder modelId := by
  intro position objectId hmember
  rcases h position objectId (memberAt_of_met hmet hmember) with ⟨o, ho, hindex⟩
  have hlt : objectId < s'.objects.size :=
    Nat.lt_of_lt_of_le (Array.getElem?_eq_some_iff.1 ho).1 hmet.objects_le
  have ho' := Array.getElem?_eq_getElem hlt
  exact ⟨_, ho', (hmet.object objectId _ ho' o ho).trans hindex⟩

theorem Owned.inOrder {s : Store} (h : s.Owned) (modelId : Nat) : s.InOrder modelId :=
  fun _ _ hmember => h.index hmember

/-- A store with the same members, and the same indices, has its members in order. -/
theorem Owned.of_met {s s' : Store} (h : s.Owned) (hmet : s.membership.Met s') : s'.Owned := by
  constructor
  · intro modelId position objectId hmember
    exact (h.inOrder modelId).of_met hmet position objectId hmember
  · intro modelId position modelId' position' objectId hmember hmember'
    exact h.once (memberAt_of_met hmet hmember) (memberAt_of_met hmet hmember')

/-! ## Taking an object -/

section Place

variable {s : Store} {modelId objectId : Nat} {m : Model} {o : Object}

theorem run_place_of_unplaced (ho : s.objects[objectId]? = some o)
    (hm : s.models[modelId]? = some m) (h : o.header.index = Entity.unplaced) :
    (place modelId objectId).run s =
      (.ok m.members.length, s.placed modelId objectId m o) := by
  have first : (object objectId).run s = (.ok o, s) := by simp only [object, ho]
  have second : (model modelId).run s = (.ok m, s) := by simp only [model, hm]
  rw [place, Action.run_bind_of_ok first, Action.run_bind_of_ok second, if_pos h]
  rfl

/-- An object is taken if it has no index, and in every other case nothing changes. -/
theorem run_place_cases (s : Store) (modelId objectId : Nat) :
    (∃ fault, (place modelId objectId).run s = (.error fault, s)) ∨
      ∃ o m, s.objects[objectId]? = some o ∧ s.models[modelId]? = some m ∧
        o.header.index = Entity.unplaced ∧
        (place modelId objectId).run s =
          (.ok m.members.length, s.placed modelId objectId m o) := by
  cases ho : s.objects[objectId]? with
  | none =>
    have first : (object objectId).run s = (.error .unsupported, s) := by simp only [object, ho]
    exact Or.inl ⟨_, by rw [place, Action.run_bind_of_error first]⟩
  | some o =>
    cases hm : s.models[modelId]? with
    | none =>
      have first : (object objectId).run s = (.ok o, s) := by simp only [object, ho]
      have second : (model modelId).run s = (.error .unsupported, s) := by simp only [model, hm]
      refine Or.inl ⟨.unsupported, ?_⟩
      rw [place, Action.run_bind_of_ok first, Action.run_bind_of_error second]
    | some m =>
      by_cases h : o.header.index = Entity.unplaced
      · exact Or.inr ⟨o, m, rfl, rfl, h, run_place_of_unplaced ho hm h⟩
      · exact Or.inl ⟨_, run_place_of_placed ho hm h⟩

/-- The members after a model took an object are those before and that object. -/
theorem memberAt_placed (hm : s.models[modelId]? = some m) {modelId' position objectId' : Nat}
    (h : (s.placed modelId objectId m o).MemberAt modelId' position objectId') :
    s.MemberAt modelId' position objectId' ∨
      modelId' = modelId ∧ position = m.members.length ∧ objectId' = objectId := by
  rcases h with ⟨m', hm', hmember⟩
  rw [placed, Array.getElem?_setIfInBounds] at hm'
  by_cases hsame : modelId = modelId'
  · subst hsame
    rw [if_pos rfl, if_pos (Array.getElem?_eq_some_iff.1 hm).1, Option.some.injEq] at hm'
    subst hm'
    rw [List.getElem?_append] at hmember
    split at hmember
    · exact Or.inl ⟨m, hm, hmember⟩
    · rename_i hpast
      rcases List.getElem?_eq_some_iff.1 hmember with ⟨hlt, hlast⟩
      rw [List.length_singleton] at hlt
      rw [List.getElem_singleton] at hlast
      exact Or.inr ⟨rfl, by omega, hlast.symm⟩
  · rw [if_neg hsame] at hm'
    exact Or.inl ⟨m', hm', hmember⟩

/-- An object without an index is no member where members have indices. -/
theorem InOrder.not_memberAt {modelId' position : Nat} (h : s.InOrder modelId')
    (ho : s.objects[objectId]? = some o) (hindex : o.header.index = Entity.unplaced) :
    ¬ s.MemberAt modelId' position objectId := by
  intro hmember
  rcases h position objectId hmember with ⟨o', ho', hposition⟩
  rw [ho, Option.some.injEq] at ho'
  rw [← ho', hindex] at hposition
  exact absurd hposition (by unfold Entity.unplaced; omega)

/-- Taking an object without an index keeps the members of every model in order. -/
theorem InOrder.placed {modelId' : Nat} (h : s.InOrder modelId')
    (ho : s.objects[objectId]? = some o) (hm : s.models[modelId]? = some m)
    (hindex : o.header.index = Entity.unplaced) :
    (s.placed modelId objectId m o).InOrder modelId' := by
  intro position objectId' hmember
  rcases memberAt_placed hm hmember with hold | ⟨-, rfl, rfl⟩
  · have hne : objectId ≠ objectId' := by
      rintro rfl
      exact h.not_memberAt ho hindex hold
    rcases h position objectId' hold with ⟨o', ho', hposition⟩
    refine ⟨o', ?_, hposition⟩
    rw [Store.placed, Array.getElem?_setIfInBounds_ne hne]
    exact ho'
  · have hlt := (Array.getElem?_eq_some_iff.1 ho).1
    refine ⟨_, Array.getElem?_setIfInBounds_self_of_lt hlt, ?_⟩
    rw [Object.mapHeader, Object.header_setHeader]

/-- Taking an object without an index keeps the members in order: the object was no member, since
a member has an index. -/
theorem Owned.placed (h : s.Owned) (ho : s.objects[objectId]? = some o)
    (hm : s.models[modelId]? = some m) (hindex : o.header.index = Entity.unplaced) :
    (s.placed modelId objectId m o).Owned := by
  have hfresh : ∀ {modelId' position}, ¬ s.MemberAt modelId' position objectId :=
    fun {modelId' _} => (h.inOrder modelId').not_memberAt ho hindex
  constructor
  · intro modelId' position objectId' hmember
    exact (h.inOrder modelId').placed ho hm hindex position objectId' hmember
  · intro modelId₁ position₁ modelId₂ position₂ objectId' hmember₁ hmember₂
    rcases memberAt_placed hm hmember₁ with hold₁ | ⟨rfl, rfl, rfl⟩
    · rcases memberAt_placed hm hmember₂ with hold₂ | ⟨-, -, rfl⟩
      · exact h.once hold₁ hold₂
      · exact absurd hold₁ hfresh
    · rcases memberAt_placed hm hmember₂ with hold₂ | ⟨rfl, rfl, -⟩
      · exact absurd hold₂ hfresh
      · exact ⟨rfl, rfl⟩

end Place

end Store

/-! ## Offers -/

namespace Workspace

variable {w : Workspace}

/-- An offer is the taking of an object, or changes nothing. -/
theorem run_offer_cases (refs : References) (w : Workspace) :
    (∃ fault, ((Task.model .place).run refs).run w = (.error fault, w)) ∨
      ∃ modelId objectId o m, w.store.objects[objectId]? = some o ∧
        w.store.models[modelId]? = some m ∧ o.header.index = Entity.unplaced ∧
        ((Task.model .place).run refs).run w = (.ok { answer := .whole m.members.length },
          { w with store := w.store.placed modelId objectId m o }) := by
  rw [Task.run, ModelTask.run]
  rcases Handle.modelId_cases refs.self with hfail | ⟨modelId, hid⟩
  · exact Or.inl ⟨.unsupported, by rw [hfail]; rfl⟩
  · rw [hid, Action.run_bind_of_ok (Action.run_pure modelId w)]
    cases hm : w.store.models[modelId]? with
    | none => exact Or.inl ⟨_, by rw [Action.run_bind_of_error (run_model_of_none hm)]⟩
    | some m =>
      rw [Action.run_bind_of_ok (run_model hm)]
      dsimp only
      unfold ModelTask.placeInto
      split
      · rename_i objectId hsource
        rw [Action.run_bind, run_onStore]
        rcases w.store.run_place_cases modelId objectId with
          ⟨fault, hrefused⟩ | ⟨o, m', ho, hm', hindex, htaken⟩
        · rw [hrefused]
          exact Or.inl ⟨fault, rfl⟩
        · rw [htaken]
          exact Or.inr ⟨modelId, objectId, o, m', ho, hm', hindex, rfl⟩
      · exact Or.inl ⟨_, rfl⟩
      · exact Or.inl ⟨_, rfl⟩

/-- An object is refused exactly if it has an index. -/
theorem run_offer {modelId objectId : Nat} {m : Model} {o : Object}
    (hm : w.store.models[modelId]? = some m) (ho : w.store.objects[objectId]? = some o) :
    ((Task.model .place).run
        { self := some (.model modelId), source := some (.object objectId) }).run w =
      if o.header.index = Entity.unplaced then
        (.ok { answer := .whole m.members.length },
          { w with store := w.store.placed modelId objectId m o })
      else (.error (.alreadyPlaced o.header.index), w) := by
  have hself : (Handle.modelId (some (.model modelId))).run w = (.ok modelId, w) := rfl
  rw [Task.run, ModelTask.run, Action.run_bind_of_ok hself, Action.run_bind_of_ok (run_model hm)]
  dsimp only
  rw [ModelTask.placeInto, Action.run_bind, run_onStore]
  by_cases hindex : o.header.index = Entity.unplaced
  · rw [if_pos hindex, Store.run_place_of_unplaced ho hm hindex]
    rfl
  · rw [if_neg hindex, Store.run_place_of_placed ho hm hindex]

end Workspace

/-! ## Runs -/

/-- A task that sets no index leaves the members with their indices, or takes an object that has
none. -/
theorem Task.membership_cases {t : Task} (ht : t.setsNoIndex = true) (refs : References)
    (w : Workspace) :
    w.store.membership.Met ((t.run refs).run w).2.store ∨
      ∃ modelId objectId o m, w.store.objects[objectId]? = some o ∧
        w.store.models[modelId]? = some m ∧ o.header.index = Entity.unplaced ∧
        ((t.run refs).run w).2.store = w.store.placed modelId objectId m o := by
  by_cases hplace : t = .model .place
  · subst hplace
    rcases Workspace.run_offer_cases refs w with
      ⟨fault, hrefused⟩ | ⟨modelId, objectId, o, m, ho, hm, hindex, htaken⟩
    · rw [hrefused]
      exact Or.inl w.store.met_membership
    · rw [htaken]
      exact Or.inr ⟨modelId, objectId, o, m, ho, hm, hindex, rfl⟩
  · have hkept : Action.Keeps w.store.membership.MetIn (t.run refs) := by
      by_cases hseed : ∃ d, t = .model (.set .seed d)
      · rcases hseed with ⟨d, rfl⟩
        refine ModelTask.keeps_set (fun hm hset => ?_) refs
        show ∀ position objectId, _ → _
        rw [Model.members_of_setField hset]
        exact hm
      · refine t.keeps (fun d hd => hseed ⟨d, hd⟩) (Or.inl ?_) refs
        cases t with
        | object t => exact ht
        | model t =>
          cases t with
          | place => exact absurd rfl hplace
          | _ => rfl
        | _ => rfl
    exact Or.inl (hkept w w.store.met_membership)

/-- A task that sets no index keeps the members in order. -/
theorem Task.owned {t : Task} (ht : t.setsNoIndex = true) (refs : References) {w : Workspace}
    (h : w.store.Owned) : ((t.run refs).run w).2.store.Owned := by
  rcases Task.membership_cases ht refs w with hmet | ⟨_, _, o, m, ho, hm, hindex, htaken⟩
  · exact h.of_met hmet
  · rw [htaken]
    exact h.placed ho hm hindex

namespace Workspace

/-- What every task that sets no index keeps of the store is kept by all steps with such tasks. -/
theorem store_after {P : Store → Prop}
    (htask : ∀ (t : Task) (refs : References) (w : Workspace), t.setsNoIndex = true → P w.store →
      P ((t.run refs).run w).2.store)
    {w : Workspace} {steps : List Step} (hsteps : ∀ s ∈ steps, s.task.setsNoIndex = true)
    (h : P w.store) : P (w.after steps).store := by
  induction steps generalizing w with
  | nil => exact h
  | cons s steps ih =>
    rw [List.forall_mem_cons] at hsteps
    refine ih hsteps.2 ?_
    cases hrefs : w.references s with
    | error name =>
      rw [perform_of_unknown hrefs]
      exact h
    | ok refs =>
      rw [store_perform hrefs]
      exact htask s.task refs w hsteps.1 h

theorem owned_of_steps {w : Workspace} {steps : List Step}
    (hsteps : ∀ s ∈ steps, s.task.setsNoIndex = true) (h : w.store.Owned) :
    (w.after steps).store.Owned :=
  store_after (fun _ refs _ ht => Task.owned ht refs) hsteps h

/-- With models that had no members, and any objects, members are in order after all tasks that set
no index.  An offer that fails changes nothing, and it fails exactly if the object has an index. -/
theorem owned_after {w : Workspace} {steps : List Step}
    (hnew : ∀ (id : Nat) (m : Model), w.store.models[id]? = some m → m.members = [])
    (hsteps : ∀ s ∈ steps, s.task.setsNoIndex = true) :
    let w' := w.after steps
    w'.store.Owned ∧
      (∀ refs fault w'', ((Task.model .place).run refs).run w' = (.error fault, w'') → w'' = w') ∧
      ∀ modelId m objectId o, w'.store.models[modelId]? = some m →
        w'.store.objects[objectId]? = some o →
          ((Task.model .place).run
              { self := some (.model modelId), source := some (.object objectId) }).run w' =
            if o.header.index = Entity.unplaced then
              (.ok { answer := .whole m.members.length },
                { w' with store := w'.store.placed modelId objectId m o })
            else (.error (.alreadyPlaced o.header.index), w') := by
  intro w'
  refine ⟨owned_of_steps hsteps (Store.owned_of_no_members hnew), ?_, ?_⟩
  · intro refs fault w'' hfailed
    rcases run_offer_cases refs w' with ⟨fault', hrefused⟩ | ⟨_, _, _, _, -, -, -, htaken⟩
    · rw [hrefused] at hfailed
      cases hfailed
      rfl
    · rw [htaken] at hfailed
      cases hfailed
  · intro modelId m objectId o hm ho
    exact run_offer hm ho

/-- A run in which a column, its copies and what is read from a buffer are offered to two models. -/
def sharedPool : List Step := [
  { task := .newModel [], result := some "first" },
  { task := .newModel [], result := some "second" },
  { task := .newObject .column {}, result := some "column" },
  { task := .object .clone, self := some "column", result := some "fresh copy" },
  { task := .encode, self := some "column", result := some "buffer" },
  { task := .model .place, self := some "first", source := some "column" },
  { task := .model .place, self := some "first", source := some "column" },
  { task := .model .place, self := some "second", source := some "column" },
  { task := .object .clone, self := some "column", result := some "copy" },
  { task := .model .place, self := some "second", source := some "copy" },
  { task := .decode none, source := some "buffer", result := some "decoded" },
  { task := .model .place, self := some "first", source := some "decoded" },
  { task := .model .place, self := some "second", source := some "fresh copy" }]

theorem owned_after_sharedPool :
    (initial.after sharedPool).store.Owned ∧
      (initial.after sharedPool).store.models.toList.map Model.members = [[0, 3], [1]] ∧
      (initial.after sharedPool).store.objects.toList.map (·.header.index) = [0, 0, 0, 1] := by
  have hsteps : ∀ s ∈ sharedPool, s.task.setsNoIndex = true := by decide
  have hnew : ∀ (id : Nat) (m : Model), initial.store.models[id]? = some m → m.members = [] := by
    intro id m h
    cases h
  refine ⟨(owned_after hnew hsteps).1, ?_, ?_⟩
  · decide +kernel
  · decide +kernel

end Workspace

end BranchBound
