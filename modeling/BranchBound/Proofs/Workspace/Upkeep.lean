import BranchBound.Proofs.Weights.Hashing
import BranchBound.Workspace.Task

/-!
# What tasks keep up

A requirement says what has to hold of the objects and of the models of a store, each under its
reference.  It asks nothing of an object that is new, and nothing of a new model but that it has no
members and a coherent cache.  What it asks of an object stays true when the object is revised, with
its terms and its index as they were, and what it asks of a model when weights are drawn or the
relaxation changes.

Almost every task does no more than that to a store, and so keeps up every requirement.  Four tasks
do more: one sets the index of an object, one reads the header of an object from a buffer, one takes
an object into a model, and one sets the seed of a model.  The first three still keep up those
requirements that look neither at headers nor at members.

Main results:

- Theorem `Object.revises_of_fix` and its likes: what is done to an object revises it.
- Theorem `Task.keeps`: a steady task keeps up every requirement.
-/

namespace BranchBound

/-! ## Revised objects -/

namespace Object

/-- The terms of an object; what is no row has none. -/
def terms : Object → List Int × List Binary64
  | row r => (r.indices, r.coefficients)
  | _ => ([], [])

/-- An object with the terms and the index of another. -/
structure Revises (o' o : Object) : Prop where
  terms : o'.terms = o.terms
  index : o'.header.index = o.header.index

@[simp] theorem terms_setHeader (e : Entity Binary64) (o : Object) :
    (o.setHeader e).terms = o.terms := by
  cases o <;> rfl

theorem revises_setHeader {o : Object} {e : Entity Binary64} (h : e.index = o.header.index) :
    (o.setHeader e).Revises o :=
  ⟨terms_setHeader e o, by rw [header_setHeader, h]⟩

theorem index_of_setField {field : Field} {d : Datum} {e e' : Entity Binary64}
    (hfield : field ≠ .index) (h : setField field d e = .ok e') : e'.index = e.index := by
  cases field with
  | index => exact absurd rfl hfield
  | representation | integrality | hardLower | hardUpper | softLower | softUpper =>
    rcases exists_of_map_eq_ok h with ⟨x, -, rfl⟩
    rfl

theorem revises_of_fix {o o' : Object} {m : Outline?} (h : o.fix m = .ok o') : o'.Revises o := by
  cases o with
  | entity e | primal e | dual e =>
    cases h
    exact ⟨rfl, rfl⟩
  | column c =>
    cases m with
    | none =>
      simp only [fix, Column.ask] at h
      split at h <;> cases h
      exact ⟨rfl, rfl⟩
    | some x =>
      rcases exists_of_bind_eq_ok h with ⟨r, -, hfix⟩
      cases hfix
      refine ⟨rfl, ?_⟩
      show (c.fix r).index = c.index
      unfold Column.fix
      split <;> rfl
  | row r =>
    rcases exists_of_map_eq_ok h with ⟨activity, -, rfl⟩
    exact ⟨rfl, rfl⟩

theorem revises_of_observe {o o' : Object} {direction : Direction} {improvement distance : Datum}
    (h : o.observe direction improvement distance = .ok o') : o'.Revises o := by
  cases o with
  | entity e | primal e | dual e | row r => cases h
  | column c =>
    rcases exists_of_bind_eq_ok h with ⟨d, -, hrest⟩
    split at hrest
    · cases hrest
      exact ⟨rfl, rfl⟩
    · rcases exists_of_bind_eq_ok hrest with ⟨i, -, hrest⟩
      rcases exists_of_bind_eq_ok hrest with ⟨c', hobserve, hdone⟩
      cases hdone
      exact ⟨rfl, congrArg Entity.index (Column.toEntity_of_observe hobserve)⟩

end Object

namespace Branch

theorem keeps_ofEnd {P : Entity Binary64 → Prop} (x : Option Binary64) :
    Action.Keeps P (ofEnd x) := by
  cases x with
  | none => exact Action.keeps_fail _
  | some x => exact Action.keeps_pure x

/-- A branching sets bounds and a flag, also where it fails. -/
theorem index_applyEnds (b : Branch (Option Binary64)) (direction : Direction)
    (e : Entity Binary64) : ((b.applyEnds direction).run e).2.index = e.index := by
  have hkept : Action.Keeps (fun e' : Entity Binary64 => e'.index = e.index)
      (b.applyEnds direction) := by
    refine Action.ensures_state.bind_keeps fun e' _ => ?_
    split
    · refine (keeps_ofEnd _).bind fun lower => ?_
      refine Action.Keeps.bind (Action.keeps_update fun _ h => h) fun _ => ?_
      refine (keeps_ofEnd _).bind fun upper => ?_
      refine Action.Keeps.bind (Action.keeps_update fun _ h => h) fun _ => ?_
      exact Action.keeps_update fun _ h => h
    · exact Action.keeps_fail _
  exact hkept e rfl

end Branch

/-! ## Changed models -/

namespace Model

/-- Only the field for the seed changes the cache. -/
theorem weights_of_setField {m m' : Model} {field : ModelField} {d : Datum} (h : field ≠ .seed)
    (hset : m.setField field d = .ok m') : m'.weights = m.weights := by
  cases field with
  | seed => exact absurd rfl h
  | solution | sense | integerTolerance | feasibilityTolerance =>
    rcases exists_of_bind_eq_ok hset with ⟨x, -, hdone⟩
    cases hdone
    rfl
  | reducedCosts =>
    simp only [setField] at hset
    split at hset
    · cases hset
      rfl
    · rcases exists_of_bind_eq_ok hset with ⟨x, -, hdone⟩
      cases hdone
      rfl

/-- A new seed leaves the weights that have been drawn. -/
theorem drawn_of_setField {m m' : Model} {field : ModelField} {d : Datum}
    (hset : m.setField field d = .ok m') : m'.weights.drawn = m.weights.drawn := by
  by_cases hseed : field = .seed
  · subst hseed
    rcases exists_of_bind_eq_ok hset with ⟨seed, -, hdone⟩
    cases hdone
    rfl
  · rw [weights_of_setField hseed hset]

/-- No field holds the members. -/
theorem members_of_setField {m m' : Model} {field : ModelField} {d : Datum}
    (hset : m.setField field d = .ok m') : m'.members = m.members := by
  cases field with
  | solution | sense | integerTolerance | feasibilityTolerance | seed =>
    rcases exists_of_bind_eq_ok hset with ⟨x, -, hdone⟩
    cases hdone
    rfl
  | reducedCosts =>
    simp only [setField] at hset
    split at hset
    · cases hset
      rfl
    · rcases exists_of_bind_eq_ok hset with ⟨x, -, hdone⟩
      cases hdone
      rfl

theorem weights_and_members_of_pokeAt {m m' : Model} {index : Datum} {x : Binary64}
    (h : m.pokeAt index x = .ok m') : m'.weights = m.weights ∧ m'.members = m.members := by
  have hpoke : ∀ {i : Int}, m.poke i x = .ok m' →
      m'.weights = m.weights ∧ m'.members = m.members := by
    intro i hi
    unfold poke at hi
    split at hi <;> cases hi
    exact ⟨rfl, rfl⟩
  unfold pokeAt at h
  split at h
  · split at h
    · cases h
    · exact hpoke h
  · cases h

theorem drawn_and_members_of_setFields {m₀ m : Model} {fields : ModelFields}
    (h : fields.foldlM (fun m (field, d) => m.setField field d) m₀ = .ok m) :
    m.weights.drawn = m₀.weights.drawn ∧ m.members = m₀.members := by
  induction fields generalizing m₀ with
  | nil =>
    cases h
    exact ⟨rfl, rfl⟩
  | cons field fields ih =>
    rw [List.foldlM_cons] at h
    rcases exists_of_bind_eq_ok h with ⟨m₁, hset, hrest⟩
    rcases ih hrest with ⟨hdrawn, hmembers⟩
    rw [hdrawn, hmembers, drawn_of_setField hset, members_of_setField hset]
    exact ⟨rfl, rfl⟩

/-- A new model has drawn no weights and has no members. -/
theorem coherent_and_members_of_build {fields : ModelFields} {m : Model}
    (h : build fields = .ok m) : m.weights.Coherent ∧ m.members = [] := by
  unfold build at h
  rcases drawn_and_members_of_setFields h with ⟨hdrawn, hmembers⟩
  rw [WeightCache.Coherent, hdrawn, ofRelaxation]
  exact ⟨Weights.begins_empty _, hmembers⟩

end Model

/-! ## Requirements -/

/-- What has to hold of the objects and the models of a store. -/
structure Requirement where
  /-- How many objects are there at first. -/
  objects : Nat
  /-- How many models are there at first. -/
  models : Nat
  /-- What has to hold of the object of a reference. -/
  object : Nat → Object → Prop
  /-- What has to hold of the model of a reference. -/
  model : Nat → Model → Prop
  new_object : ∀ {id o}, objects ≤ id → object id o
  new_model : ∀ {id m}, models ≤ id → m.weights.Coherent → m.members = [] → model id m
  revised : ∀ {id o o'}, object id o → o'.Revises o → object id o'
  changed : ∀ {id m m'}, model id m → m'.weights = m.weights → m'.members = m.members → model id m'
  drawn : ∀ {id m c}, model id m →
    (∀ A, WeightSource.CoherentIf A (.cache m.weights) → WeightSource.CoherentIf A (.cache c)) →
      model id { m with weights := c }

namespace Requirement

/-- Whether a requirement looks neither at headers nor at members. -/
structure Blind (R : Requirement) : Prop where
  header : ∀ {id o} e, R.object id o → R.object id (o.setHeader e)
  members : ∀ {id m} members, R.model id m → R.model id { m with members }

/-- Whether a store meets a requirement. -/
structure Met (R : Requirement) (s : Store) : Prop where
  objects_le : R.objects ≤ s.objects.size
  models_le : R.models ≤ s.models.size
  object : ∀ id o, s.objects[id]? = some o → R.object id o
  model : ∀ id m, s.models[id]? = some m → R.model id m

/-- Whether the store of a workspace meets a requirement. -/
def MetIn (R : Requirement) (w : Workspace) : Prop := R.Met w.store

end Requirement

/-! ## Stores -/

section Array

variable {α : Type} {xs : Array α} {R : Nat → α → Prop}

/-- What holds of all elements holds after one was replaced, if it holds of the new one. -/
theorem forall_setIfInBounds {i : Nat} {x : α} (h : ∀ j y, xs[j]? = some y → R j y)
    (hx : R i x) : ∀ j y, (xs.setIfInBounds i x)[j]? = some y → R j y := by
  intro j y hy
  rw [Array.getElem?_setIfInBounds] at hy
  by_cases hij : i = j
  · rw [if_pos hij] at hy
    split at hy <;> cases hy
    rwa [← hij]
  · rw [if_neg hij] at hy
    exact h j y hy

/-- What holds of all elements holds after one was added, if it holds of the new one. -/
theorem forall_push {x : α} (h : ∀ j y, xs[j]? = some y → R j y) (hx : R xs.size x) :
    ∀ j y, (xs.push x)[j]? = some y → R j y := by
  intro j y hy
  rw [Array.getElem?_push] at hy
  by_cases hj : j = xs.size
  · rw [if_pos hj, Option.some.injEq] at hy
    rwa [hj, ← hy]
  · rw [if_neg hj] at hy
    exact h j y hy

end Array

variable {R : Requirement} {α : Type}

namespace Store

theorem ensures_object (id : Nat) : Action.Ensures R.Met (object id) (R.object id) := by
  intro s hs
  cases ho : s.objects[id]? with
  | none =>
    simp only [object, ho]
    refine ⟨hs, ?_⟩
    intro o h
    cases h
  | some o =>
    simp only [object, ho]
    refine ⟨hs, ?_⟩
    intro o' ho'
    cases ho'
    exact hs.object id o ho

theorem ensures_model (id : Nat) : Action.Ensures R.Met (model id) (R.model id) := by
  intro s hs
  cases hm : s.models[id]? with
  | none =>
    simp only [model, hm]
    refine ⟨hs, ?_⟩
    intro m h
    cases h
  | some m =>
    simp only [model, hm]
    refine ⟨hs, ?_⟩
    intro m' hm'
    cases hm'
    exact hs.model id m hm

theorem keeps_setObject {id : Nat} {o : Object} (ho : R.object id o) :
    Action.Keeps R.Met (setObject id o) := by
  apply Action.keeps_update
  intro s hs
  refine { hs with objects_le := ?_, object := forall_setIfInBounds hs.object ho }
  rw [Array.size_setIfInBounds]
  exact hs.objects_le

theorem keeps_setModel {id : Nat} {m : Model} (hm : R.model id m) :
    Action.Keeps R.Met (setModel id m) := by
  apply Action.keeps_update
  intro s hs
  refine { hs with models_le := ?_, model := forall_setIfInBounds hs.model hm }
  rw [Array.size_setIfInBounds]
  exact hs.models_le

/-- A new object has a new reference. -/
theorem keeps_newObject (o : Object) : Action.Keeps R.Met (newObject o) := by
  intro s hs
  refine { hs with
    objects_le := ?_, object := forall_push hs.object (R.new_object hs.objects_le) }
  apply Nat.le_trans hs.objects_le
  simp [newObject]

/-- A new model has a new reference. -/
theorem keeps_newModel {m : Model} (hcoherent : m.weights.Coherent) (hmembers : m.members = []) :
    Action.Keeps R.Met (newModel m) := by
  intro s hs
  have hm := R.new_model hs.models_le hcoherent hmembers
  refine { hs with models_le := ?_, model := forall_push hs.model hm }
  apply Nat.le_trans hs.models_le
  simp [newModel]

theorem keeps_newBuffer (b : Buffer) : Action.Keeps R.Met (newBuffer b) := by
  intro s hs
  exact { hs with }

theorem keeps_onBuffer (id : Nat) (x : Action Buffer α) : Action.Keeps R.Met (onBuffer id x) := by
  intro s hs
  cases hb : s.buffers[id]? with
  | none =>
    simp only [onBuffer, hb]
    exact hs
  | some b =>
    simp only [onBuffer, hb]
    exact { hs with }

/-- What keeps every cache coherent keeps up a requirement of models. -/
theorem keeps_onWeights (id : Nat) {x : Action WeightSource α}
    (hx : ∀ A, Action.Keeps (WeightSource.CoherentIf A) x) :
    Action.Keeps R.Met (onWeights id x) := by
  refine (ensures_model id).bind_keeps fun m hm => ?_
  have hsource := fun A => hx A (.cache m.weights)
  refine Action.Keeps.bind (keeps_setModel ?_) fun _ => Action.keeps_ofExcept _
  cases hleft : (x.run (.cache m.weights)).2 with
  | cache c =>
    rw [hleft] at hsource
    exact R.drawn hm hsource
  | standard | absent => exact hm

/-- Taking an object changes a header and members. -/
theorem keeps_place (hR : R.Blind) (modelId objectId : Nat) :
    Action.Keeps R.Met (place modelId objectId) := by
  refine (ensures_object objectId).bind_keeps fun o ho => ?_
  refine (ensures_model modelId).bind_keeps fun m hm => ?_
  split
  · refine Action.Keeps.bind (keeps_setObject (hR.header _ ho)) fun _ => ?_
    exact Action.Keeps.bind (keeps_setModel (hR.members _ hm)) fun _ => Action.keeps_pure _
  · exact Action.keeps_fail _

end Store

/-! ## Parts of tasks -/

namespace Handle

variable {P : Workspace → Prop} (handle : Option Handle)

theorem keeps_objectId : Action.Keeps P (objectId handle) := by
  unfold objectId
  split
  · exact Action.keeps_pure _
  · exact Action.keeps_fail _

theorem keeps_bufferId : Action.Keeps P (bufferId handle) := by
  unfold bufferId
  split
  · exact Action.keeps_pure _
  · exact Action.keeps_fail _

theorem modelId_cases :
    modelId handle = .fail .unsupported ∨ ∃ id, modelId handle = pure id := by
  unfold modelId
  split
  · exact Or.inr ⟨_, rfl⟩
  · exact Or.inl rfl

theorem keeps_modelId : Action.Keeps P (modelId handle) := by
  rcases modelId_cases handle with h | ⟨id, h⟩
  · rw [h]
    exact Action.keeps_fail _
  · rw [h]
    exact Action.keeps_pure _

end Handle

namespace Workspace

theorem ensures_onStore {x : Action Store α} {Q : α → Prop} (h : Action.Ensures R.Met x Q) :
    Action.Ensures R.MetIn (onStore x) Q :=
  h.within (fun _ hw => hw) fun _ _ _ hs => hs

theorem keeps_onStore {x : Action Store α} (h : Action.Keeps R.Met x) :
    Action.Keeps R.MetIn (onStore x) :=
  (ensures_onStore h.ensures).keeps

theorem run_onStore (x : Action Store α) (w : Workspace) :
    (onStore x).run w = ((x.run w.store).1, { w with store := (x.run w.store).2 }) := rfl

theorem run_object {w : Workspace} {id : Nat} {o : Object}
    (ho : w.store.objects[id]? = some o) : (onStore (Store.object id)).run w = (.ok o, w) := by
  rw [onStore, Action.run_within, Store.object]
  simp only [ho]

theorem run_model {w : Workspace} {id : Nat} {m : Model} (hm : w.store.models[id]? = some m) :
    (onStore (Store.model id)).run w = (.ok m, w) := by
  rw [onStore, Action.run_within, Store.model]
  simp only [hm]

theorem run_model_of_none {w : Workspace} {id : Nat} (hm : w.store.models[id]? = none) :
    (onStore (Store.model id)).run w = (.error .unsupported, w) := by
  rw [onStore, Action.run_within, Store.model]
  simp only [hm]

theorem keeps_onBuffer (id : Nat) (x : Action Buffer α) :
    Action.Keeps R.MetIn (onStore (Store.onBuffer id x)) :=
  keeps_onStore (Store.keeps_onBuffer id x)

theorem keeps_outline? (handle : Option Handle) : Action.Keeps R.MetIn (outline? handle) := by
  unfold outline?
  split
  · refine Action.Keeps.bind ?_ fun m => Action.keeps_pure _
    exact keeps_onStore (Store.ensures_model _).keeps
  · exact Action.keeps_pure _

theorem keeps_onWeights (handle : Option Handle) {x : Action WeightSource α}
    (hx : ∀ A, Action.Keeps (WeightSource.CoherentIf A) x) :
    Action.Keeps R.MetIn (onWeights handle x) := by
  unfold onWeights
  split
  · exact keeps_onStore (Store.keeps_onWeights _ hx)
  · exact Action.keeps_ofExcept _
  · exact Action.keeps_ofExcept _

theorem keeps_makeObject (o : Object) : Action.Keeps R.MetIn (makeObject o) :=
  (keeps_onStore (Store.keeps_newObject o)).bind fun _ => Action.keeps_pure _

theorem keeps_makeBuffer (b : Buffer) : Action.Keeps R.MetIn (makeBuffer b) :=
  (keeps_onStore (Store.keeps_newBuffer b)).bind fun _ => Action.keeps_pure _

theorem keeps_makeModel {m : Model} (hm : m.weights.Coherent ∧ m.members = []) :
    Action.Keeps R.MetIn (makeModel m) :=
  (keeps_onStore (Store.keeps_newModel hm.1 hm.2)).bind fun _ => Action.keeps_pure _

theorem keeps_applyTo (id : Nat) (b : Branch (Option Binary64)) (d : Datum) :
    Action.Keeps R.MetIn (applyTo id b d) := by
  refine (ensures_onStore (Store.ensures_object id)).bind_keeps fun o ho => ?_
  dsimp only
  refine Action.Keeps.bind (keeps_onStore (Store.keeps_setObject ?_)) fun _ => ?_
  · exact R.revised ho (Object.revises_setHeader (b.index_applyEnds _ o.header))
  exact (Action.keeps_ofExcept _).bind fun _ => Action.keeps_pure _

theorem keeps_encode (refs : References) : Action.Keeps R.MetIn (encode refs) := by
  refine Action.ensures_state.bind_keeps fun w _ => ?_
  split
  · exact Action.keeps_fail _
  · split
    · refine (Action.keeps_ofExcept _).bind fun b => ?_
      exact (keeps_onStore (Store.keeps_newBuffer b)).bind fun _ => Action.keeps_pure _
    · exact (keeps_onBuffer _ _).bind fun _ => Action.keeps_pure _
    · exact Action.keeps_fail _

theorem keeps_decode (refs : References) (kind : Option Kind) :
    Action.Keeps R.MetIn (decode refs kind) := by
  refine Action.Keeps.bind (Handle.keeps_bufferId _) fun id => ?_
  refine Action.ensures_state.bind_keeps fun w _ => ?_
  refine Action.Keeps.bind (keeps_onBuffer _ _) fun k => ?_
  split
  · exact (keeps_makeObject _).bind fun _ => Action.keeps_pure _
  · exact Action.keeps_pure _

end Workspace

/-! ## Tasks -/

theorem BufferTask.keeps (t : BufferTask) (refs : References) :
    Action.Keeps R.MetIn (t.run refs) :=
  (Handle.keeps_bufferId _).bind fun _ => Workspace.keeps_onBuffer _ _

namespace ObjectTask

/-- Whether a task leaves the index of its object as it is. -/
def steady : ObjectTask → Bool
  | set .index _ | readHeader => false
  | _ => true

theorem keeps_replace {id : Nat} {o : Object} (ho : R.object id o) :
    Action.Keeps R.MetIn (replace id o) :=
  (Workspace.keeps_onStore (Store.keeps_setObject ho)).bind fun _ => Action.keeps_pure _

/-- A header is changed apart from the index. -/
theorem keeps_replace_mapHeader {id : Nat} {o : Object} (ho : R.object id o)
    {f : Entity Binary64 → Entity Binary64} (hf : (f o.header).index = o.header.index) :
    Action.Keeps R.MetIn (replace id (o.mapHeader f)) :=
  keeps_replace (R.revised ho (Object.revises_setHeader hf))

theorem keeps_readHeaderFrom (hR : R.Blind) {id : Nat} {o : Object} (ho : R.object id o)
    (buffer : Nat) : Action.Keeps R.MetIn (readHeaderFrom id o buffer) := by
  refine Action.Keeps.bind (Workspace.keeps_onBuffer _ _) fun read => ?_
  dsimp only
  refine Action.Keeps.bind (Workspace.keeps_onStore (Store.keeps_setObject (hR.header _ ho)))
    fun _ => ?_
  exact (Action.keeps_ofExcept _).bind fun _ => Action.keeps_pure _

/-- A question to an object and a relaxation changes nothing. -/
theorem keeps_question {handle : Option Handle} {question : Outline? → Except Fault α}
    {answer : α → Work} (h : ∀ a, Action.Keeps R.MetIn (answer a)) :
    Action.Keeps R.MetIn (do
      let outline ← Workspace.outline? handle
      let a ← .ofExcept (question outline)
      answer a) :=
  (Workspace.keeps_outline? _).bind fun _ => (Action.keeps_ofExcept _).bind h

theorem keeps {t : ObjectTask} (ht : t.steady = true ∨ R.Blind) (refs : References) :
    Action.Keeps R.MetIn (t.run refs) := by
  refine Action.Keeps.bind (Handle.keeps_objectId _) fun id => ?_
  refine (Workspace.ensures_onStore (Store.ensures_object id)).bind_keeps fun o ho => ?_
  cases t with
  | set field d =>
    have hset : ∀ e, Object.setField field d o.header = .ok e → R.object id (o.setHeader e) := by
      intro e he
      rcases ht with hsteady | hR
      · refine R.revised ho (Object.revises_setHeader (Object.index_of_setField ?_ he))
        rintro rfl
        cases hsteady
      · exact hR.header e ho
    exact (Action.ensures_ofExcept hset).bind_keeps fun _ => keeps_replace
  | setHash d => exact (Action.keeps_ofExcept _).bind fun _ => keeps_replace_mapHeader ho rfl
  | mark d | unmark d =>
    exact (Action.keeps_ofExcept _).bind fun _ => keeps_replace_mapHeader ho rfl
  | resetBounds => exact keeps_replace_mapHeader ho rfl
  | rehash =>
    refine Action.Keeps.bind ?_ fun _ => keeps_replace_mapHeader ho rfl
    exact Workspace.keeps_onWeights _ fun A => Object.keeps_hashing A o
  | clone => exact Workspace.keeps_makeObject o
  | fix =>
    refine Action.Keeps.bind (Workspace.keeps_outline? _) fun outline => ?_
    refine (Action.ensures_ofExcept fun _ h => Object.revises_of_fix h).bind_keeps fun o' ho' => ?_
    exact keeps_replace (R.revised ho ho')
  | observe direction improvement distance =>
    refine (Action.ensures_ofExcept fun _ h => Object.revises_of_observe h).bind_keeps
      fun o' ho' => ?_
    exact keeps_replace (R.revised ho ho')
  | marked d | consistent d | termCount | bracket value tolerance =>
    exact (Action.keeps_ofExcept _).bind fun _ => Action.keeps_pure _
  | boundBranch | estimates => exact Action.keeps_pure _
  | role =>
    dsimp only
    split
    · exact Action.keeps_pure _
    · exact Action.keeps_fail _
  | infeasibility => exact keeps_question fun _ => Action.keeps_pure _
  | split way => exact keeps_question fun _ => Action.keeps_pure _
  | step preferred => exact keeps_question fun _ => Action.keeps_pure _
  | activity => exact keeps_question fun _ => Action.keeps_pure _
  | value =>
    refine keeps_question fun x => ?_
    cases x with
    | none => exact Action.keeps_pure _
    | some x => exact Action.keeps_pure _
  | writeHeader =>
    refine Action.Keeps.bind (Handle.keeps_bufferId _) fun buffer => ?_
    exact (Workspace.keeps_onBuffer _ _).bind fun _ => Action.keeps_pure _
  | readHeader =>
    rcases ht with hsteady | hR
    · cases hsteady
    · exact (Handle.keeps_bufferId _).bind fun _ => keeps_readHeaderFrom hR ho _

end ObjectTask

namespace ModelTask

/-- Whether a task leaves the members of its model as they are. -/
def steady : ModelTask → Bool
  | place => false
  | _ => true

theorem keeps_setModel {id : Nat} {m : Model} (hm : R.model id m) :
    Action.Keeps R.MetIn (Workspace.onStore (Store.setModel id m)) :=
  Workspace.keeps_onStore (Store.keeps_setModel hm)

theorem keeps_placeInto (hR : R.Blind) (model : Nat) (handle : Option Handle) :
    Action.Keeps R.MetIn (placeInto model handle) := by
  unfold placeInto
  split
  · exact (Workspace.keeps_onStore (Store.keeps_place hR _ _)).bind fun _ => Action.keeps_pure _
  · exact Action.keeps_fail _
  · exact Action.keeps_fail _

/-- A field is set, if the requirement admits it. -/
theorem keeps_set {field : ModelField} {d : Datum}
    (h : ∀ {id m m'}, R.model id m → m.setField field d = .ok m' → R.model id m')
    (refs : References) : Action.Keeps R.MetIn ((set field d).run refs) := by
  refine Action.Keeps.bind (Handle.keeps_modelId _) fun id => ?_
  refine (Workspace.ensures_onStore (Store.ensures_model id)).bind_keeps fun m hm => ?_
  refine (Action.ensures_ofExcept fun _ hset => h hm hset).bind_keeps fun m' hm' => ?_
  exact (keeps_setModel hm').bind fun _ => Action.keeps_pure _

theorem keeps {t : ModelTask} (hseed : ∀ d, t ≠ .set .seed d) (ht : t.steady = true ∨ R.Blind)
    (refs : References) : Action.Keeps R.MetIn (t.run refs) := by
  by_cases hset : ∃ field d, t = .set field d
  · rcases hset with ⟨field, d, rfl⟩
    refine keeps_set (fun hm hset => R.changed hm (Model.weights_of_setField ?_ hset)
      (Model.members_of_setField hset)) refs
    rintro rfl
    exact hseed d rfl
  refine Action.Keeps.bind (Handle.keeps_modelId _) fun id => ?_
  refine (Workspace.ensures_onStore (Store.ensures_model id)).bind_keeps fun m hm => ?_
  cases t with
  | set field d => exact absurd ⟨field, d, rfl⟩ hset
  | poke index d =>
    refine (Action.keeps_ofExcept _).bind fun x => ?_
    refine (Action.ensures_ofExcept fun _ h => Model.weights_and_members_of_pokeAt h).bind_keeps
      fun m' hm' => ?_
    exact (keeps_setModel (R.changed hm hm'.1 hm'.2)).bind fun _ => Action.keeps_pure _
  | place =>
    rcases ht with hsteady | hR
    · cases hsteady
    · exact keeps_placeInto hR _ _
  | member index =>
    refine (Action.keeps_ofExcept _).bind fun object => ?_
    refine (Workspace.ensures_onStore (Store.ensures_object object)).bind_keeps fun o _ => ?_
    exact Action.ensures_state.bind_keeps fun _ _ => Action.keeps_pure _
  | weights size =>
    refine Action.Keeps.bind (Workspace.keeps_onStore ?_) fun _ => Action.keeps_pure _
    exact Store.keeps_onWeights _ fun A => WeightSource.keeps_weights A size
  | capture quality => exact (Action.keeps_ofExcept _).bind fun _ => Action.keeps_pure _

end ModelTask

theorem SolutionTask.keeps (t : SolutionTask) (refs : References) :
    Action.Keeps R.MetIn (t.run refs) := by
  unfold run
  split
  · cases t with
    | valueOf index | size => exact Action.keeps_pure _
    | nonzeros tolerance | fractional tolerance =>
      exact (Action.keeps_ofExcept _).bind fun _ => Action.keeps_pure _
  · cases t <;> exact Action.keeps_fail _

namespace Task

/-- Whether a task leaves the indices of objects and the members of models as they are. -/
def steady : Task → Bool
  | object t => t.steady
  | model t => t.steady
  | _ => true

/-- A steady task keeps up every requirement, and the others, but for the setting of a seed, those
that look neither at headers nor at members. -/
theorem keeps {t : Task} (hseed : ∀ d, t ≠ .model (.set .seed d))
    (ht : t.steady = true ∨ R.Blind) (refs : References) :
    Action.Keeps R.MetIn (t.run refs) := by
  cases t with
  | newBuffer b => exact Workspace.keeps_makeBuffer b
  | unframe bs => exact (Action.keeps_ofExcept _).bind Workspace.keeps_makeBuffer
  | buffer t => exact t.keeps refs
  | registered tag =>
    refine Action.ensures_state.bind_keeps fun w _ => ?_
    exact (Action.keeps_ofExcept _).bind fun _ => Action.keeps_pure _
  | register tag kind =>
    refine Action.Keeps.bind (Action.keeps_update ?_) fun _ => Action.keeps_pure _
    intro w hw
    exact hw
  | decode kind => exact Workspace.keeps_decode refs kind
  | encode => exact Workspace.keeps_encode refs
  | display =>
    refine Action.ensures_state.bind_keeps fun w _ => ?_
    split
    · exact Action.keeps_pure _
    · exact Action.keeps_fail _
  | newObject kind fields => exact (Action.keeps_ofExcept _).bind Workspace.keeps_makeObject
  | object t => exact ObjectTask.keeps ht refs
  | newBranch index way value down up =>
    refine (Action.keeps_ofExcept _).bind fun _ => ?_
    refine (Action.keeps_ofExcept _).bind fun _ => ?_
    exact (Action.keeps_ofExcept _).bind fun _ => Action.keeps_pure _
  | apply direction =>
    show Action.Keeps _ (Workspace.apply refs direction)
    unfold Workspace.apply
    split
    · exact Workspace.keeps_applyTo _ _ _
    · exact Action.keeps_fail _
    · exact Action.keeps_fail _
  | child direction =>
    show Action.Keeps _ (Workspace.child refs direction)
    unfold Workspace.child
    split
    · exact Action.keeps_pure _
    · exact Action.keeps_fail _
  | newModel fields =>
    refine (Action.ensures_ofExcept fun _ h => Model.coherent_and_members_of_build h).bind_keeps ?_
    exact fun _ hm => Workspace.keeps_makeModel hm
  | model t =>
    refine ModelTask.keeps ?_ ht refs
    rintro d rfl
    exact hseed d rfl
  | newSolution values quality indices =>
    exact (Action.keeps_ofExcept _).bind fun _ => Action.keeps_pure _
  | solution t => exact t.keeps refs
  | refuse receiver cause =>
    intro w hw
    rw [Task.run_refuse]
    exact hw

end Task

namespace Workspace

@[simp] theorem store_bind (w : Workspace) (name : String) (h : Handle) :
    (w.bind name h).store = w.store := rfl

@[simp] theorem store_named (w : Workspace) (name : Option String) (made : Option Handle) :
    (w.named name made).store = w.store := by
  unfold named
  split <;> simp

/-- A step changes the store as its task does. -/
theorem store_perform {w : Workspace} {s : Step} {refs : References}
    (h : w.references s = .ok refs) :
    (w.perform s).2.store = ((s.task.run refs).run w).2.store := by
  unfold perform
  rw [h]
  dsimp only
  split <;> simp_all

end Workspace

end BranchBound
