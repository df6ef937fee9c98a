import BranchBound.Model
import BranchBound.Object.Codec

/-!
# The workspace of a search

A workspace holds everything that is alive in a search.  Objects, buffers and models can change
and are held in a store, where a number refers to them; solutions and branchings cannot, and are
held by value.  Names are bound to what they stand for, and a name is bound to one thing at a time.

A model takes an object that has no index, gives it the next one, and refers to it from then on;
an object that has an index is not taken, by this or by another model.

Main results:

- `Workspace.lookup_bind`: a name stands for what it was bound to last.
- `Store.run_place_of_placed`: an object that has an index is not taken, and nothing changes.
-/

namespace BranchBound

/-- What changes during a search. -/
structure Store where
  /-- The objects. -/
  objects : Array Object
  /-- The buffers. -/
  buffers : Array Buffer
  /-- The models. -/
  models : Array Model

namespace Store

/-- The store in which nothing is alive. -/
def empty : Store := ⟨#[], #[], #[]⟩

/-- The object of a reference. -/
def object (id : Nat) : Action Store Object :=
  ⟨fun s =>
    match s.objects[id]? with
    | some o => (.ok o, s)
    | none => (.error .unsupported, s)⟩

/-- The model of a reference. -/
def model (id : Nat) : Action Store Model :=
  ⟨fun s =>
    match s.models[id]? with
    | some m => (.ok m, s)
    | none => (.error .unsupported, s)⟩

/-- Puts another object in the place of a reference. -/
def setObject (id : Nat) (o : Object) : Action Store Unit :=
  .update fun s => { s with objects := s.objects.setIfInBounds id o }

/-- Puts another model in the place of a reference. -/
def setModel (id : Nat) (m : Model) : Action Store Unit :=
  .update fun s => { s with models := s.models.setIfInBounds id m }

/-- A reference to a new object. -/
def newObject (o : Object) : Action Store Nat :=
  ⟨fun s => (.ok s.objects.size, { s with objects := s.objects.push o })⟩

/-- A reference to a new buffer. -/
def newBuffer (b : Buffer) : Action Store Nat :=
  ⟨fun s => (.ok s.buffers.size, { s with buffers := s.buffers.push b })⟩

/-- A reference to a new model. -/
def newModel (m : Model) : Action Store Nat :=
  ⟨fun s => (.ok s.models.size, { s with models := s.models.push m })⟩

/-- An action on the buffer of a reference. -/
def onBuffer {α : Type} (id : Nat) (x : Action Buffer α) : Action Store α :=
  ⟨fun s =>
    match s.buffers[id]? with
    | some b =>
      let (r, b') := x.run b
      (r, { s with buffers := s.buffers.setIfInBounds id b' })
    | none => (.error .unsupported, s)⟩

/-- An action on the weights of a model. -/
def onWeights {α : Type} (id : Nat) (x : Action WeightSource α) : Action Store α := do
  let m ← model id
  let (result, source) := x.run (.cache m.weights)
  setModel id { m with weights := source.cache?.getD m.weights }
  .ofExcept result

/-- A model takes an object and gives it the next index. -/
def place (modelId objectId : Nat) : Action Store Int := do
  let o ← object objectId
  let m ← model modelId
  if o.header.index = Entity.unplaced then
    let index : Int := m.members.length
    setObject objectId (o.mapHeader fun e => { e with index })
    setModel modelId { m with members := m.members ++ [objectId] }
    return index
  else .fail (.alreadyPlaced o.header.index)

/-- An object that has an index is not taken, and nothing changes. -/
theorem run_place_of_placed {s : Store} {modelId objectId : Nat} {o : Object} {m : Model}
    (ho : s.objects[objectId]? = some o) (hm : s.models[modelId]? = some m)
    (h : o.header.index ≠ Entity.unplaced) :
    (place modelId objectId).run s = (.error (.alreadyPlaced o.header.index), s) := by
  have first : (object objectId).run s = (.ok o, s) := by simp [object, ho]
  have second : (model modelId).run s = (.ok m, s) := by simp [model, hm]
  rw [place, Action.run_bind_of_ok first, Action.run_bind_of_ok second]
  simp [h]

end Store

/-- What a name can stand for. -/
inductive Handle where
  /-- An object, by reference. -/
  | object (id : Nat)
  /-- A buffer, by reference. -/
  | buffer (id : Nat)
  /-- A model, by reference. -/
  | model (id : Nat)
  /-- A solution. -/
  | solution (s : Solution Binary64)
  /-- A branching, which may lack some of its numbers. -/
  | branch (b : Branch (Option Binary64))
  deriving DecidableEq

/-- What is alive in a search. -/
structure Workspace where
  /-- What can change. -/
  store : Store
  /-- What names stand for. -/
  names : List (String × Handle)
  /-- What type tags stand for. -/
  registry : Registry

namespace Workspace

/-- The workspace before anything is done. -/
def initial : Workspace := ⟨.empty, [], .initial⟩

/-- What a name stands for. -/
def lookup (w : Workspace) (name : String) : Option Handle :=
  w.names.find? (·.1 = name) |>.map Prod.snd

/-- The workspace with a name bound. -/
def bind (w : Workspace) (name : String) (h : Handle) : Workspace :=
  { w with names := (name, h) :: w.names.filter (·.1 ≠ name) }

/-- The names that stand for an object, in ascending order. -/
def namesOf (w : Workspace) (id : Nat) : List String :=
  (w.names.filter (·.2 = .object id)).map Prod.fst |>.mergeSort (· ≤ ·)

/-- An action on what can change. -/
def onStore {α : Type} (x : Action Store α) : Action Workspace α :=
  x.within Workspace.store fun store w => { w with store }

/-- A name stands for what it was bound to last. -/
@[simp] theorem lookup_bind (w : Workspace) (name : String) (h : Handle) :
    (w.bind name h).lookup name = some h := by
  simp [lookup, bind]

end Workspace

end BranchBound
