import BranchBound.Wire.Request
import BranchBound.Workspace.Basic

/-!
# Answers

What a task answers, and what it makes.  An answer is a value, a list of answers, or the state of
something alive.  What a task makes can be given a name.

Main results:

- Definitions `Workspace.outline?` and `Workspace.onWeights`: what a reference to a model is good
  for.
-/

namespace BranchBound

/-- The state of something alive. -/
inductive View where
  /-- Of an object. -/
  | object (o : Object)
  /-- Of a buffer. -/
  | buffer (b : Buffer)
  /-- Of a model. -/
  | model (m : Model)
  /-- Of a solution. -/
  | solution (s : Solution Binary64)
  /-- Of a branching. -/
  | branch (b : Branch (Option Binary64))

/-- What a task answers. -/
inductive Answer where
  /-- Nothing. -/
  | nothing
  /-- A truth value. -/
  | flag (b : Bool)
  /-- An integer. -/
  | whole (n : Int)
  /-- A number. -/
  | real (x : Binary64)
  /-- A text. -/
  | text (s : String)
  /-- Bytes. -/
  | bytes (bs : List UInt8)
  /-- Several answers. -/
  | list (answers : List Answer)
  /-- A state. -/
  | view (v : View)
  /-- What was read, by its kind and its state. -/
  | decoded (kind : Kind) (v : View)

namespace Answer

/-- Several numbers. -/
def reals (xs : List Binary64) : Answer := list (xs.map real)

/-- The ends of a range. -/
def range (i : Interval Binary64) : Answer := reals [i.lower, i.upper]

/-- The ends of a range, where they are there. -/
def openRange (i : Interval (Option Binary64)) : Answer :=
  let number : Option Binary64 → Answer
    | some x => real x
    | none => nothing
  list [number i.lower, number i.upper]

/-- The name of a direction, if there is one. -/
def direction : Option Direction → Answer
  | some d => text d.name
  | none => nothing

/-- What a buffer answered. -/
def ofReply : Buffer.Reply → Answer
  | .done => nothing
  | .whole n => whole n
  | .real x => real x
  | .char c => text (String.singleton c)
  | .wholes ns => list (ns.map whole)
  | .reals xs => reals xs

end Answer

/-- The outcome of a task that succeeded. -/
structure Outcome where
  /-- What it answers. -/
  answer : Answer := .nothing
  /-- What it made. -/
  made : Option Handle := none

/-- What a task refers to. -/
structure References where
  /-- What the task is asked of. -/
  self : Option Handle := none
  /-- The model that it is asked against. -/
  model : Option Handle := none
  /-- What it takes something from. -/
  source : Option Handle := none
  /-- What it puts something into. -/
  target : Option Handle := none

/-- A task, carried out in a workspace. -/
abbrev Work := Action Workspace Outcome

namespace Handle

/-- The object referred to. -/
def objectId : Option Handle → Action Workspace Nat
  | some (object id) => return id
  | _ => .fail .unsupported

/-- The buffer referred to. -/
def bufferId : Option Handle → Action Workspace Nat
  | some (buffer id) => return id
  | _ => .fail .unsupported

/-- The model referred to. -/
def modelId : Option Handle → Action Workspace Nat
  | some (model id) => return id
  | _ => .fail .unsupported

end Handle

namespace Workspace

/-- The state of what a handle stands for. -/
def view (w : Workspace) : Handle → Option View
  | .object id => w.store.objects[id]?.map .object
  | .buffer id => w.store.buffers[id]?.map .buffer
  | .model id => w.store.models[id]?.map .model
  | .solution s => some (.solution s)
  | .branch b => some (.branch b)

/-- What a reference to a model tells of a relaxation; only a model tells something. -/
def outline? (handle : Option Handle) : Action Workspace Outline? :=
  match handle with
  | some (.model id) => do return some (← onStore (Store.model id)).relaxation
  | _ => return none

/-- An action on the weights of a reference to a model: the default ones where nothing is referred
to, and none where something else than a model is. -/
def onWeights {α : Type} (handle : Option Handle) (x : Action WeightSource α) :
    Action Workspace α :=
  match handle with
  | some (.model id) => onStore (Store.onWeights id x)
  | none => .ofExcept (x.run .standard).1
  | some _ => .ofExcept (x.run .absent).1

/-- An outcome that makes a new object. -/
def makeObject (o : Object) : Work := do
  let id ← onStore (Store.newObject o)
  return ⟨.view (.object o), some (.object id)⟩

/-- An outcome that makes a new buffer. -/
def makeBuffer (b : Buffer) : Work := do
  let id ← onStore (Store.newBuffer b)
  return ⟨.view (.buffer b), some (.buffer id)⟩

/-- An outcome that makes a new model. -/
def makeModel (m : Model) : Work := do
  let id ← onStore (Store.newModel m)
  return ⟨.view (.model m), some (.model id)⟩

/-- The outcome that a solution was made. -/
def makeSolution (s : Solution Binary64) : Outcome :=
  ⟨.view (.solution s), some (.solution s)⟩

/-- The outcome that a branching was made, or none. -/
def makeBranch : Option (Branch Binary64) → Outcome
  | some b => ⟨.view (.branch b.allowGaps), some (.branch b.allowGaps)⟩
  | none => {}

/-- What a write adds to a buffer. -/
def appended (id : Nat) (write : Action Buffer Unit) : Action Workspace (List UInt8) :=
  onStore <| Store.onBuffer id do
    let before ← .state
    write
    let after ← .state
    return after.bytes.drop before.size

end Workspace

end BranchBound
