import BranchBound.Workspace.ModelTask
import BranchBound.Workspace.ObjectTask

/-!
# Steps in a workspace

A step carries out one task and can give a name to what the task makes.  It first finds what it
refers to, and if one of its names stands for nothing, the step does not take place.  A step that
took place reports its outcome, or why it failed, together with the state in which it left what it
was asked of, and the state of what the names of source and target stand for afterwards.

What a task changed before it failed stays changed; only then no name is given.

Main results:

- `Workspace.perform_of_unknown`: a step with an unknown name changes nothing.
- `Task.run_refuse`: a task with a value that it cannot take does nothing.
-/

namespace BranchBound

/-- What can be asked of a buffer in a workspace. -/
inductive BufferTask where
  /-- Write or read. -/
  | request (r : Buffer.Request)
  /-- Give all bytes. -/
  | bytes
  /-- Give the framed bytes. -/
  | frame

/-- What a task has to be asked of before its values are looked at. -/
inductive Receiver where
  /-- Nothing in particular. -/
  | anything
  /-- A buffer. -/
  | buffer
  /-- An object. -/
  | object
  /-- An object that is a column. -/
  | column
  /-- A model. -/
  | model
  /-- A solution. -/
  | solution
  deriving DecidableEq

/-- What can be done in a workspace. -/
inductive Task where
  /-- Make a buffer. -/
  | newBuffer (b : Buffer)
  /-- Make the buffer of framed bytes. -/
  | unframe (bs : List UInt8)
  /-- Ask something of a buffer. -/
  | buffer (t : BufferTask)
  /-- Tell what kind is registered for a tag. -/
  | registered (tag : String)
  /-- Register a kind for a tag. -/
  | register (tag : String) (kind : Kind)
  /-- Read from a buffer, by its tag or a kind that is given. -/
  | decode (kind : Option Kind)
  /-- Write to a buffer, or to a new one. -/
  | encode
  /-- Show something as text. -/
  | display
  /-- Make an object. -/
  | newObject (kind : Kind) (fields : Fields)
  /-- Ask something of an object. -/
  | object (t : ObjectTask)
  /-- Make a branching, whose numbers may be left out. -/
  | newBranch (index way : Int) (value : Datum) (down up : Interval Datum)
  /-- Apply the branching taken from; with no value, in the direction that it prefers. -/
  | apply (direction : Datum)
  /-- Give the range of a child of a branching. -/
  | child (direction : Datum)
  /-- Make a model. -/
  | newModel (fields : ModelFields)
  /-- Ask something of a model. -/
  | model (t : ModelTask)
  /-- Make a solution. -/
  | newSolution (values quality indices : Datum)
  /-- Ask something of a solution. -/
  | solution (t : SolutionTask)
  /-- Do nothing, because of a value that the task cannot take. -/
  | refuse (receiver : Receiver) (cause : Fault)

namespace BufferTask

/-- Carries out a task on the buffer of a reference. -/
def run (t : BufferTask) (refs : References) : Work := do
  let id ← Handle.bufferId refs.self
  Workspace.onStore <| Store.onBuffer id do
    let before ← .state
    match t with
    | request r =>
      match ← r.run with
      | .done =>
        match r with
        | .rewind => return {}
        | _ => return { answer := .bytes ((← .state).bytes.drop before.size) }
      | reply => return { answer := .ofReply reply }
    | bytes => return { answer := .bytes before.bytes }
    | frame => return { answer := .bytes before.frame }

end BufferTask

namespace Workspace

/-- What a handle stands for, if it can be written. -/
def knowledge (w : Workspace) : Option Handle → Option Knowledge
  | some (.object id) => w.store.objects[id]?.map .object
  | some (.solution s) => some (.solution s)
  | _ => none

/-- Why something cannot be written to what is no buffer.  Only a solution has a size as a buffer
has, and so gets as far as asking for an encoding. -/
def noBuffer (target : Handle) (k : Knowledge) : Fault :=
  match target, k.toBuffer with
  | .solution _, .error (.noEncoding kind) => .noEncoding kind
  | _, _ => .unsupported

/-- Writes what is referred to, to the buffer given or to a new one; only a new one is made. -/
def encode (refs : References) : Work := do
  match (← .state).knowledge refs.self with
  | none => .fail .unsupported
  | some k =>
    match refs.target with
    | none =>
      let b ← .ofExcept k.toBuffer
      let id ← onStore (Store.newBuffer b)
      return ⟨.list [.text b.tag, .bytes b.bytes], some (.buffer id)⟩
    | some (.buffer id) =>
      let bytes ← appended id k.encode
      return { answer := .bytes bytes }
    | some target => .fail (noBuffer target k)

/-- Reads from the buffer referred to. -/
def decode (refs : References) (kind : Option Kind) : Work := do
  let id ← Handle.bufferId refs.source
  let registry := (← .state).registry
  let read := match kind with
    | some kind => kind.decode
    | none => registry.decode
  match ← onStore (Store.onBuffer id read) with
  | .object o =>
    let made ← makeObject o
    return { made with answer := .decoded o.kind (.object o) }
  | .solution s =>
    return { makeSolution s with answer := .decoded .solution (.solution s) }

/-- What a state looks like as text. -/
def shown : View → Option String
  | .object o => some o.shown
  | .buffer b => some b.shown
  | .solution s => some s.shown
  | _ => none

/-- Shows what is referred to as text. -/
def showSelf (refs : References) : Work := do
  let w ← .state
  match (refs.self.bind w.view).bind shown with
  | some s => return { answer := .text s }
  | none => .fail .unsupported

/-- The range of two values, which may be left out. -/
def rangeOf (i : Interval Datum) : Except Fault (Interval (Option Binary64)) := do
  return ⟨← i.lower.toReal?, ← i.upper.toReal?⟩

/-- The range of a child of the branching referred to. -/
def child (refs : References) (direction : Datum) : Work :=
  match refs.self with
  | some (.branch b) => return { answer := .openRange (b.bounds direction.anyDirection) }
  | _ => .fail .unsupported

/-- Applies a branching to an object; with no value given, in the direction that the branching
prefers.  What was set before a fault stays. -/
def applyTo (id : Nat) (b : Branch (Option Binary64)) (d : Datum) : Work := do
  let o ← onStore (Store.object id)
  let direction := match d with
    | .nothing => b.first
    | d => d.anyDirection
  let (result, header) := (b.applyEnds direction).run o.header
  onStore (Store.setObject id (o.setHeader header))
  .ofExcept result
  return {}

/-- Applies the branching referred to.  Another branching also has an index, which has to agree,
but no bounds to be set. -/
def apply (refs : References) (d : Datum) : Work :=
  match refs.self, refs.source with
  | some (.object id), some (.branch b) => applyTo id b d
  | some (.branch self), some (.branch b) =>
    .fail (if self.index = b.index then .unsupported else .foreignBranch b.index self.index)
  | _, _ => .fail .unsupported

/-- Whether a reference is to something that a task has to be asked of. -/
def isReceiver (w : Workspace) : Receiver → Option Handle → Bool
  | .anything, _ => true
  | .buffer, some (.buffer _) => true
  | .object, some (.object _) => true
  | .column, some (.object id) =>
    match w.store.objects[id]? with
    | some (.column _) => true
    | _ => false
  | .model, some (.model _) => true
  | .solution, some (.solution _) => true
  | _, _ => false

/-- Does nothing: what the task is asked of cannot do it, or else the cause given stands. -/
def refuse (receiver : Receiver) (cause : Fault) (refs : References) : Work := do
  let w ← .state
  .fail (if w.isReceiver receiver refs.self then cause else .unsupported)

end Workspace

/-- Carries out a task. -/
def Task.run (t : Task) (refs : References) : Work :=
  match t with
  | newBuffer b => Workspace.makeBuffer b
  | unframe bs => do
    let b ← .ofExcept (Buffer.unframe bs)
    Workspace.makeBuffer b
  | buffer t => t.run refs
  | registered tag => do
    let kind ← .ofExcept ((← .state).registry.find tag)
    return { answer := .text kind.name }
  | register tag kind => do
    .update fun w => { w with registry := w.registry.register tag kind }
    return {}
  | decode kind => Workspace.decode refs kind
  | encode => Workspace.encode refs
  | display => Workspace.showSelf refs
  | newObject kind fields => do
    let o ← .ofExcept (Object.build kind fields)
    Workspace.makeObject o
  | object t => t.run refs
  | newBranch index way value down up => do
    let value ← .ofExcept value.toReal?
    let down ← .ofExcept (Workspace.rangeOf down)
    let up ← .ofExcept (Workspace.rangeOf up)
    let b : Branch (Option Binary64) := { index, way, value, down, up }
    return ⟨.view (.branch b), some (.branch b)⟩
  | apply direction => Workspace.apply refs direction
  | child direction => Workspace.child refs direction
  | newModel fields => do
    let m ← .ofExcept (Model.build fields)
    Workspace.makeModel m
  | model t => t.run refs
  | newSolution values quality indices => do
    let s ← .ofExcept (Solution.build values quality indices)
    return Workspace.makeSolution s
  | solution t => t.run refs
  | refuse receiver cause => Workspace.refuse receiver cause refs

/-- A task with a value that it cannot take does nothing; asked of the wrong thing, it fails for
that and not for the value. -/
theorem Task.run_refuse (receiver : Receiver) (cause : Fault) (refs : References)
    (w : Workspace) :
    ((Task.refuse receiver cause).run refs).run w =
      (.error (if w.isReceiver receiver refs.self then cause else .unsupported), w) := rfl

/-- A task with the names that it refers to and the name for what it makes. -/
structure Step where
  /-- The task. -/
  task : Task
  /-- What it is asked of. -/
  self : Option String := none
  /-- The model that it is asked against. -/
  model : Option String := none
  /-- What it takes from. -/
  source : Option String := none
  /-- What it puts into. -/
  target : Option String := none
  /-- The name for what it makes. -/
  result : Option String := none

/-- What is reported of a step that took place. -/
structure Report where
  /-- What the task answered, or why it failed. -/
  outcome : Except Fault Answer
  /-- The state of what it was asked of. -/
  self : Option View
  /-- The state of what the name of the source stands for. -/
  source : Option View
  /-- The state of what the name of the target stands for. -/
  target : Option View

namespace Workspace

/-- What a name stands for, if there is a name; else the name that stands for nothing. -/
def resolve (w : Workspace) : Option String → Except String (Option Handle)
  | none => .ok none
  | some name =>
    match w.lookup name with
    | some h => .ok (some h)
    | none => .error name

/-- What a step refers to, or the first of its names that stands for nothing. -/
def references (w : Workspace) (s : Step) : Except String References := do
  let self ← w.resolve s.self
  let model ← w.resolve s.model
  let source ← w.resolve s.source
  let target ← w.resolve s.target
  return { self, model, source, target }

/-- The workspace after what was made has its name. -/
def named (w : Workspace) (name : Option String) (made : Option Handle) : Workspace :=
  match name, made with
  | some name, some h => w.bind name h
  | _, _ => w

/-- The state of what a task was asked of; a branching has none that could have changed. -/
def selfView (w : Workspace) : Handle → Option View
  | .branch _ => none
  | h => w.view h

/-- The state of what a name stands for. -/
def namedView (w : Workspace) (name : Option String) : Option View :=
  (name.bind w.lookup).bind w.view

/-- The report of a step that took place, from the workspace after it. -/
def report (w : Workspace) (s : Step) (self : Option Handle) (outcome : Except Fault Answer) :
    Report where
  outcome := outcome
  self := self.bind w.selfView
  source := w.namedView s.source
  target := w.namedView s.target

/-- Takes a step: the report, or the name that stands for nothing, and the workspace after it. -/
def perform (w : Workspace) (s : Step) : Except String Report × Workspace :=
  match w.references s with
  | .error name => (.error name, w)
  | .ok refs =>
    match (s.task.run refs).run w with
    | (.ok outcome, w') =>
      let w' := w'.named s.result outcome.made
      (.ok (w'.report s refs.self (.ok outcome.answer)), w')
    | (.error e, w') => (.ok (w'.report s refs.self (.error e)), w')

/-- A step with an unknown name changes nothing. -/
theorem perform_of_unknown {w : Workspace} {s : Step} {name : String}
    (h : w.references s = .error name) : w.perform s = (.error name, w) := by
  simp [perform, h]

end Workspace

end BranchBound
