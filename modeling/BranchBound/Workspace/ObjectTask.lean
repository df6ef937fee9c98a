import BranchBound.Object.Build
import BranchBound.Object.Search
import BranchBound.Workspace.Answer

/-!
# Tasks on objects

What can be asked of an object in a workspace: to change its fields, flags and bounds, to answer
the questions of a search, and to write or read its header.

Main results:

- `ObjectTask.run_of_self_none`: a task that is asked of nothing fails and changes nothing.
-/

namespace BranchBound

/-- What can be asked of an object. -/
inductive ObjectTask where
  /-- Set a field. -/
  | set (field : Object.Field) (d : Datum)
  /-- Set the hash. -/
  | setHash (d : Datum)
  /-- Set flags. -/
  | mark (d : Datum)
  /-- Clear flags. -/
  | unmark (d : Datum)
  /-- Tell whether it has flags. -/
  | marked (d : Datum)
  /-- Tell whether its bounds are in order. -/
  | consistent (tolerance : Datum)
  /-- Give the valid points next to a value. -/
  | bracket (value tolerance : Datum)
  /-- Set the soft bounds to the hard ones. -/
  | resetBounds
  /-- Tell whether bounding may be branched on. -/
  | boundBranch
  /-- Fix the soft bounds by the relaxation. -/
  | fix
  /-- Renew the hash. -/
  | rehash
  /-- Make a copy. -/
  | clone
  /-- Tell its side. -/
  | role
  /-- Tell what branching is expected to cost. -/
  | estimates
  /-- Tell how far it is from being feasible. -/
  | infeasibility
  /-- Make its branching. -/
  | split (way : Datum)
  /-- Make its step towards a new feasible point. -/
  | step (preferred : Bool)
  /-- Give its value. -/
  | value
  /-- Learn what a branching cost. -/
  | observe (direction improvement distance : Datum)
  /-- Give its activity. -/
  | activity
  /-- Give the number of its terms. -/
  | termCount
  /-- Write its header. -/
  | writeHeader
  /-- Read its header. -/
  | readHeader

namespace ObjectTask

/-- Puts an object in the place of a reference, with nothing to answer. -/
def replace (id : Nat) (o : Object) : Work := do
  Workspace.onStore (Store.setObject id o)
  return {}

/-- The outcome that only answers. -/
def answer (a : Answer) : Work := return { answer := a }

/-- The status of the flags that a value stands for, given to a change of the header. -/
def changeFlags (id : Nat) (o : Object) (d : Datum)
    (f : Entity Binary64 → Status → Entity Binary64) : Work := do
  let status ← .ofExcept d.toStatus
  replace id (o.mapHeader (f · status))

/-- Renews the hash with the weights of a model. -/
def rehashWith (id : Nat) (o : Object) (model : Option Handle) : Work := do
  let hash ← Workspace.onWeights model o.hashing
  replace id (o.mapHeader fun e => { e with hash })

/-- Reads a header from a buffer; what was read before a fault stays. -/
def readHeaderFrom (id : Nat) (o : Object) (buffer : Nat) : Work := do
  let (result, header) ← Workspace.onStore <| Store.onBuffer buffer
    ⟨fun b =>
      let (result, header, b') := Entity.readHeader.run (o.header, b)
      (.ok (result, header), b')⟩
  Workspace.onStore (Store.setObject id (o.setHeader header))
  .ofExcept result
  return {}

/-- Carries out a task on the object of a reference. -/
def run (t : ObjectTask) (refs : References) : Work := do
  let id ← Handle.objectId refs.self
  let o ← Workspace.onStore (Store.object id)
  match t with
  | set field d =>
    let header ← .ofExcept (Object.setField field d o.header)
    replace id (o.setHeader header)
  | setHash d =>
    let hash ← .ofExcept d.toReal
    replace id (o.mapHeader fun e => { e with hash })
  | mark d => changeFlags id o d Entity.mark
  | unmark d => changeFlags id o d Entity.unmark
  | marked d =>
    let status ← .ofExcept d.toStatus
    answer (.flag (o.header.status.contains status))
  | consistent tolerance =>
    let tolerance ← .ofExcept tolerance.toReal
    answer (.flag (o.header.Consistent tolerance))
  | bracket point tolerance =>
    let points ← .ofExcept (o.bracket point tolerance)
    answer (.range points)
  | resetBounds => replace id (o.mapHeader Entity.resetBounds)
  | boundBranch => answer (.flag true)
  | fix =>
    let outline ← Workspace.outline? refs.model
    let o ← .ofExcept (o.fix outline)
    replace id o
  | rehash => rehashWith id o refs.model
  | clone => Workspace.makeObject o
  | role =>
    match o.role? with
    | some r => answer (.list [.whole r.code, .text r.name])
    | none => .fail .unsupported
  | estimates => answer (.range o.estimates)
  | infeasibility =>
    let outline ← Workspace.outline? refs.model
    let (amount, way) ← .ofExcept (o.infeasibility outline)
    answer (.list [.real amount, .direction way])
  | split way =>
    let outline ← Workspace.outline? refs.model
    let branch ← .ofExcept (o.split outline way)
    return Workspace.makeBranch branch
  | step preferred =>
    let outline ← Workspace.outline? refs.model
    let branch ← .ofExcept (o.step outline preferred)
    return Workspace.makeBranch branch
  | value =>
    let outline ← Workspace.outline? refs.model
    match ← .ofExcept (o.value outline) with
    | some x => answer (.real x)
    | none => answer .nothing
  | observe direction improvement distance =>
    let o ← .ofExcept (o.observe direction.anyDirection improvement distance)
    replace id o
  | activity =>
    let outline ← Workspace.outline? refs.model
    let sum ← .ofExcept (o.activity outline)
    answer (.real sum)
  | termCount =>
    let count ← .ofExcept o.termCount
    answer (.whole count)
  | writeHeader =>
    let buffer ← Handle.bufferId refs.target
    let bytes ← Workspace.appended buffer o.header.writeHeader
    answer (.bytes bytes)
  | readHeader =>
    let buffer ← Handle.bufferId refs.source
    readHeaderFrom id o buffer

/-- A task that is asked of nothing fails and changes nothing. -/
theorem run_of_self_none (t : ObjectTask) {refs : References} (h : refs.self = none)
    (w : Workspace) : (t.run refs).run w = (.error .unsupported, w) := by
  have first : (Handle.objectId refs.self).run w = (.error .unsupported, w) := by rw [h]; rfl
  rw [run, Action.run_bind_of_error first]

end ObjectTask

end BranchBound
