import Patchbay.Engine.Edit
import Patchbay.Engine.Restore

/-!
# Edits in place

The edits as they act on the one engine that there is: each writes as it goes, and an error comes
with the engine as it was left. A new state is tried out on the node itself and taken back by hand
if its type is wrong; the connections at lost ports are taken away one after another, and each
could fail when others are gone already. Only a restored graph is built aside and put in place
when it is whole.

Writes between which nothing can fail are one write here.
-/

namespace Patchbay

variable {σ : Type}

/-- An operation that changes the engine as it goes. With an error comes the engine as it was
left. -/
abbrev InPlace (σ : Type) := EStateM Error (Engine σ)

namespace InPlace

variable {α : Type}

def check (x : Except Error α) : InPlace σ α := fun e =>
  match x with
  | .ok a => .ok a e
  | .error err => .error err e

def change (f : Graph σ → Graph σ × α) : InPlace σ α := fun e =>
  .ok (f e.graph).2 (e.withGraph (f e.graph).1)

def write (f : Graph σ → Graph σ) : InPlace σ Unit := change fun g => (f g, ())

def emit (events : List Event) : InPlace σ Unit := modify (·.emit events)

variable [NodeState σ]

def createWith (id : NodeId) (state : σ) : InPlace σ Unit := do
  let type := NodeState.typeName state
  if (← get).registry.has type then
    let g ← check ((← get).graph.insertNode (Node.new id state))
    write fun _ => g
    emit [.nodeCreated id type]
  else throw (.nodeTypeNotFound type)

def create (id : NodeId) (type : String) : InPlace σ Unit := do
  createWith id (← check ((← get).registry.defaultState type))

def remove (id : NodeId) : InPlace σ (List Connection) := do
  let e ← get
  let _ ← check (e.graph.node id)
  let removed ← change fun g =>
    let (wiring, removed) := g.wiring.removeNode id
    ({ g with wiring := wiring }, removed)
  write fun g => { g with nodes := g.nodes.erase id }
  let (changed, first) ← change fun g => g.afterRemoval e.registry id [] removed
  let others ← change fun g => g.invalidateAll changed
  emit (.nodeRemoved id removed :: Event.stateChanges changed
    ++ Event.invalidated (first ++ others))
  modify (·.notify)
  return removed

def dropEdges (r : Registry σ) (node : NodeId) (changed : List NodeId) :
    List Connection → InPlace σ (List NodeId × List NodeId)
  | [] => return (changed, [])
  | c :: rest => do
    let wiring ← check ((← get).graph.wiring.remove c)
    write ({ · with wiring := wiring })
    let (hooked, first) ← change fun g => g.afterEdge r false c
    let (changed, others) ←
      dropEdges r node ((hooked.filter (· != node)).foldl addOnce changed) rest
    return (changed, first ++ others)

/-- Go through with a new state that stands on the node already, in place of the one of `n`. -/
def keepState (id : NodeId) (n : Node σ) (d : Definition σ) (state : σ) :
    InPlace σ (List NodeId) := do
  write (·.modify id fun n => { n with status := if n.claimed then n.status else .idle })
  let first ← change (·.invalidate id)
  let e ← get
  let dropped := e.graph.lostEdges d id n.state state
  let (changed, others) ← dropEdges e.registry id [] dropped
  let invalidated := first ++ others
  emit (.nodeStateChanged id :: dropped.map .disconnected ++ Event.stateChanges changed
    ++ Event.invalidated invalidated)
  return invalidated

/-- Edit the state of a node, and give the list of the nodes that became stale. The edited state
is on the node before it is known whether it will do. -/
def update (id : NodeId) (edit : σ → σ) : InPlace σ (List NodeId) := do
  let e ← get
  let n ← check (e.graph.node id)
  let d ← check (e.registry.get n.typeName)
  let state := edit n.state
  write (·.modify id ({ · with state := state }))
  if state == n.state then return []
  else if NodeState.typeName state == n.typeName then keepState id n d state
  else
    write (·.modify id ({ · with state := n.state }))
    throw (.typeChanged id n.typeName (NodeState.typeName state))

def markStale (id : NodeId) : InPlace σ (List NodeId) := do
  let _ ← check ((← get).graph.node id)
  let invalidated ← change (·.invalidate id)
  emit (Event.invalidated invalidated)
  return invalidated

def rewire (connected : Bool) (wiring : Wiring) (c : Connection) : InPlace σ Unit := do
  let e ← get
  write ({ · with wiring := wiring })
  let (changed, invalidated) ← change fun g => g.afterEdge e.registry connected c
  emit ((if connected then .connected c else .disconnected c)
    :: Event.stateChanges changed ++ Event.invalidated invalidated)

def connect (source sink : PortRef) : InPlace σ Connection := do
  let e ← get
  let start ← check (e.graph.portOn e.registry source .source)
  let stop ← check (e.graph.portOn e.registry sink .sink)
  if start.kind.fits stop.kind then
    let wiring ← check (e.graph.wiring.insert ⟨source, sink⟩)
    rewire true wiring ⟨source, sink⟩
    if e.policy.autoRunOnConnect then modify (·.schedule sink.node)
    return ⟨source, sink⟩
  else throw (.incompatibleKinds start.kind stop.kind)

def disconnect (source sink : PortRef) : InPlace σ Connection := do
  let wiring ← check ((← get).graph.wiring.remove ⟨source, sink⟩)
  rewire false wiring ⟨source, sink⟩
  return ⟨source, sink⟩

def restore (s : Snapshot σ) : InPlace σ Unit := do
  let e ← get
  match s.defects e.registry with
  | [] =>
    let (g, invalidated) := (← check s.graph).normalize
    write fun _ => g
    emit (Event.invalidated invalidated)
    modify (·.notify)
  | defects => throw (.invalidSnapshot defects)

end InPlace

/-! ## Calls -/

inductive Edit (σ : Type) where
  | create (id : NodeId) (type : String)
  | createWith (id : NodeId) (state : σ)
  | remove (id : NodeId)
  | update (id : NodeId) (edit : σ → σ)
  | markStale (id : NodeId)
  | connect (source sink : PortRef)
  | disconnect (source sink : PortRef)
  | restore (s : Snapshot σ)

inductive Reply where
  | done
  | nodes (ids : List NodeId)
  | connections (cs : List Connection)
  deriving DecidableEq, Repr

namespace Edit

variable [NodeState σ]

def apply (e : Engine σ) : Edit σ → Except Error (Engine σ × Reply)
  | .create id type => (e.create id type).map (·, .done)
  | .createWith id state => (e.createWith id state).map (·, .done)
  | .remove id => (e.remove id).map fun (e, cs) => (e, .connections cs)
  | .update id edit => (e.update id edit).map fun (e, ids) => (e, .nodes ids)
  | .markStale id => (e.markStale id).map fun (e, ids) => (e, .nodes ids)
  | .connect source sink => (e.connect source sink).map fun (e, c) => (e, .connections [c])
  | .disconnect source sink => (e.disconnect source sink).map fun (e, c) => (e, .connections [c])
  | .restore s => (e.restore s).map (·, .done)

/-- The edit as it acts in place. -/
def act : Edit σ → InPlace σ Reply
  | .create id type => do
    InPlace.create id type
    return .done
  | .createWith id state => do
    InPlace.createWith id state
    return .done
  | .remove id => return .connections (← InPlace.remove id)
  | .update id edit => return .nodes (← InPlace.update id edit)
  | .markStale id => return .nodes (← InPlace.markStale id)
  | .connect source sink => return .connections [← InPlace.connect source sink]
  | .disconnect source sink => return .connections [← InPlace.disconnect source sink]
  | .restore s => do
    InPlace.restore s
    return .done

end Edit

end Patchbay
