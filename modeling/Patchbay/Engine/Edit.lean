import Patchbay.Engine.Basic

/-!
# Edits

The operations that change nodes and connections. Each one checks everything first, then changes
the graph, lets the node types at both ends of a changed connection react, invalidates what
depends on the change, and announces all of it.
-/

namespace Patchbay

variable {σ : Type}

def addOnce (l : List NodeId) (id : NodeId) : List NodeId := if l.contains id then l else l ++ [id]

namespace Graph

variable [NodeState σ]

/-- Let the node type at one end of a connection react to it. The flag says whether the state of
the node changed. -/
def runHook (r : Registry σ) (connected : Bool) (g : Graph σ) (port : PortRef) :
    Graph σ × Bool :=
  match g.node? port.node with
  | none => (g, false)
  | some n =>
    match r.definitions.get? n.typeName with
    | none => (g, false)
    | some d =>
      let state := d.onEdge connected n.state port.port
      (g.modify port.node ({ · with state := state }), !(state == n.state))

/-- Let several ends react in order. The list names the nodes whose states changed, each once,
after those in `changed`. -/
def runHooks (r : Registry σ) (connected : Bool) (g : Graph σ) (changed : List NodeId) :
    List PortRef → Graph σ × List NodeId
  | [] => (g, changed)
  | port :: rest =>
    let (g, reacted) := g.runHook r connected port
    runHooks r connected g (if reacted then addOnce changed port.node else changed) rest

/-- What follows a change of one connection: both ends react, and the sink's node is invalidated
as well as those whose states changed. The lists name the nodes whose states changed, and those
that became stale. -/
def afterEdge (r : Registry σ) (connected : Bool) (g : Graph σ) (c : Connection) :
    Graph σ × List NodeId × List NodeId :=
  let (g, changed) := g.runHooks r connected [] [c.source, c.sink]
  let (g, invalidated) := g.invalidateAll (c.sink.node :: changed)
  (g, changed, invalidated)

/-- What follows the removal of a node with its connections: the other ends react, and the nodes
that read from it are invalidated. -/
def afterRemoval (r : Registry σ) (node : NodeId) (g : Graph σ) (changed : List NodeId) :
    List Connection → Graph σ × List NodeId × List NodeId
  | [] => (g, changed, [])
  | c :: rest =>
    let outgoing := c.source.node == node
    let (g, changed) := g.runHooks r false changed [if outgoing then c.sink else c.source]
    let (g, first) := if outgoing then g.invalidate c.sink.node else (g, [])
    let (g, changed, others) := afterRemoval r node g changed rest
    (g, changed, first ++ others)

/-- Take away the connections of `node` in a list, one after another, with what follows each.
The nodes whose states changed are listed without `node` itself. -/
def dropEdges (r : Registry σ) (node : NodeId) (g : Graph σ) (changed : List NodeId) :
    List Connection → Except Error (Graph σ × List NodeId × List NodeId)
  | [] => .ok (g, changed, [])
  | c :: rest =>
    match g.wiring.remove c with
    | .error err => .error err
    | .ok wiring =>
      let (g, hooked, first) := afterEdge r false { g with wiring := wiring } c
      match dropEdges r node g ((hooked.filter (· != node)).foldl addOnce changed) rest with
      | .error err => .error err
      | .ok (g, changed, others) => .ok (g, changed, first ++ others)

def setState (g : Graph σ) (id : NodeId) (state : σ) : Graph σ :=
  g.modify id fun n => { n with state := state, status := if n.claimed then n.status else .idle }

/-- The connections of a node at ports that it had with one state and does not have with
another. -/
def lostEdges (g : Graph σ) (d : Definition σ) (id : NodeId) (old new : σ) : List Connection :=
  (g.wiring.incoming id ++ g.wiring.outgoing id).filter fun c =>
    let port := if c.sink.node == id then c.sink.port else c.source.port
    d.hasPort old port && !d.hasPort new port

def portOn (r : Registry σ) (g : Graph σ) (port : PortRef) (expected : Direction) :
    Except Error Port := do
  let n ← g.node port.node
  let d ← r.get n.typeName
  match d.port? n.state port.port with
  | none => .error (.portNotFound port)
  | some p => if p.direction = expected then .ok p else .error (.wrongDirection port expected)

end Graph

namespace Engine

variable [NodeState σ]

def createWith (e : Engine σ) (id : NodeId) (state : σ) : Except Error (Engine σ) :=
  let type := NodeState.typeName state
  if e.registry.has type then do
    let g ← e.graph.insertNode (Node.new id state)
    return (e.withGraph g).emit [.nodeCreated id type]
  else .error (.nodeTypeNotFound type)

def create (e : Engine σ) (id : NodeId) (type : String) : Except Error (Engine σ) := do
  e.createWith id (← e.registry.defaultState type)

def remove (e : Engine σ) (id : NodeId) : Except Error (Engine σ × List Connection) := do
  let _ ← e.graph.node id
  let (wiring, removed) := e.graph.wiring.removeNode id
  let g : Graph σ := ⟨e.graph.nodes.erase id, wiring⟩
  let (g, changed, first) := g.afterRemoval e.registry id [] removed
  let (g, others) := g.invalidateAll changed
  let events := .nodeRemoved id removed :: Event.stateChanges changed
    ++ Event.invalidated (first ++ others)
  return (((e.withGraph g).emit events).notify, removed)

/-- Give a node another state of its type, and give the list of the nodes that became stale. The
connections at ports that the new state does not have are removed. -/
def replaceState (e : Engine σ) (id : NodeId) (n : Node σ) (d : Definition σ)
    (state : σ) : Except Error (Engine σ × List NodeId) := do
  let (g, first) := (e.graph.setState id state).invalidate id
  let dropped := g.lostEdges d id n.state state
  let (g, changed, others) ← g.dropEdges e.registry id [] dropped
  let invalidated := first ++ others
  let events := .nodeStateChanged id :: dropped.map .disconnected ++ Event.stateChanges changed
    ++ Event.invalidated invalidated
  return ((e.withGraph g).emit events, invalidated)

/-- Edit the state of a node, and give the list of the nodes that became stale. If the new state
equals the old one nothing else happens, and the type has to stay the same. -/
def update (e : Engine σ) (id : NodeId) (edit : σ → σ) :
    Except Error (Engine σ × List NodeId) := do
  let n ← e.graph.node id
  let d ← e.registry.get n.typeName
  let state := edit n.state
  if state == n.state then
    return (e.withGraph (e.graph.modify id ({ · with state := state })), [])
  else if NodeState.typeName state == n.typeName then e.replaceState id n d state
  else .error (.typeChanged id n.typeName (NodeState.typeName state))

/-- Invalidate a node that changed behind the engine's back, and give the list of the nodes that
became stale. -/
def markStale (e : Engine σ) (id : NodeId) : Except Error (Engine σ × List NodeId) := do
  let _ ← e.graph.node id
  let (g, invalidated) := e.graph.invalidate id
  return ((e.withGraph g).emit (Event.invalidated invalidated), invalidated)

def rewire (e : Engine σ) (connected : Bool) (wiring : Wiring) (c : Connection) : Engine σ :=
  let (g, changed, invalidated) :=
    Graph.afterEdge e.registry connected ⟨e.graph.nodes, wiring⟩ c
  (e.withGraph g).emit ((if connected then .connected c else .disconnected c)
    :: Event.stateChanges changed ++ Event.invalidated invalidated)

def connect (e : Engine σ) (source sink : PortRef) :
    Except Error (Engine σ × Connection) := do
  let start ← e.graph.portOn e.registry source .source
  let stop ← e.graph.portOn e.registry sink .sink
  if start.kind.fits stop.kind then
    let wiring ← e.graph.wiring.insert ⟨source, sink⟩
    let e := e.rewire true wiring ⟨source, sink⟩
    return (if e.policy.autoRunOnConnect then e.schedule sink.node else e, ⟨source, sink⟩)
  else .error (.incompatibleKinds start.kind stop.kind)

def disconnect (e : Engine σ) (source sink : PortRef) :
    Except Error (Engine σ × Connection) := do
  let wiring ← e.graph.wiring.remove ⟨source, sink⟩
  return (e.rewire false wiring ⟨source, sink⟩, ⟨source, sink⟩)

end Engine

end Patchbay
