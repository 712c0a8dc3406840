import Patchbay.Definition
import Patchbay.Peeling
import Patchbay.Json.Text

/-!
# Snapshots

A graph as it is saved: the list of its nodes and the list of its connections. Whatever was
saved, edited by hand or damaged, `defects` lists everything that keeps a snapshot from being a
graph, in a fixed order: the nodes one by one, then the connections one by one, then the sinks
that are fed more than once, then circles.
-/

namespace Patchbay

open Json

structure Snapshot (σ : Type) where
  nodes : List (Node σ)
  connections : List Connection

namespace Snapshot

variable {σ : Type}

def empty : Snapshot σ := ⟨[], []⟩

instance : Inhabited (Snapshot σ) := ⟨empty⟩

/-- The snapshot of a graph. An execution that is going on cannot be saved, so no node is
claimed in it. -/
def capture (g : Graph σ) : Snapshot σ := ⟨g.nodes.values.map Node.unclaimed, g.wiring.connections⟩

instance [NodeState σ] : Codec (Snapshot σ) where
  encode s := .object [("nodes", encode s.nodes), ("connections", encode s.connections)]
  decode? d := do
    let r ← d.record? ["nodes", "connections"]
    return ⟨← required? r "nodes", ← defaulted? r "connections" []⟩

def text [NodeState σ] (s : Snapshot σ) : String := (encode s).pretty

def ofText [NodeState σ] (text : String) : Except Error (Snapshot σ) :=
  match ofText? text with
  | some s => .ok s
  | none => .error .unreadable

/-! ## Defects -/

variable [NodeState σ]

/-- Defects of the nodes one by one; `seen` holds the identities of the earlier ones. -/
def nodeDefects (r : Registry σ) (seen : List NodeId) : List (Node σ) → List Defect
  | [] => []
  | n :: rest =>
    (if seen.contains n.id then [.duplicateNode n.id] else [])
      ++ (if r.has n.typeName then [] else [.unknownNodeType n.id n.typeName])
      ++ nodeDefects r (n.id :: seen) rest

/-- The kind of the port at one end of a connection, or what is wrong with the end. Nothing is
known of the ports of a node whose type is not registered. -/
def checkEnd (r : Registry σ) (states : Dict NodeId σ) (c : Connection) (port : PortRef)
    (expected : Direction) : Except (List Defect) DataKind :=
  match states.get? port.node with
  | none => .error [.unknownNode c port.node]
  | some state =>
    match r.definitions.get? (NodeState.typeName state) with
    | none => .error []
    | some definition =>
      match definition.port? state port.port with
      | none => .error [.unknownPort c port]
      | some p => if p.direction = expected then .ok p.kind else .error [.wrongDirection c port]

def connectionDefects (r : Registry σ) (states : Dict NodeId σ) (c : Connection) : List Defect :=
  match checkEnd r states c c.source .source, checkEnd r states c c.sink .sink with
  | .ok source, .ok sink => if source.fits sink then [] else [.incompatibleKinds c source sink]
  | .error a, .error b => a ++ b
  | .error a, .ok _ => a
  | .ok _, .error b => b

/-- One defect for each connection to a sink that an earlier one ends at. -/
def sinkDefects (bound : List PortRef) : List Connection → List Defect
  | [] => []
  | c :: rest =>
    (if bound.contains c.sink then [.multipleProducers c.sink] else [])
      ++ sinkDefects (c.sink :: bound) rest

/-- The edges between nodes; several connections between two nodes are one edge. -/
def edges (s : Snapshot σ) : Edges :=
  (s.connections.map fun c => (c.source.node, c.sink.node)).eraseDups

/-- Everything that keeps a snapshot from being a graph. Of two nodes with one identity the
connections mean the later. -/
def defects (s : Snapshot σ) (r : Registry σ) : List Defect :=
  let states := Dict.ofList (s.nodes.map fun n => (n.id, n.state))
  nodeDefects r [] s.nodes
    ++ s.connections.flatMap (connectionDefects r states)
    ++ sinkDefects [] s.connections
    ++ (if leavesCore (s.nodes.map (·.id)) s.edges then [.cycle] else [])

end Snapshot

end Patchbay
