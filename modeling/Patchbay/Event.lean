import Patchbay.Outputs

/-!
# Events

What the engine reports. Every change of the graph that a host can see is announced, so that a
host that follows the events knows the nodes, the connections and which nodes are stale.
-/

namespace Patchbay

open Json

/-- One announcement. Of blocked nodes the first has a stopped input, and the others are downstream
of it. A completed node is up to date unless its inputs changed while it ran. -/
inductive Event where
  | nodeCreated (node : NodeId) (type : String)
  | nodeRemoved (node : NodeId) (connections : List Connection)
  | nodeStateChanged (node : NodeId)
  | connected (connection : Connection)
  | disconnected (connection : Connection)
  | nodesInvalidated (nodes : List NodeId)
  | nodeStarted (node : NodeId)
  | nodeCompleted (node : NodeId) (outputs : Outputs) (upToDate : Bool)
  | nodeFailed (node : NodeId) (error : String)
  | nodesBlocked (nodes : List NodeId)
  | resultDiscarded (node : NodeId)
  deriving Inhabited

namespace Event

def invalidated (nodes : List NodeId) : List Event :=
  if nodes.isEmpty then [] else [.nodesInvalidated nodes]

def stateChanges (nodes : List NodeId) : List Event := nodes.map .nodeStateChanged

/-- The document of an event: its kind first, then its members. -/
def document (kind : String) (members : List (String × Document)) : Document :=
  .object (("type", .string kind) :: members)

instance : Codec Event where
  encode
    | .nodeCreated node type =>
      document "nodeCreated" [("nodeId", encode node), ("nodeType", encode type)]
    | .nodeRemoved node connections =>
      document "nodeRemoved" [("nodeId", encode node), ("connections", encode connections)]
    | .nodeStateChanged node => document "nodeStateChanged" [("nodeId", encode node)]
    | .connected connection => document "connected" [("connection", encode connection)]
    | .disconnected connection => document "disconnected" [("connection", encode connection)]
    | .nodesInvalidated nodes => document "nodesInvalidated" [("nodeIds", encode nodes)]
    | .nodeStarted node => document "nodeStarted" [("nodeId", encode node)]
    | .nodeCompleted node outputs upToDate =>
      document "nodeCompleted" [("nodeId", encode node), ("outputs", encode outputs),
        ("upToDate", encode upToDate)]
    | .nodeFailed node error =>
      document "nodeFailed" [("nodeId", encode node), ("error", encode error)]
    | .nodesBlocked nodes => document "nodesBlocked" [("nodeIds", encode nodes)]
    | .resultDiscarded node => document "resultDiscarded" [("nodeId", encode node)]
  decode? d := do
    let (kind, rest) ← d.tagged? "type"
    match kind with
    | "nodeCreated" =>
      let r ← rest.record? ["nodeId", "nodeType"]
      return .nodeCreated (← required? r "nodeId") (← required? r "nodeType")
    | "nodeRemoved" =>
      let r ← rest.record? ["nodeId", "connections"]
      return .nodeRemoved (← required? r "nodeId") (← required? r "connections")
    | "nodeStateChanged" =>
      return .nodeStateChanged (← required? (← rest.record? ["nodeId"]) "nodeId")
    | "connected" =>
      return .connected (← required? (← rest.record? ["connection"]) "connection")
    | "disconnected" =>
      return .disconnected (← required? (← rest.record? ["connection"]) "connection")
    | "nodesInvalidated" =>
      return .nodesInvalidated (← required? (← rest.record? ["nodeIds"]) "nodeIds")
    | "nodeStarted" =>
      return .nodeStarted (← required? (← rest.record? ["nodeId"]) "nodeId")
    | "nodeCompleted" =>
      let r ← rest.record? ["nodeId", "outputs", "upToDate"]
      return .nodeCompleted (← required? r "nodeId")
        (← (List.lookup "outputs" r).bind Outputs.inner?) (← required? r "upToDate")
    | "nodeFailed" =>
      let r ← rest.record? ["nodeId", "error"]
      return .nodeFailed (← required? r "nodeId") (← required? r "error")
    | "nodesBlocked" =>
      return .nodesBlocked (← required? (← rest.record? ["nodeIds"]) "nodeIds")
    | "resultDiscarded" =>
      return .resultDiscarded (← required? (← rest.record? ["nodeId"]) "nodeId")
    | _ => none

end Event

end Patchbay
