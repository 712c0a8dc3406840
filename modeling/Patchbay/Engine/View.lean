import Patchbay.Engine.Basic

/-!
# Looking at an engine

Questions that change nothing.
-/

namespace Patchbay

variable {σ : Type}

/-- What a connected sink would read: no value if the node of its source never wrote there. -/
structure InputInfo where
  port : PortId
  source : PortRef
  value : Option PortValue
  stale : Bool

namespace Engine

def nodes (e : Engine σ) : List (Node σ) := e.graph.nodes.values

def node (e : Engine σ) (id : NodeId) : Except Error (Node σ) := e.graph.node id

def isStale (e : Engine σ) (id : NodeId) : Except Error Bool := (e.node id).map (·.stale)

def connections (e : Engine σ) : List Connection := e.graph.wiring.connections

def producerOf (e : Engine σ) (sink : PortRef) : Option PortRef := e.graph.wiring.producerOf sink

def consumersOf (e : Engine σ) (source : PortRef) : List PortRef :=
  e.graph.wiring.consumersOf source

/-- Whether no run is going on or scheduled. -/
def isIdle (e : Engine σ) : Bool := e.inFlight == 0

variable [NodeState σ]

def ports (e : Engine σ) (id : NodeId) : Except Error (List Port) := do
  let n ← e.node id
  return (← e.registry.get n.typeName).ports n.state

def bodyHeight (e : Engine σ) (id : NodeId) : Except Error Float := do
  let n ← e.node id
  return (← e.registry.get n.typeName).bodyHeight n.state

/-- What the connected sinks of a node would read, in the order of its ports. -/
def inputInfo (e : Engine σ) (id : NodeId) : Except Error (List InputInfo) := do
  let ports ← e.ports id
  return (ports.filter Port.isSink).filterMap fun p =>
    (e.producerOf ⟨id, p.id⟩).map fun source =>
      let producer := e.graph.node? source.node
      { port := p.id
        source := source
        value := producer.bind fun n => n.outputs.get? source.port
        stale := (producer.map (·.stale)).getD true }

end Engine

end Patchbay
