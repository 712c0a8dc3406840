import Patchbay.Failure

/-!
# Errors of the engine

`Defect` is what can be wrong with a saved graph, `Error` why an operation of the engine did not
succeed. A structural error is found before the graph is touched.
-/

namespace Patchbay

/-- One thing wrong with a saved graph. -/
inductive Defect where
  | cycle
  | unknownNodeType (node : NodeId) (type : String)
  | duplicateNode (node : NodeId)
  | unknownNode (connection : Connection) (node : NodeId)
  | unknownPort (connection : Connection) (port : PortRef)
  | wrongDirection (connection : Connection) (port : PortRef)
  | incompatibleKinds (connection : Connection) (source sink : DataKind)
  | multipleProducers (sink : PortRef)
  deriving DecidableEq, Repr

def Defect.message : Defect → String
  | .cycle => "Cycle detected in graph"
  | .unknownNodeType node type => s!"Unknown node type '{type}' for node '{node}'"
  | .duplicateNode node => s!"Duplicate node id '{node}'"
  | .unknownNode connection node =>
    s!"Connection '{connection.text}' references unknown node '{node}'"
  | .unknownPort connection port =>
    s!"Connection '{connection.text}' references unknown port '{port.port}' on node '{port.node}'"
  | .wrongDirection connection port =>
    s!"Connection '{connection.text}' uses port '{port.text}' in the wrong direction"
  | .incompatibleKinds connection source sink =>
    s!"Connection '{connection.text}' joins incompatible kinds: {source.title} -> {sink.title}"
  | .multipleProducers sink => s!"Sink '{sink.text}' has more than one incoming connection"

/-- Why an operation of the engine did not succeed. -/
inductive Error where
  | nodeTypeNotFound (type : String)
  | nodeNotFound (node : NodeId)
  | duplicateNode (node : NodeId)
  | portNotFound (port : PortRef)
  | wrongDirection (port : PortRef) (expected : Direction)
  | incompatibleKinds (source sink : DataKind)
  | sinkAlreadyBound (sink : PortRef)
  | cycle (source sink : NodeId)
  | connectionNotFound (connection : Connection)
  | typeChanged (node : NodeId) (old new : String)
  | missingInput (port : PortRef)
  | executionFailed (node : NodeId) (cause : Failure)
  | invalidSnapshot (defects : List Defect)
  | unreadable
  | io

namespace Error

/-- Whether the error is found before the graph is touched. -/
def isStructural : Error → Bool
  | .nodeTypeNotFound _ | .nodeNotFound _ | .duplicateNode _ | .portNotFound _
  | .wrongDirection _ _ | .incompatibleKinds _ _ | .sinkAlreadyBound _ | .cycle _ _
  | .connectionNotFound _ | .typeChanged _ _ _ => true
  | .missingInput _ | .executionFailed _ _ | .invalidSnapshot _ | .unreadable | .io => false

def message : Error → String
  | .nodeTypeNotFound type => s!"Node type not found: {type}"
  | .nodeNotFound node => s!"Node not found: {node}"
  | .duplicateNode node => s!"Node already exists: {node}"
  | .portNotFound port => s!"Port '{port.port}' not found on node '{port.node}'"
  | .wrongDirection port expected =>
    s!"Port '{port.port}' on node '{port.node}' cannot be used as a {expected.title}"
  | .incompatibleKinds source sink => s!"Incompatible data kinds: {source.title} -> {sink.title}"
  | .sinkAlreadyBound sink => s!"Sink '{sink.text}' already has an incoming connection"
  | .cycle source sink => s!"Connecting '{source}' to '{sink}' would create a cycle"
  | .connectionNotFound connection => s!"Connection not found: {connection.text}"
  | .typeChanged node old new => s!"Node '{node}' cannot change type from '{old}' to '{new}'"
  | .missingInput port => (Failure.missingInput port).message
  | .executionFailed node cause => s!"Execution of '{node}' failed: {cause.message}"
  | .invalidSnapshot defects => "Invalid snapshot: " ++ "; ".intercalate (defects.map (·.message))
  | .unreadable => "Serialization error"
  | .io => "I/O error"

end Error

/-- The failure of a computation that belongs to no node of an engine. -/
def Failure.toError : Failure → Error
  | .missingInput port => .missingInput port
  | cause => .executionFailed "" cause

end Patchbay
