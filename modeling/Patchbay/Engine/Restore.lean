import Patchbay.Engine.Basic

/-!
# Saving and restoring

A snapshot is taken of any engine at any time. Restoring one replaces the whole graph, after the
snapshot was found to have no defects. Executions of the old graph find their nodes unclaimed
and are discarded.
-/

namespace Patchbay

variable {σ : Type}

/-- The node as it is put into a restored graph: no execution is going on. -/
def Node.restored (n : Node σ) : Node σ :=
  { n with claimed := false, status := n.status.settled }

/-- The graph that a snapshot describes, before stale nodes have their consumers marked. -/
def Snapshot.graph (s : Snapshot σ) : Except Error (Graph σ) := do
  let g ← s.nodes.foldlM (fun g n => g.insertNode n.restored) Graph.empty
  let wiring ← s.connections.foldlM Wiring.insert g.wiring
  return { g with wiring := wiring }

namespace Engine

variable [NodeState σ]

def snapshot (e : Engine σ) : Snapshot σ := .capture e.graph

def restore (e : Engine σ) (s : Snapshot σ) : Except Error (Engine σ) :=
  match s.defects e.registry with
  | [] => do
    let (g, invalidated) := (← s.graph).normalize
    return ((e.withGraph g).emit (Event.invalidated invalidated)).notify
  | defects => .error (.invalidSnapshot defects)

end Engine

end Patchbay
