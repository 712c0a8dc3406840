import Patchbay.Wiring

/-!
# Graphs

Nodes with their states and what the engine keeps about them, and the wiring between them. A
node refers to no other node; who feeds whom is asked of the wiring.
-/

namespace Patchbay

open Json

/-- Types of node state: a closed set of node types, each with its own fields. Equality is the
one that decides whether an edit changed anything; a state need not equal itself. -/
class NodeState (σ : Type) extends BEq σ, Codec σ, PartialEquivBEq σ where
  typeName : σ → String

inductive Status where
  | idle
  | generating
  | succeeded
  | failed
  | blocked
  deriving DecidableEq, Repr, Inhabited

namespace Status

def name : Status → String
  | .idle => "idle"
  | .generating => "generating"
  | .succeeded => "succeeded"
  | .failed => "failed"
  | .blocked => "blocked"

def all : List Status := [.idle, .generating, .succeeded, .failed, .blocked]

/-- The status without an execution that is going on. -/
def settled : Status → Status
  | .generating => .idle
  | s => s

instance : Codec Status where
  encode s := .string s.name
  decode? := Document.named? (all.map fun s => (s.name, s))

end Status

/-- A node of a graph. `epoch` counts the invalidations: an execution that began under an older
epoch worked on inputs that have changed. `run` is the run that made the last claim, and `claimed`
says whether the claim stands. -/
structure Node (σ : Type) where
  id : NodeId
  state : σ
  stale : Bool
  outputs : Outputs
  claimed : Bool
  status : Status
  lastError : Option String
  epoch : Nat
  run : Nat

namespace Node

variable {σ : Type}

def new (id : NodeId) (state : σ) : Node σ :=
  ⟨id, state, true, .empty, false, .idle, none, 0, 0⟩

def typeName [NodeState σ] (n : Node σ) : String := NodeState.typeName n.state

/-- The node with its inputs changed once more. -/
def touched (n : Node σ) : Node σ := { n with epoch := n.epoch + 1 }

/-- The node after an invalidation. -/
def invalidated (n : Node σ) : Node σ := { n.touched with stale := true }

/-- The node below a blocked one. A node that is being executed keeps its status. -/
def stopped (n : Node σ) : Node σ :=
  { n.invalidated with
    outputs := n.outputs.allStopped
    status := if n.claimed then n.status else .blocked }

/-- The node without a claim, as it is saved. -/
def unclaimed (n : Node σ) : Node σ := { n with claimed := false }

instance [NodeState σ] : Codec (Node σ) where
  encode n := .object ([("id", encode n.id), ("state", encode n.state),
    ("isOutOfDate", encode n.stale), ("outputs", encode n.outputs),
    ("isGenerating", encode n.claimed), ("status", encode n.status)]
    ++ (n.lastError.map fun e => ("lastError", encode e)).toList)
  decode? d := do
    let r ← d.record?
      ["id", "state", "isOutOfDate", "outputs", "isGenerating", "status", "lastError"]
    return ⟨← required? r "id", ← required? r "state", ← required? r "isOutOfDate",
      ← defaulted? r "outputs" .empty, ← defaulted? r "isGenerating" false,
      ← defaulted? r "status" .idle, ← defaulted? r "lastError" none, 0, 0⟩

end Node

structure Graph (σ : Type) where
  nodes : Dict NodeId (Node σ)
  wiring : Wiring

namespace Graph

variable {σ : Type}

def empty : Graph σ := ⟨.empty, .empty⟩

instance : Inhabited (Graph σ) := ⟨empty⟩

def node? (g : Graph σ) (id : NodeId) : Option (Node σ) := g.nodes.get? id

def node (g : Graph σ) (id : NodeId) : Except Error (Node σ) :=
  match g.node? id with
  | some n => .ok n
  | none => .error (.nodeNotFound id)

def modify (g : Graph σ) (id : NodeId) (f : Node σ → Node σ) : Graph σ :=
  { g with nodes := g.nodes.modify id f }

def insertNode (g : Graph σ) (n : Node σ) : Except Error (Graph σ) :=
  if g.nodes.contains n.id then .error (.duplicateNode n.id)
  else .ok { g with nodes := g.nodes.insert n.id n }

def isFresh (g : Graph σ) (id : NodeId) : Bool := (g.node? id).any fun n => !n.stale

theorem node?_modify (g : Graph σ) (id : NodeId) (f : Node σ → Node σ) (m : NodeId) :
    (g.modify id f).node? m = if id = m then (g.node? m).map f else g.node? m := by
  simp only [node?, modify, Dict.get?_modify, Std.compare_eq_iff_eq]

theorem node?_modify_self (g : Graph σ) (id : NodeId) (f : Node σ → Node σ) :
    (g.modify id f).node? id = (g.node? id).map f := by
  rw [node?_modify, if_pos rfl]

/-- The nodes tell two graphs with one wiring apart. -/
theorem ext_node? {g g' : Graph σ} (hwiring : g.wiring = g'.wiring)
    (h : ∀ m, g.node? m = g'.node? m) : g = g' := by
  obtain ⟨nodes, wiring⟩ := g
  obtain ⟨nodes', wiring'⟩ := g'
  cases hwiring
  exact congrArg (Graph.mk · wiring) (Dict.ext_get? h)

theorem modify_modify (g : Graph σ) (id : NodeId) (f f' : Node σ → Node σ) :
    (g.modify id f).modify id f' = g.modify id (f' ∘ f) := by
  refine ext_node? rfl fun m => ?_
  simp only [node?_modify]
  split
  · rw [Option.map_map]
  · rfl

theorem modify_eq_self {g : Graph σ} {id : NodeId} {f : Node σ → Node σ}
    (h : ∀ n, g.node? id = some n → f n = n) : g.modify id f = g := by
  refine ext_node? rfl fun m => ?_
  rw [node?_modify]
  split
  · rename_i hm
    subst hm
    cases hn : g.node? id with
    | none => rfl
    | some n => rw [Option.map_some, h n hn]
  · rfl

theorem node?_insert (g : Graph σ) (id : NodeId) (n : Node σ) (m : NodeId) :
    node? { g with nodes := g.nodes.insert id n } m = if id = m then some n else g.node? m := by
  simp only [node?, Dict.get?_insert, Std.compare_eq_iff_eq]

theorem node?_erase (g : Graph σ) (w : Wiring) (id m : NodeId) :
    node? ⟨g.nodes.erase id, w⟩ m = if id = m then none else g.node? m := by
  simp only [node?, Dict.get?_erase, Std.compare_eq_iff_eq]

theorem insertNode_eq_ok {g g' : Graph σ} {n : Node σ} (h : g.insertNode n = .ok g') :
    g.node? n.id = none ∧ g' = { g with nodes := g.nodes.insert n.id n } := by
  unfold insertNode at h
  split at h
  · cases h
  · rename_i hnew
    cases h
    exact ⟨by simpa [Dict.contains, node?] using hnew, rfl⟩

theorem insertNode_eq_insert {g : Graph σ} {n : Node σ} (h : g.node? n.id = none) :
    g.insertNode n = .ok { g with nodes := g.nodes.insert n.id n } := by
  rw [insertNode, Dict.contains, ← node?, h]
  rfl

end Graph

end Patchbay
