import Patchbay.Graph

/-!
# Node types

A node type is a `Definition`: what it is called, the ports of a state, and how outputs are
computed from a state and inputs. A computation is data. It either is done, or waits for a
permit, or asks for a generation job, and goes on with what it is given; who gives it that is
not its concern.
-/

namespace Patchbay

open Json

inductive Category where
  | input
  | generation
  | math
  | control
  deriving DecidableEq, Repr, Inhabited

def Category.name : Category → String
  | .input => "input"
  | .generation => "generation"
  | .math => "math"
  | .control => "control"

def Category.all : List Category := [.input, .generation, .math, .control]

instance : Codec Category where
  encode c := .string c.name
  decode? := Document.named? (Category.all.map fun c => (c.name, c))

/-- When the nodes of a type are executed: whenever a consumer needs a fresh value, or only when
asked to. Stale outputs of a manual node block its consumers. -/
inductive Mode where
  | reactive
  | manual
  deriving DecidableEq, Repr, Inhabited

instance : Codec Mode where
  encode
    | .reactive => .string "reactive"
    | .manual => .string "manual"
  decode? := Document.named? [("reactive", .reactive), ("manual", .manual)]

/-- What is the same for all nodes of a type. -/
structure Metadata where
  type : String
  title : String
  category : Category
  description : String
  mode : Mode
  deriving DecidableEq, Repr, Inhabited

instance : Codec Metadata where
  encode m := .object [("nodeType", encode m.type), ("title", encode m.title),
    ("category", encode m.category), ("description", encode m.description),
    ("executionMode", encode m.mode)]
  decode? d := do
    let r ← d.record? ["nodeType", "title", "category", "description", "executionMode"]
    return ⟨← required? r "nodeType", ← required? r "title", ← required? r "category",
      ← required? r "description", ← required? r "executionMode"⟩

/-- The values that arrive on the connected sinks, by port. -/
abbrev Inputs := Dict PortId Value

structure Context (σ : Type) where
  node : NodeId
  state : σ
  inputs : Inputs

namespace Context

variable {σ : Type}

def input? (c : Context σ) (port : PortId) : Option Value := c.inputs.get? port

def input (c : Context σ) (port : PortId) : Except Failure Value :=
  match c.input? port with
  | some v => .ok v
  | none => .error (.missingInput ⟨c.node, port⟩)

end Context

/-- How outputs come about: at once, after a permit of the gate, or with the outcome of a generation
job. -/
inductive Computation where
  | done (result : Except Failure Outputs)
  | awaitPermit (next : Computation)
  | generate (request : Generation.Request)
      (next : Except Generation.Error Generation.Output → Computation)

/-- A node type. The hooks give the state of a node after a connection at one of its ports was added
or removed, and `applyResult` the one after its computation. -/
structure Definition (σ : Type) where
  metadata : Metadata
  defaultState : σ
  bodyHeight : σ → Float
  ports : σ → List Port
  compute : Context σ → Computation
  applyResult : σ → Outputs → σ := fun s _ => s
  onConnect : σ → PortId → σ := fun s _ => s
  onDisconnect : σ → PortId → σ := fun s _ => s

namespace Definition

variable {σ : Type}

def port? (d : Definition σ) (s : σ) (id : PortId) : Option Port := (d.ports s).find? (·.id == id)

def hasPort (d : Definition σ) (s : σ) (id : PortId) : Bool := (d.ports s).any (·.id == id)

/-- The identities of the ports, in order, each once. -/
def portIds (d : Definition σ) (s : σ) : List PortId :=
  (Roster.ofList ((d.ports s).map (·.id))).toList

def onEdge (d : Definition σ) (connected : Bool) (s : σ) (port : PortId) : σ :=
  if connected then d.onConnect s port else d.onDisconnect s port

end Definition

structure Registry (σ : Type) where
  definitions : Dict String (Definition σ)

namespace Registry

variable {σ : Type}

/-- The registry of these node types; of two with one name the later stays. -/
def ofList (ds : List (Definition σ)) : Registry σ :=
  ⟨Dict.ofList (ds.map fun d => (d.metadata.type, d))⟩

def restrict (r : Registry σ) (types : List String) : Registry σ :=
  ⟨r.definitions.filter fun type _ => types.contains type⟩

def has (r : Registry σ) (type : String) : Bool := r.definitions.contains type

def get (r : Registry σ) (type : String) : Except Error (Definition σ) :=
  match r.definitions.get? type with
  | some d => .ok d
  | none => .error (.nodeTypeNotFound type)

def defaultState (r : Registry σ) (type : String) : Except Error σ :=
  (r.get type).map (·.defaultState)

def metadata? (r : Registry σ) (type : String) : Option Metadata :=
  (r.definitions.get? type).map (·.metadata)

def allMetadata (r : Registry σ) : List Metadata := r.definitions.values.map (·.metadata)

def inCategory (r : Registry σ) (c : Category) : List Metadata :=
  r.allMetadata.filter (·.category == c)

def size (r : Registry σ) : Nat := r.definitions.size

/-- Whether the type of this name is executed on demand. -/
def isReactive (r : Registry σ) (type : String) : Bool :=
  (r.metadata? type).any (·.mode == .reactive)

end Registry

end Patchbay
