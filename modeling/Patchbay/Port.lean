import Patchbay.Json.Codec

/-!
# Ports and connections

A node has ports: sources, where its values leave, and sinks, where values of other nodes
arrive. A connection leads from a source to a sink, each named by its node and its port on that
node. Port references are ordered by node first, so the ports of one node stand together.
-/

namespace Patchbay

open Json Std

abbrev NodeId := String

abbrev PortId := String

/-- What a port carries; only the check of new connections looks at it. -/
inductive DataKind where
  | any
  | text
  | prompt
  | number
  | boolean
  | imageList
  | video
  | file
  deriving DecidableEq, Repr, Inhabited

namespace DataKind

/-- Whether a source of the first kind may feed a sink of the second: one of them is `any`,
they are equal, or one is a text and the other a prompt. -/
def fits : DataKind → DataKind → Bool
  | .any, _ | _, .any => true
  | .prompt, .text | .text, .prompt => true
  | a, b => a == b

def title : DataKind → String
  | .any => "Any"
  | .text => "Text"
  | .prompt => "Prompt"
  | .number => "Number"
  | .boolean => "Boolean"
  | .imageList => "ImageList"
  | .video => "Video"
  | .file => "File"

def name : DataKind → String
  | .any => "any"
  | .text => "text"
  | .prompt => "prompt"
  | .number => "number"
  | .boolean => "boolean"
  | .imageList => "image-list"
  | .video => "video"
  | .file => "file"

def all : List DataKind := [.any, .text, .prompt, .number, .boolean, .imageList, .video, .file]

end DataKind

inductive Direction where
  | source
  | sink
  deriving DecidableEq, Repr, Inhabited

def Direction.title : Direction → String
  | .source => "source"
  | .sink => "sink"

/-- Where a port is drawn, relative to its node. -/
structure Anchor where
  x : Float
  y : Float
  deriving Inhabited

/-- A connection point of a node. A node cannot do without its required inputs. -/
structure Port where
  id : PortId
  direction : Direction
  anchor : Anchor
  kind : DataKind
  required : Bool
  deriving Inhabited

namespace Port

def source (id : PortId) (kind : DataKind) (x y : Float) : Port :=
  ⟨id, .source, ⟨x, y⟩, kind, false⟩

def sink (id : PortId) (kind : DataKind) (x y : Float) : Port :=
  ⟨id, .sink, ⟨x, y⟩, kind, false⟩

def needed (p : Port) : Port := { p with required := true }

def isSource (p : Port) : Bool := p.direction == .source

def isSink (p : Port) : Bool := p.direction == .sink

end Port

structure PortRef where
  node : NodeId
  port : PortId
  deriving DecidableEq, Repr, Inhabited

/-- By node, then by port. -/
instance : Ord PortRef := ⟨compareLex (compareOn PortRef.node) (compareOn PortRef.port)⟩

instance : TransOrd PortRef :=
  inferInstanceAs (TransCmp (compareLex (compareOn PortRef.node) (compareOn PortRef.port)))

instance : LawfulEqOrd PortRef where
  eq_of_compare {a b} h := by
    have h : ((compare a.node b.node).then (compare a.port b.port)) = .eq := h
    obtain ⟨hn, hp⟩ := Ordering.then_eq_eq.1 h
    cases a; cases b
    simp_all

def PortRef.text (p : PortRef) : String := s!"{p.node}.{p.port}"

/-- A directed edge from a source port to a sink port. -/
@[ext]
structure Connection where
  source : PortRef
  sink : PortRef
  deriving DecidableEq, Repr, Inhabited

def Connection.text (c : Connection) : String := s!"{c.source.text} -> {c.sink.text}"

/-! ## JSON forms -/

instance : Codec DataKind where
  encode k := .string k.name
  decode? := Document.named? (DataKind.all.map fun k => (k.name, k))

instance : Codec Direction where
  encode
    | .source => .string "start"
    | .sink => .string "end"
  decode? := Document.named? [("start", .source), ("end", .sink)]

instance : Codec Anchor where
  encode a := .object [("x", encode a.x), ("y", encode a.y)]
  decode? d := do
    let r ← d.record? ["x", "y"]
    return ⟨← required? r "x", ← required? r "y"⟩

instance : Codec Port where
  encode p := .object [("id", encode p.id), ("direction", encode p.direction),
    ("anchor", encode p.anchor), ("dataKind", encode p.kind), ("required", encode p.required)]
  decode? d := do
    let r ← d.record? ["id", "direction", "anchor", "dataKind", "required"]
    return ⟨← required? r "id", ← required? r "direction", ← required? r "anchor",
      ← required? r "dataKind", ← required? r "required"⟩

instance : Codec PortRef where
  encode p := .object [("nodeId", encode p.node), ("portId", encode p.port)]
  decode? d := do
    let r ← d.record? ["nodeId", "portId"]
    return ⟨← required? r "nodeId", ← required? r "portId"⟩

instance : Codec Connection where
  encode c := .object [("source", encode c.source), ("sink", encode c.sink)]
  decode? d := do
    let r ← d.record? ["source", "sink"]
    return ⟨← required? r "source", ← required? r "sink"⟩

end Patchbay
