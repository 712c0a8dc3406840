import Patchbay.Definition

/-!
# Bench nodes

Small node types on which an engine can be tried: numbers, a doubler that fails when told to, a
pass-through that waits at the gate, a text whose state follows its connections, a switch that
stops, and a collector with as many sinks as its state says.
-/

namespace Patchbay

open Json

/-- The state of a bench node. -/
inductive BenchNode where
  | constant (value : Float)
  | source (value : Float)
  | double (fails : Bool)
  | gated
  | label (text : String)
  | switch (isOpen : Bool)
  | merge (inputs : UInt64)
  deriving Inhabited

namespace BenchNode

instance : BEq BenchNode where
  beq
    | .constant a, .constant b => a == b
    | .source a, .source b => a == b
    | .double a, .double b => a == b
    | .gated, .gated => true
    | .label a, .label b => a == b
    | .switch a, .switch b => a == b
    | .merge a, .merge b => a == b
    | _, _ => false

def typeName : BenchNode → String
  | .constant _ => "constant"
  | .source _ => "source"
  | .double _ => "double"
  | .gated => "gated"
  | .label _ => "label"
  | .switch _ => "switch"
  | .merge _ => "merge"

instance : Codec BenchNode where
  encode s := .object (("type", .string s.typeName) :: match s with
    | .constant value => [("value", encode value)]
    | .source value => [("value", encode value)]
    | .double fails => [("fail", encode fails)]
    | .gated => []
    | .label text => [("text", encode text)]
    | .switch isOpen => [("open", encode isOpen)]
    | .merge inputs => [("inputs", encode inputs)])
  decode? d := do
    let (type, fields) ← d.tagged? "type"
    match type with
    | "constant" => return .constant (← required? (← fields.record? ["value"]) "value")
    | "source" => return .source (← required? (← fields.record? ["value"]) "value")
    | "double" => return .double (← required? (← fields.record? ["fail"]) "fail")
    | "gated" => (fields.record? []).map fun _ => .gated
    | "label" => return .label (← required? (← fields.record? ["text"]) "text")
    | "switch" => return .switch (← required? (← fields.record? ["open"]) "open")
    | "merge" => return .merge (← required? (← fields.record? ["inputs"]) "inputs")
    | _ => none

/-! ## Equality -/

inductive Equal : BenchNode → BenchNode → Prop
  | constant {x y : Float} (h : (x == y) = true) : Equal (.constant x) (.constant y)
  | source {x y : Float} (h : (x == y) = true) : Equal (.source x) (.source y)
  | double (fails : Bool) : Equal (.double fails) (.double fails)
  | gated : Equal .gated .gated
  | label (text : String) : Equal (.label text) (.label text)
  | switch (isOpen : Bool) : Equal (.switch isOpen) (.switch isOpen)
  | merge (inputs : UInt64) : Equal (.merge inputs) (.merge inputs)

theorem equal_of_beq : ∀ {a b : BenchNode}, (a == b) = true → Equal a b
  | .constant _, .constant _, h => .constant h
  | .source _, .source _, h => .source h
  | .double x, .double y, h => eq_of_beq (show (x == y) = true from h) ▸ .double x
  | .gated, .gated, _ => .gated
  | .label x, .label y, h => eq_of_beq (show (x == y) = true from h) ▸ .label x
  | .switch x, .switch y, h => eq_of_beq (show (x == y) = true from h) ▸ .switch x
  | .merge x, .merge y, h => eq_of_beq (show (x == y) = true from h) ▸ .merge x

theorem Equal.beq : ∀ {a b : BenchNode}, Equal a b → (a == b) = true
  | _, _, .constant h => h
  | _, _, .source h => h
  | _, _, .double x => show (x == x) = true from beq_self_eq_true x
  | _, _, .gated => rfl
  | _, _, .label x => show (x == x) = true from beq_self_eq_true x
  | _, _, .switch x => show (x == x) = true from beq_self_eq_true x
  | _, _, .merge x => show (x == x) = true from beq_self_eq_true x

theorem Equal.symm {a b : BenchNode} (h : Equal a b) : Equal b a := by
  cases h with
  | constant h => exact .constant (BEq.symm h)
  | source h => exact .source (BEq.symm h)
  | double x => exact .double x
  | gated => exact .gated
  | label x => exact .label x
  | switch x => exact .switch x
  | merge x => exact .merge x

theorem Equal.trans {a b c : BenchNode} (h : Equal a b) (h' : Equal b c) : Equal a c := by
  cases h with
  | constant h => cases h' with | constant h' => exact .constant (BEq.trans h h')
  | source h => cases h' with | source h' => exact .source (BEq.trans h h')
  | double _ | gated | label _ | switch _ | merge _ => exact h'

instance : PartialEquivBEq BenchNode where
  symm h := (equal_of_beq h).symm.beq
  trans h h' := ((equal_of_beq h).trans (equal_of_beq h')).beq

instance : NodeState BenchNode where
  typeName := BenchNode.typeName

end BenchNode

namespace Bench

/-- Variants: pass-throughs that are executed on demand, and labels that also follow the connections
at their output. -/
structure Options where
  reactiveGated : Bool := false
  hookedLabel : Bool := false

def about (type title : String) (category : Category) (mode : Mode) : Metadata :=
  ⟨type, title, category, "", mode⟩

def wrongState : Computation := .done (.error (.stated "wrong state"))

def gives (v : Value) : Computation := .done (.ok (.single "output" v))

def numberOutput : Port := .source "output" .number 200 40

def constant : Definition BenchNode where
  metadata := about "constant" "Constant" .input .reactive
  defaultState := .constant 0
  bodyHeight _ := 40
  ports _ := [numberOutput]
  compute c :=
    match c.state with
    | .constant value => gives (.ofFloat value)
    | _ => wrongState

def source : Definition BenchNode where
  metadata := about "source" "Source" .input .manual
  defaultState := .source 1
  bodyHeight _ := 40
  ports _ := [numberOutput]
  compute c :=
    match c.state with
    | .source value => gives (.ofFloat value)
    | _ => wrongState

def twice (c : Context BenchNode) : Except Failure Outputs := do
  match (← c.input "input").toFloat? with
  | some x => return .single "output" (.ofFloat (x * 2))
  | none => throw (.stated "input is not a number")

def double : Definition BenchNode where
  metadata := about "double" "Double" .math .manual
  defaultState := .double false
  bodyHeight _ := 40
  ports _ := [(Port.sink "input" .number 0 40).needed, numberOutput]
  compute c :=
    match c.state with
    | .double true => .done (.error (.stated "asked to fail"))
    | _ => .done (twice c)

/-- The pass-through, which takes its input first and then waits at the gate. -/
def gated (o : Options) : Definition BenchNode where
  metadata := about "gated" "Gated" .control (if o.reactiveGated then .reactive else .manual)
  defaultState := .gated
  bodyHeight _ := 40
  ports _ := [.sink "input" .any 0 40, .source "output" .any 200 40]
  compute c := .awaitPermit (gives ((c.input? "input").getD .null))

def labelText (o : Options) (connected : Bool) (text : String) (port : PortId) : String :=
  if port = "text" then if connected then "connected" else ""
  else if port = "output" && o.hookedLabel then if connected then "out+" else "out-"
  else text

def editLabel (s : BenchNode) (f : String → String) : BenchNode :=
  match s with
  | .label text => .label (f text)
  | s => s

/-- The label: its output is the input if there is one, and its state remembers the output. -/
def label (o : Options) : Definition BenchNode where
  metadata := about "label" "Label" .control .manual
  defaultState := .label ""
  bodyHeight _ := 40
  ports _ := [.sink "text" .text 0 40, .source "output" .text 200 40]
  compute c :=
    match c.input? "text", c.state with
    | some v, _ => gives v
    | none, .label text => gives (.string text)
    | none, _ => wrongState
  applyResult s outputs :=
    match outputs.value? "output" with
    | some v => editLabel s fun _ => v.toString?.getD ""
    | none => s
  onConnect s port := editLabel s (labelText o true · port)
  onDisconnect s port := editLabel s (labelText o false · port)

/-- The switch: one if it is open, else the stop sign. -/
def switch : Definition BenchNode where
  metadata := about "switch" "Switch" .control .reactive
  defaultState := .switch true
  bodyHeight _ := 40
  ports _ := [numberOutput]
  compute c :=
    match c.state with
    | .switch true => gives (.ofFloat 1)
    | _ => .done (.ok (Outputs.withStop .empty "output"))

/-- The sinks of the collector, from above. -/
def mergeSinks (inputs : Nat) : List Port :=
  (List.range inputs).map fun i => .sink s!"in{i}" .any 0 (40 * (i + 1).toFloat)

def mergeInputs : BenchNode → Nat
  | .merge inputs => inputs.toNat
  | _ => 0

/-- The collector: its output lists the values of the connected sinks. -/
def merge : Definition BenchNode where
  metadata := about "merge" "Merge" .control .manual
  defaultState := .merge 2
  bodyHeight
    | .merge inputs => 40 * inputs.toFloat
    | _ => 40
  ports s := mergeSinks (mergeInputs s) ++ [.source "output" .any 200 40]
  compute c := gives (.array c.inputs.values)

def registry (o : Options) : Registry BenchNode :=
  .ofList [constant, source, double, gated o, label o, switch, merge]

end Bench

end Patchbay
