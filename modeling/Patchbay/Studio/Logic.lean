import Patchbay.Studio.Input

/-!
# Arithmetic and choice

Nodes that compute from numbers and truth values. They are executed whenever someone needs their
values.
-/

namespace Patchbay.Studio

open Json

/-! ## Arithmetic -/

/-- The operator applied to two numbers. Only a finite result is a value. -/
def apply (operator : Operator) (a b : Float) : Except Failure Float :=
  let finite := fun x : Float => if x.isFinite then .ok x else .error .notFinite
  match operator with
  | .add => finite (a + b)
  | .subtract => finite (a - b)
  | .multiply => finite (a * b)
  | .divide => if b == 0 then .error .divisionByZero else finite (a / b)

/-- The number on a sink, or another one if it is unconnected. -/
def operand (c : Context StudioNode) (port : PortId) (own : Float) : Except Failure Float :=
  match c.input? port with
  | some v => readNumber v port
  | none => .ok own

def calculate (c : Context StudioNode) : Except Failure Outputs :=
  match c.state with
  | .arithmetic s => do
    let a ← operand c "a" s.a
    let b ← operand c "b" s.b
    return .single "output" (.ofFloat (← apply s.operator a b))
  | _ => .error (.foreignState "Arithmetic")

def arithmetic : Definition StudioNode where
  metadata := ⟨"arithmetic", "Arithmetic", .math,
    "Adds, subtracts, multiplies or divides two numbers", .reactive⟩
  defaultState := .arithmetic {}
  bodyHeight _ := rowHeight * 3
  ports _ := [.sink "a" .number 0 (row 0.5), .sink "b" .number 0 (row 1.5),
    .source "output" .number width (row 1)]
  compute c := ended (calculate c)

/-! ## Choice -/

/-- A value on one of two outputs, and the stop sign on the other. -/
def choose (c : Context StudioNode) : Except Failure Outputs := do
  let condition ← readTruth (← c.input "condition") "condition"
  let v ← c.input "value"
  return if condition then (Outputs.single "trueOut" v).withStop "falseOut"
    else (Outputs.single "falseOut" v).withStop "trueOut"

def conditional : Definition StudioNode where
  metadata := ⟨"conditional", "Conditional", .control, "Routes data based on a boolean condition",
    .reactive⟩
  defaultState := .conditional
  bodyHeight _ := rowHeight * 2
  ports _ := [(Port.sink "condition" .boolean 0 (row 0.5)).needed,
    (Port.sink "value" .any 0 (row 1.5)).needed,
    .source "trueOut" .any width (row 0.5), .source "falseOut" .any width (row 1.5)]
  compute c := ended (choose c)

end Patchbay.Studio
