import Patchbay.Port

/-!
# Output values

What a node last produced: a value for each output port, or the stop sign, which says that no
value can be had there now. A stop sign is not an error; it blocks the nodes that would read it.
-/

namespace Patchbay

open Json

/-- What stands on an output port. -/
inductive PortValue where
  | value (v : Value)
  | stop
  deriving Inhabited

namespace PortValue

instance : BEq PortValue where
  beq
    | .value a, .value b => a == b
    | .stop, .stop => true
    | _, _ => false

instance : EquivBEq PortValue where
  rfl {a} :=
    match a with
    | .value v => v.beq_refl
    | .stop => rfl
  symm {a b} h :=
    match a, b, h with
    | .value x, .value y, h => Value.beq_symm (show x.beq y = true from h)
    | .stop, .stop, _ => rfl
  trans {a b c} h h' :=
    match a, b, c, h, h' with
    | .value x, .value y, .value z, h, h' =>
      Value.beq_trans (show x.beq y = true from h) (show y.beq z = true from h')
    | .stop, .stop, .stop, _, _ => rfl

def isStop : PortValue → Bool
  | .stop => true
  | .value _ => false

def value? : PortValue → Option Value
  | .value v => some v
  | .stop => none

end PortValue

abbrev Outputs := Dict PortId PortValue

namespace Outputs

def stopped (ports : List PortId) : Outputs := Dict.ofList (ports.map (·, .stop))

def withValue (o : Outputs) (port : PortId) (v : Value) : Outputs := o.insert port (.value v)

def withStop (o : Outputs) (port : PortId) : Outputs := o.insert port .stop

def single (port : PortId) (v : Value) : Outputs := withValue .empty port v

/-- The value on a port, if there is one and it is no stop sign. -/
def value? (o : Outputs) (port : PortId) : Option Value := (o.get? port).bind PortValue.value?

/-- Whether there are ports and each carries the stop sign. -/
def isBlocked (o : Outputs) : Bool := !o.isEmpty && o.values.all PortValue.isStop

def allStopped (o : Outputs) : Outputs := o.mapValues fun _ => .stop

end Outputs

/-! ## JSON form

The kind of the value stands beside it. The value belongs to kind `value` alone; beside `stop`
there may at most be null. In a list the kind is a plain text and comes first. Inside of a tagged
record kinds are read more freely, and in a list a kind may be written as its number. -/

namespace PortValue

/-- The value of a kind with its content. -/
def ofParts? (kind : String) (content : Option Document) : Option PortValue :=
  match kind, content with
  | "value", some d => d.value?.map .value
  | "stop", none | "stop", some .null => some .stop
  | _, _ => none

/-- Read a port value. The kind is read with `listed` from a list and with `named` from an
object. -/
def read? (listed named : Document → Option String) : Document → Option PortValue
  | .array [kind, content] => do ofParts? (← listed kind) (some content)
  | .array _ => none
  | d => do
    let r ← d.record? ["kind", "value"]
    ofParts? (← named (← List.lookup "kind" r)) (List.lookup "value" r)

def innerKind? : Document → Option String
  | .string kind => some kind
  | .number n => n.toNat?.bind fun i => ["value", "stop"][i]?
  | _ => none

instance : Codec PortValue where
  encode
    | .value v => .object [("kind", .string "value"), ("value", encode v)]
    | .stop => .object [("kind", .string "stop")]
  decode? := read? decode? Document.name?

/-- Read a port value inside of a tagged record. -/
def inner? : Document → Option PortValue := read? innerKind? Document.innerName?

end PortValue

def Outputs.inner? : Document → Option Outputs
  | .object members => (members.mapM fun m => (PortValue.inner? m.2).map (m.1, ·)).map Dict.ofList
  | _ => none

end Patchbay
