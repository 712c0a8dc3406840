import Patchbay.Json.Codec

/-!
# Policies

What the engine does on its own account.
-/

namespace Patchbay

open Json

/-- Whether the consumers of a node that succeeded stay stale until someone executes them, or are
executed in the background. -/
inductive Cascade where
  | manual
  | auto
  deriving DecidableEq, Repr, Inhabited

instance : Codec Cascade where
  encode
    | .manual => .string "manual"
    | .auto => .string "auto"
  decode? := Document.named? [("manual", .manual), ("auto", .auto)]

/-- With `autoRunOnConnect` a new connection makes its sink node run in the background. With
`propagateUnchanged` consumers are invalidated even if a new result equals the old one. -/
structure Policy where
  cascade : Cascade := .manual
  autoRunOnConnect : Bool := false
  propagateUnchanged : Bool := false
  deriving DecidableEq, Repr, Inhabited

instance : Codec Policy where
  encode p := .object [("cascade", encode p.cascade),
    ("autoRunOnConnect", encode p.autoRunOnConnect),
    ("propagateUnchangedResults", encode p.propagateUnchanged)]
  decode? d := do
    let r ← d.record? ["cascade", "autoRunOnConnect", "propagateUnchangedResults"]
    return ⟨← defaulted? r "cascade" .manual, ← defaulted? r "autoRunOnConnect" false,
      ← defaulted? r "propagateUnchangedResults" false⟩

end Patchbay
