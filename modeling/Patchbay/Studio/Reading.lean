import Patchbay.Definition
import Patchbay.Text.Blank

/-!
# Reading inputs

What the studio nodes make of a value on a sink: a prompt, a number, a truth value, or a list of
addresses.
-/

namespace Patchbay

open Json

structure Prompt where
  text : String := ""
  images : List String := []
  deriving DecidableEq, Repr, Inhabited

instance : Codec Prompt where
  encode p := .object [("text", encode p.text), ("images", encode p.images)]
  decode? d := do
    let r ← d.record? ["text", "images"]
    return ⟨← defaulted? r "text" "", ← defaulted? r "images" []⟩

namespace Prompt

def textOf : Value → Except Failure String
  | .string s => .ok s
  | v => .error (.badPrompt v .text)

def imagesOf : Value → Except Failure (List String)
  | .array items => items.mapM textOf
  | v => .error (.badPrompt v .list)

/-- The prompt that a value stands for: a text alone, or an object with text and images, of which
either may be missing. The images are looked at first. -/
def ofValue : Value → Except Failure Prompt
  | .string text => .ok { text := text }
  | .object members => do
    let images ← ((List.lookup "images" members).map imagesOf).getD (.ok [])
    let text ← ((List.lookup "text" members).map textOf).getD (.ok "")
    return ⟨text, images⟩
  | v => .error (.notPrompt v)

def isEmpty (p : Prompt) : Bool := isBlank p.text

end Prompt

def readNumber (v : Value) (port : PortId) : Except Failure Float :=
  match v.toFloat? with
  | some x => .ok x
  | none => .error (.notNumber port)

def readTruth (v : Value) (port : PortId) : Except Failure Bool :=
  match v.toBool? with
  | some b => .ok b
  | none => .error (.notBoolean port)

/-- One address, or all that are in a list. Other values have none. -/
def readUrls : Value → List String
  | .string "" => []
  | .string url => [url]
  | .array items => items.filterMap Value.toString?
  | _ => []

end Patchbay
