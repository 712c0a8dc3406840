import Patchbay.Generation.Request
import Patchbay.Outputs
import Patchbay.Json.Text
import Patchbay.Text.Legible

/-!
# Failures

Why the computation of a node brought no result. A failure concerns the node that computes; the
engine reports it with that node's identity.
-/

namespace Patchbay

open Json

/-- What a value was read as and did not have the form of. -/
inductive Form where
  | text
  | list
  deriving DecidableEq, Repr

def Form.title : Form → String
  | .text => "a string"
  | .list => "a sequence"

def describe : Value → String
  | .null => "null"
  | .bool b => s!"boolean `{b}`"
  | .number (.int z) => s!"integer `{z}`"
  | .number (.float x h) => "floating point `" ++ Number.text (.float x h) ++ "`"
  | .string s => "string " ++ inQuotes s
  | .array _ => "sequence"
  | .object _ => "map"

/-- Why a computation failed. -/
inductive Failure where
  | missingInput (port : PortRef)
  | foreignState (title : String)
  | notNumber (port : PortId)
  | notBoolean (port : PortId)
  | notPrompt (value : Value)
  | badPrompt (found : Value) (expected : Form)
  | noFile
  | divisionByZero
  | notFinite
  | emptyPrompt
  | nothingToShow
  | noImages
  | noVideo
  | noText
  | generation (error : Generation.Error)
  | stated (reason : String)

def Failure.message : Failure → String
  | .missingInput port => s!"Missing required input: {port.text}"
  | .foreignState title => s!"{title} node has wrong state"
  | .notNumber port => s!"Input '{port}' is not a number"
  | .notBoolean port => s!"Input '{port}' is not a boolean"
  | .notPrompt value => s!"Expected a prompt, got {value.compact}"
  | .badPrompt found expected =>
    s!"Invalid prompt: invalid type: {describe found}, expected {expected.title}"
  | .noFile => "No file selected"
  | .divisionByZero => "Division by zero"
  | .notFinite => "Result is not a finite number"
  | .emptyPrompt => "Prompt is empty"
  | .nothingToShow => "Video generation needs a prompt or an image"
  | .noImages => "Provider returned no images"
  | .noVideo => "Provider returned no video"
  | .noText => "Provider returned no text"
  | .generation error => error.message
  | .stated reason => reason

end Patchbay
