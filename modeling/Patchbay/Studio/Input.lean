import Patchbay.Studio.Layout
import Patchbay.Studio.Reading
import Patchbay.Studio.State

/-!
# Input nodes

What people enter: a prompt, a file, a number. These nodes have no sinks, and they are executed
whenever someone needs their value.
-/

namespace Patchbay.Studio

open Json

def ended (result : Except Failure Outputs) : Computation := .done result

/-! ## Text -/

/-- The height of the text: it grows with the lines up to a limit. -/
def textHeight (text : String) : Float :=
  let lines := (text.toList.countP (· == '\n') + 1).toFloat
  min (max (lines * 20 + 40) 80) 300

/-- The height of the images, which stand three in a row. -/
def imagesHeight (images : List String) : Float :=
  if images.isEmpty then 0 else ((images.length + 2) / 3).toFloat * 90 + 8

/-- The height of the body of a text input; it takes no room in a node of another type. -/
def textInputHeight : StudioNode → Float
  | .textInput s => textHeight s.text + 60 + imagesHeight s.images
  | _ => 0

def textInput : Definition StudioNode where
  metadata := ⟨"textInput", "Text Input", .input, "Provides prompt text and reference images",
    .reactive⟩
  defaultState := .textInput {}
  bodyHeight := textInputHeight
  ports s := [.source "output" .prompt width (below (textInputHeight s * 0.4))]
  compute c := ended <|
    match c.state with
    | .textInput s => .ok (.single "output"
        (.ofMembers [("text", .string s.text), ("images", .strings s.images)]))
    | _ => .error (.foreignState "Text input")

/-! ## Files -/

def fileValue (f : FileInput) : Value :=
  .ofMembers [("fileName", .string f.name), ("fileUrl", .string f.url),
    ("fileType", .string f.type), ("fileSize", .number (.int f.size.toNat))]

def fileInput : Definition StudioNode where
  metadata := ⟨"fileInput", "File Input", .input, "Provides an uploaded file", .reactive⟩
  defaultState := .fileInput {}
  bodyHeight _ := 360
  ports _ := [.source "output" .file width (below 30)]
  compute c := ended <|
    match c.state with
    | .fileInput f => if f.hasFile then .ok (.single "output" (fileValue f))
      else .error .noFile
    | _ => .error (.foreignState "File input")

/-! ## Numbers -/

def number : Definition StudioNode where
  metadata := ⟨"number", "Number", .input, "A constant number", .reactive⟩
  defaultState := .number 0
  bodyHeight _ := rowHeight
  ports _ := [.source "output" .number width (below (rowHeight / 2))]
  compute c := ended <|
    match c.state with
    | .number value => .ok (.single "output" (.ofFloat value))
    | _ => .error (.foreignState "Number")

end Patchbay.Studio
