import Patchbay.Studio.Input

/-!
# Generation nodes

Nodes whose outputs the generation service makes. They are executed only when asked to, because a
job costs money. Each one remembers in its state what was made last.
-/

namespace Patchbay.Studio

open Json Generation

/-- Ask for a job, and take the outputs from what it produced. A job that could not even be put
together is the end of the computation. -/
def submit (request : Except Failure Request) (outputs : Output → Except Failure Outputs) :
    Computation :=
  match request with
  | .error cause => .done (.error cause)
  | .ok request => .generate request fun outcome =>
    .done (match outcome with
      | .ok o => outputs o
      | .error e => .error (.generation e))

/-! ## Images -/

/-- The job of an image node: the images of the prompt come before those of the other sink. -/
def imageRequest (c : Context StudioNode) : Except Failure Request :=
  match c.state with
  | .imageGeneration s => do
    let prompt ← Prompt.ofValue (← c.input "prompt")
    if prompt.isEmpty then throw .emptyPrompt
    let images := ((c.input? "image").map readUrls).getD []
    let request := (Request.plain .image prompt.text s.model
        |>.withParam "mode" (.string s.mode)
        |>.withParam "quantity" (.number (.int s.quantity.toNat))
        |>.withParam "aspectRatio" (.string s.aspectRatio)
        |>.withImages (prompt.images ++ images))
    return match c.input? "lora" with
      | some lora => request.withParam "lora" lora
      | none => request
  | _ => .error (.foreignState "Image generation")

def imageGeneration : Definition StudioNode where
  metadata := ⟨"imageGeneration", "Image Generation", .generation, "Generates images from a prompt",
    .manual⟩
  defaultState := .imageGeneration {}
  bodyHeight _ := 450
  ports _ := [(Port.sink "prompt" .prompt 0 (below 80)).needed, .sink "image" .imageList 0 (below 140),
    .sink "lora" .any 0 (below 200), .source "output" .imageList width (below 140)]
  compute c := submit (imageRequest c) fun o =>
    if o.urls.isEmpty then .error .noImages else .ok (.single "output" (.strings o.urls))
  applyResult s outputs :=
    match s, outputs.value? "output" with
    | .imageGeneration s, some v => .imageGeneration { s with generated := readUrls v }
    | s, _ => s
  onDisconnect s port :=
    match s, port with
    | .imageGeneration s, "prompt" =>
      .imageGeneration { s with model := ({} : ImageGeneration).model }
    | s, _ => s

/-! ## Videos -/

/-- The job of a video node: it starts from the first image there is, the ones on the image sink
before those of the prompt. -/
def videoRequest (c : Context StudioNode) : Except Failure Request :=
  match c.state with
  | .videoGeneration s => do
    let prompt ← match c.input? "prompt" with
      | some v => Prompt.ofValue v
      | none => .ok {}
    let frames := ((c.input? "image").map readUrls).getD [] ++ prompt.images
    if prompt.isEmpty && frames.isEmpty then throw .nothingToShow
    let request := (Request.plain .video prompt.text s.model
        |>.withParam "mode" (.string s.mode.name)
        |>.withParam "duration" (.number (.int s.duration.toNat))
        |>.withParam "aspectRatio" (.string s.aspectRatio)
        |>.withImages (frames.take 1))
    return match (c.input? "video").bind Value.toString? with
      | some url => request.withParam "videoUrl" (.string url)
      | none => request
  | _ => .error (.foreignState "Video generation")

def withMode (mode : VideoMode) : StudioNode → StudioNode
  | .videoGeneration s => .videoGeneration { s with mode := mode }
  | s => s

/-- A video from a prompt or an image. The mode says whether an image is connected. -/
def videoGeneration : Definition StudioNode where
  metadata := ⟨"videoGeneration", "Video Generation", .generation,
    "Generates a video from a prompt or a start frame", .manual⟩
  defaultState := .videoGeneration {}
  bodyHeight
    | .videoGeneration s => 280 + if s.generated.isEmpty then 50 else 140
    | _ => 280 + 50
  ports _ := [.sink "prompt" .prompt 0 (below 80), .sink "image" .imageList 0 (below 140),
    .sink "video" .video 0 (below 200), .source "output" .video width (below 140)]
  compute c := submit (videoRequest c) fun o =>
    match o.urls with
    | [] => .error .noVideo
    | url :: _ => .ok (.single "output" (.string url))
  applyResult s outputs :=
    match s, outputs.value? "output" with
    | .videoGeneration s, some (.string url) => .videoGeneration { s with generated := url }
    | s, _ => s
  onConnect s port := if port = "image" then withMode .imageToVideo s else s
  onDisconnect s port := if port = "image" then withMode .textToVideo s else s

/-! ## Texts -/

def textRequest (c : Context StudioNode) : Except Failure Request :=
  match c.state with
  | .textGeneration s => do
    let prompt ← match c.input? "input" with
      | some v => (Prompt.ofValue v).map (·.text)
      | none => .ok s.prompt
    if isBlank prompt then throw .emptyPrompt
    return (Request.plain .text prompt s.model
        |>.withParam "temperature" (.ofFloat s.temperature)
        |>.withParam "maxTokens" (.number (.int s.maxTokens.toNat)))
  | _ => .error (.foreignState "Text generation")

/-- The height of the body of a text node, which shows the text once there is one. -/
def textGenerationHeight : StudioNode → Float
  | .textGeneration s => if s.generated.isEmpty then rowHeight * 5 else rowHeight * 5 + 120
  | _ => rowHeight * 5

def textGeneration : Definition StudioNode where
  metadata := ⟨"textGeneration", "Text Generation", .generation,
    "Generates text with a language model", .manual⟩
  defaultState := .textGeneration {}
  bodyHeight := textGenerationHeight
  ports s := [.sink "input" .prompt 0 (below 50),
    .source "output" .text width (below (textGenerationHeight s) - 70)]
  compute c := submit (textRequest c) fun o =>
    match o.text with
    | some text => .ok (.single "output" (.string text))
    | none => .error .noText
  applyResult s outputs :=
    match s, outputs.value? "output" with
    | .textGeneration s, some (.string text) => .textGeneration { s with generated := text }
    | s, _ => s

end Patchbay.Studio
