import Patchbay.Json.Codec

/-!
# Generation jobs

What a node asks of the generation service, and what the service may answer.
-/

namespace Patchbay.Generation

open Json

inductive Kind where
  | image
  | video
  | text
  deriving DecidableEq, Repr, Inhabited

def Kind.name : Kind → String
  | .image => "image"
  | .video => "video"
  | .text => "text"

instance : Codec Kind where
  encode k := .string k.name
  decode? := Document.named? [("image", .image), ("video", .video), ("text", .text)]

/-- One generation job. The parameters are what only some kinds have: aspect ratio, quantity,
duration, and so on. -/
structure Request where
  kind : Kind
  prompt : String
  model : String
  params : Dict String Value
  referenceImages : List String

namespace Request

def plain (kind : Kind) (prompt model : String) : Request := ⟨kind, prompt, model, .empty, []⟩

def withParam (r : Request) (name : String) (v : Value) : Request :=
  { r with params := r.params.insert name v }

def withImages (r : Request) (images : List String) : Request :=
  { r with referenceImages := images }

instance : Codec Request where
  encode r := .object [("type", encode r.kind), ("prompt", encode r.prompt),
    ("model", encode r.model), ("params", encode r.params),
    ("referenceImages", encode r.referenceImages)]
  decode? d := do
    let r ← d.record? ["type", "prompt", "model", "params", "referenceImages"]
    return ⟨← required? r "type", ← required? r "prompt", ← required? r "model",
      ← defaulted? r "params" .empty, ← defaulted? r "referenceImages" []⟩

end Request

structure Output where
  urls : List String
  text : Option String
  deriving DecidableEq, Repr, Inhabited

instance : Codec Output where
  encode o := .object [("urls", encode o.urls), ("text", encode o.text)]
  decode? d := do
    let r ← d.record? ["urls", "text"]
    return ⟨← defaulted? r "urls" [], ← defaulted? r "text" none⟩

/-- Why a job brought no output: the service could not be reached, answered with a status that is no
success, refused the job, failed at it, took longer than all polls, answered in another form than
agreed, or there is none. -/
inductive Error where
  | request (url message : String)
  | api (status : Nat) (message : String)
  | rejected (message : String)
  | failed (message : String)
  | timeout (attempts : Nat)
  | invalidResponse (message : String)
  | notConfigured
  deriving DecidableEq, Repr, Inhabited

def Error.message : Error → String
  | .request url message => s!"Request to {url} failed: {message}"
  | .api status message => s!"Generation API error ({status}): {message}"
  | .rejected message => s!"Generation rejected: {message}"
  | .failed message => s!"Generation failed: {message}"
  | .timeout attempts => s!"Generation timed out after {attempts} polls"
  | .invalidResponse message => s!"Invalid response: {message}"
  | .notConfigured => "No generation provider configured"

end Patchbay.Generation
