import Patchbay.Generation.Provider
import Patchbay.Http.Message
import Patchbay.Json.Text

/-!
# The client of the generation service

A job is submitted to the service and then polled until the service says that it is finished or
has failed, or until all polls are used up. There is a pause between two polls, and none after
the last.
-/

namespace Patchbay.Generation

open Json Http

/-- How the service is reached. The pause between two polls is in milliseconds. -/
structure Client where
  baseUrl : String
  apiKey : Option String := none
  projectId : Option String := none
  pollInterval : Nat := 2000
  maxAttempts : Nat := 60

namespace Client

def withoutSlashes (url : String) : String :=
  String.ofList (url.toList.reverse.dropWhile (· == '/')).reverse

def new (baseUrl : String) : Client := { baseUrl := withoutSlashes baseUrl }

/-- The client with another number of polls; there is at least one. -/
def withMaxAttempts (c : Client) (n : Nat) : Client := { c with maxAttempts := max n 1 }

/-! ## Exchanges -/

def withoutMark (text : String) : String :=
  match text.toList with
  | '\ufeff' :: rest => String.ofList rest
  | _ => text

def received (url : String) : Answer → Except Error Response
  | .error message => .error (.request url message)
  | .ok r => if r.isSuccess then .ok r else .error (.api r.status (withoutMark r.body))

def ask {α : Type} (c : Client) (method : Method) (url : String) (body : Option String)
    (next : Except Error Response → Dialogue α) : Dialogue α :=
  .send ⟨method, url, c.apiKey, body⟩ fun answer => next (received url answer)

def read {α : Type} [Codec α] (r : Except Error Response) : Except Error α := do
  match ofText? (← r).body with
  | some a => return a
  | none => throw (.invalidResponse "error decoding response body")

/-! ## Submitting -/

structure Receipt where
  success : Bool
  id : Option String
  error : Option String
  deriving DecidableEq

instance : Codec Receipt where
  encode r := .object [("success", encode r.success), ("generationId", encode r.id),
    ("error", encode r.error)]
  decode? d := do
    let r ← d.record? ["success", "generationId", "error"]
    return ⟨← required? r "success", ← defaulted? r "generationId" none,
      ← defaulted? r "error" none⟩

def Receipt.accepted (r : Receipt) : Except Error String :=
  match r.success, r.id with
  | true, some id => .ok id
  | _, _ => .error (.rejected (r.error.getD "Failed to start generation"))

/-- The job as the service wants it: one object, where a parameter never takes the place of what
every job has. -/
def body (c : Client) (r : Request) : Value :=
  let common := [("type", .string r.kind.name), ("prompt", .string r.prompt),
    ("model", .string r.model), ("referenceImages", Value.strings r.referenceImages)]
    ++ (c.projectId.map fun id => ("projectId", Value.string id)).toList
  .ofMembers (r.params.entries ++ common)

/-! ## Polling -/

structure Progress where
  status : String
  resultUrl : Option String
  resultText : Option String
  errorMessage : Option String
  deriving DecidableEq

instance : Codec Progress where
  encode p := .object [("status", encode p.status), ("resultUrl", encode p.resultUrl),
    ("resultText", encode p.resultText), ("errorMessage", encode p.errorMessage)]
  decode? d := do
    let r ← d.record? ["status", "resultUrl", "resultText", "errorMessage"]
    return ⟨← required? r "status", ← defaulted? r "resultUrl" none,
      ← defaulted? r "resultText" none, ← defaulted? r "errorMessage" none⟩

/-- The addresses in a result: a list in JSON, or else one address as it stands. -/
def resultUrls (text : String) : List String :=
  match (ofText? text : Option (List String)) with
  | some urls => urls
  | none => if text.isEmpty then [] else [text]

def Progress.outcome? (p : Progress) : Option (Except Error Output) :=
  if p.status = "completed" then some (.ok ⟨(p.resultUrl.map resultUrls).getD [], p.resultText⟩)
  else if p.status = "failed" then
    some (.error (.failed (p.errorMessage.getD "Generation failed")))
  else none

/-- What a poll decides: nothing as long as the job goes on. -/
def decided? (r : Except Error Response) : Option (Except Error Output) :=
  match (read r : Except Error Progress) with
  | .ok p => p.outcome?
  | .error e => some (.error e)

/-- Poll a job, so many times at most. -/
def poll (c : Client) (url : String) : Nat → Dialogue (Except Error Output)
  | 0 => .done (.error (.timeout c.maxAttempts))
  | left + 1 => c.ask .get url none fun r =>
    match decided? r with
    | some outcome => .done outcome
    | none => if left = 0 then poll c url left else .pause c.pollInterval (poll c url left)

def generate (c : Client) (r : Request) : Dialogue (Except Error Output) :=
  c.ask .post s!"{c.baseUrl}/api/generate" (some (c.body r).compact) fun response =>
    match (read response).bind Receipt.accepted with
    | .ok id => c.poll s!"{c.baseUrl}/api/generations/{id}" c.maxAttempts
    | .error e => .done (.error e)

def provider {m : Type → Type} [Monad m] (c : Client) (t : Transport m) : Provider m :=
  { generate := fun r => (c.generate r).run t }

end Client

end Patchbay.Generation
