import Patchbay.Generation.Client
import Patchbay.Policy

/-!
# Settings of the runner

The policy of the engine and how the generation service is reached. Every member has a default,
and the environment may say where the service is and who asks, so that a key need not stand in a
file.
-/

namespace Patchbay.Runner

open Json Generation

/-- How the generation service is reached. The pause between two polls is in milliseconds. -/
structure Backend where
  baseUrl : String := "http://localhost:8000"
  apiKey : Option String := none
  projectId : Option String := none
  pollInterval : UInt64 := 2000
  maxPollAttempts : UInt32 := 60
  deriving DecidableEq, Inhabited

namespace Backend

instance : Codec Backend where
  encode b := .object ([("baseUrl", encode b.baseUrl)]
    ++ (b.apiKey.map fun key => ("apiKey", encode key)).toList
    ++ (b.projectId.map fun id => ("projectId", encode id)).toList
    ++ [("pollIntervalMs", encode b.pollInterval), ("maxPollAttempts", encode b.maxPollAttempts)])
  decode? d := do
    let r ← d.record? ["baseUrl", "apiKey", "projectId", "pollIntervalMs", "maxPollAttempts"]
    return ⟨← defaulted? r "baseUrl" "http://localhost:8000", ← defaulted? r "apiKey" none,
      ← defaulted? r "projectId" none, ← defaulted? r "pollIntervalMs" 2000,
      ← defaulted? r "maxPollAttempts" 60⟩

def client (b : Backend) : Client :=
  { Client.new b.baseUrl with
    apiKey := b.apiKey
    projectId := b.projectId
    pollInterval := b.pollInterval.toNat }.withMaxAttempts b.maxPollAttempts.toNat

end Backend

structure Settings where
  policy : Policy := {}
  backend : Backend := {}
  deriving DecidableEq, Inhabited

namespace Settings

instance : Codec Settings where
  encode s := .object [("engine", encode s.policy), ("provider", encode s.backend)]
  decode? d := do
    let r ← d.record? ["engine", "provider"]
    return ⟨← defaulted? r "engine" {}, ← defaulted? r "provider" {}⟩

def urlVariable : String := "CANVAS_BACKEND_URL"

def keyVariable : String := "CANVAS_BACKEND_API_KEY"

/-- The settings with what the environment says in place of what they said; an empty variable says
nothing. -/
def overridden (s : Settings) (url key : Option String) : Settings :=
  let said := Option.filter fun text : String => !text.isEmpty
  { s with backend :=
    { s.backend with
      baseUrl := (said url).getD s.backend.baseUrl
      apiKey := (said key).or s.backend.apiKey } }

inductive Problem where
  | io
  | unreadable
  deriving DecidableEq, Repr

def ofText (text : String) : Except Problem Settings :=
  match ofText? text with
  | some s => .ok s
  | none => .error .unreadable

end Settings

end Patchbay.Runner
