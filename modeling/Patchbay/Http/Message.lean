import Patchbay.Http.Url

/-!
# Requests and responses

What is sent and what comes back, and who carries it. A `Dialogue` is a program that sends
requests and pauses; it is data, so what it sends is known whoever carries it out. It hands drafts
of requests to an `Agent`. An agent builds them and has a `Transport` bring them to the server.
-/

namespace Patchbay.Http

inductive Method where
  | get
  | post
  deriving DecidableEq, Repr, Inhabited

def Method.name : Method → String
  | .get => "GET"
  | .post => "POST"

/-- A request, with who asks for it and the JSON text that it carries. -/
structure Request where
  method : Method
  url : Url
  apiKey : Option String
  body : Option String
  deriving DecidableEq, Repr, Inhabited

/-- Whether a text can stand in a header: no character in it may end the line or not show. -/
def isHeaderText (text : String) : Bool :=
  text.toList.all fun c => c == '\t' || (0x20 ≤ c.toNat && c.toNat != 0x7F)

/-- A request as it is drafted. Its address may be none, and its key may be none for a header. -/
structure Draft where
  method : Method
  url : String
  apiKey : Option String
  body : Option String
  deriving DecidableEq, Repr, Inhabited

def Draft.request? (d : Draft) : Option Request := do
  let target ← Url.ofText? d.url
  guard (d.apiKey.all isHeaderText)
  return ⟨d.method, target, d.apiKey, d.body⟩

structure Response where
  status : Nat
  body : String
  deriving DecidableEq, Repr, Inhabited

namespace Response

def isSuccess (r : Response) : Bool := 200 ≤ r.status && r.status < 300

/-- The response as it arrives: some codes come without a body, and others only announce a
response that is still to come. -/
def received? (r : Response) : Option Response :=
  if r.status = 101 || r.status = 204 || r.status = 304 then some { r with body := "" }
  else if 200 ≤ r.status && r.status < 1000 then some r
  else none

end Response

/-- One who carries requests. Nothing comes back if the server cannot be reached. -/
structure Transport (m : Type → Type) where
  send : Request → m (Option Response)
  pause : Nat → m Unit

abbrev Answer := Except String Response

structure Agent (m : Type → Type) where
  send : Draft → m Answer
  pause : Nat → m Unit

def Transport.agent {m : Type → Type} [Monad m] (t : Transport m) : Agent m where
  send d :=
    match d.request? with
    | none => return .error "builder error"
    | some r => do
      match ← t.send r with
      | none => return .error s!"error sending request for url ({r.url.text})"
      | some response => return .ok response
  pause := t.pause

/-- A program that sends requests and pauses. -/
inductive Dialogue (α : Type) where
  | done (result : α)
  | send (draft : Draft) (next : Answer → Dialogue α)
  | pause (milliseconds : Nat) (next : Dialogue α)

def Dialogue.consult {m : Type → Type} [Monad m] {α : Type} (a : Agent m) : Dialogue α → m α
  | .done result => pure result
  | .send draft next => do
    let answer ← a.send draft
    (next answer).consult a
  | .pause milliseconds next => do
    a.pause milliseconds
    next.consult a

def Dialogue.run {m : Type → Type} [Monad m] {α : Type} (t : Transport m) (d : Dialogue α) : m α :=
  d.consult t.agent

/-! ## Prepared responses -/

/-- A server at one place that meets the first request with the first response, and so on; the
last one is for all further requests. Where there is none the connection breaks off. The server
remembers the requests. -/
def Transport.prepared (authority : String) (responses : List (Option Response)) :
    Transport (StateM (List Request)) where
  send r := fun earlier =>
    if r.url.authority = authority then
      let response := (responses[earlier.length]?.or responses.getLast?).join
      (response.bind Response.received?, earlier ++ [r])
    else (none, earlier)
  pause _ := pure ()

end Patchbay.Http
