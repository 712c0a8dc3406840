import Patchbay.Generation.Request

/-!
# Generation providers

A provider carries out generation jobs. The monad is where it keeps what it knows between two
jobs, or where it reaches the service.
-/

namespace Patchbay.Generation

/-- One who carries out jobs. If it is gated, an outcome is held back until there is a permit for
it. -/
structure Provider (m : Type → Type) where
  generate : Request → m (Except Error Output)
  gated : Bool := false

def Provider.absent {m : Type → Type} [Pure m] : Provider m :=
  { generate := fun _ => pure (.error .notConfigured) }

/-! ## Prepared answers -/

inductive Reply where
  | echo
  | output (o : Output)
  | error (e : Error)
  deriving Inhabited

/-- What is made up from a prompt: one address with the prompt in it, or a story. -/
def Output.echo (r : Request) : Output :=
  match r.kind with
  | .image => ⟨[s!"https://mock/{r.prompt}.png"], none⟩
  | .video => ⟨[s!"https://mock/{r.prompt}.mp4"], none⟩
  | .text => ⟨[], some s!"story about {r.prompt}"⟩

def Reply.outcome (r : Request) : Reply → Except Error Output
  | .echo => .ok (.echo r)
  | .output o => .ok o
  | .error e => .error e

/-- A provider that meets the first job with the first reply, and so on; the last reply is for all
further jobs. It remembers the jobs. -/
def Provider.scripted (replies : List Reply) (gated : Bool) : Provider (StateM (List Request)) where
  generate r := fun earlier =>
    let reply := (replies[earlier.length]?.or replies.getLast?).getD .echo
    (reply.outcome r, earlier ++ [r])
  gated := gated

end Patchbay.Generation
