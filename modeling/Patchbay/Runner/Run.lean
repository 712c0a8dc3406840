import Patchbay.Runner.Arguments
import Patchbay.Runner.Settings
import Patchbay.Session
import Patchbay.Studio.Registry

/-!
# Running a saved graph

A run restores the graph of a file, executes one node, lets all that follows from that come to an
end, tells every event in one line, and writes the graph back. If the file cannot be read or has
no graph in it, nothing is written. Otherwise the graph is written whatever came of the execution.
-/

namespace Patchbay.Runner

open Json Generation

/-- Where a run takes place: files, the environment, and the way to the service. -/
structure Host (m : Type → Type) where
  transport : Http.Transport m
  lookup? : String → m (Option String)
  isThere : String → m Bool
  contents? : String → m (Option String)
  store : String → String → m Bool

/-- The lines to be shown, and the exit code: zero if the node completed, two if there is no result,
one if something failed. -/
structure Report where
  exit : UInt8
  lines : List String
  deriving DecidableEq, Repr, Inhabited

def Report.failure : Report := ⟨1, []⟩

def eventLine (e : Event) : String := (encode e).compact

def exitOf : Option Ending → UInt8
  | some (.ok (.completed _)) => 0
  | some (.ok _) | none => 2
  | some (.error _) => 1

variable {m : Type → Type} [Monad m]

/-- The settings of a file, or the default ones if there is no file, with what the environment
says. -/
def loadSettings (h : Host m) (file : Option String) : m (Except Settings.Problem Settings) := do
  let url ← h.lookup? Settings.urlVariable
  let key ← h.lookup? Settings.keyVariable
  let written ← match file with
    | none => pure (.ok {})
    | some name => do
      if ← h.isThere name then
        match ← h.contents? name with
        | some text => pure (Settings.ofText text)
        | none => pure (.error .io)
      else pure (.ok {})
  return written.map (·.overridden url key)

def load (policy : Policy) (text : String) : Except Error (Engine StudioNode) := do
  (Engine.new Studio.registry policy).restore (← Snapshot.ofText text)

/-- Execute a node, and all that follows from that, with at most `fuel` steps for each of the
two. -/
def executeWithin (fuel : Nat) (h : Host m) (b : Backend) (e : Engine StudioNode)
    (node : NodeId) : m (Engine StudioNode × Option Ending) := do
  let p := b.client.provider h.transport
  let (s, ending) ← Session.executeWithin p fuel { engine := e } node
  let s ← Session.drain p fuel s
  return (s.engine, ending)

def runWithin (fuel : Nat) (h : Host m) (a : Arguments) : m Report := do
  match ← loadSettings h a.config with
  | .error _ => return .failure
  | .ok settings =>
    match ← h.contents? a.graph with
    | none => return .failure
    | some text =>
      match load settings.policy text with
      | .error _ => return .failure
      | .ok engine =>
        let (engine, ending) ← executeWithin fuel h settings.backend engine a.node
        let isWritten ← if a.save then h.store a.graph engine.snapshot.text else pure true
        return ⟨if isWritten then exitOf ending else 1, engine.log.map eventLine⟩

def run (h : Host m) (a : Arguments) : m Report := runWithin Session.patience h a

end Patchbay.Runner
