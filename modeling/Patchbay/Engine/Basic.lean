import Patchbay.Event
import Patchbay.Policy
import Patchbay.Snapshot
import Patchbay.Staleness

/-!
# The engine

An engine holds a graph and is the only one to change it. Every operation is atomic: it maps an
engine to the engine afterwards, or to an error, in which case nothing has changed. What it
announces is appended to the log, and the runs that it starts on its own account are appended to
the schedule, from where they are taken in order.

`inFlight` counts the runs that are going on or scheduled, and `beat` counts the occasions on
which someone who waits for the end of a run has to look again.
-/

namespace Patchbay

/-- A graph with what is needed to run it. The scheduled nodes are to be run in the background. -/
structure Engine (σ : Type) where
  registry : Registry σ
  policy : Policy
  graph : Graph σ
  nextRun : Nat
  inFlight : Nat
  beat : Nat
  log : List Event
  scheduled : List NodeId

namespace Engine

variable {σ : Type}

def new (registry : Registry σ) (policy : Policy) : Engine σ :=
  ⟨registry, policy, .empty, 1, 0, 0, [], []⟩

def emit (e : Engine σ) (events : List Event) : Engine σ := { e with log := e.log ++ events }

/-- Have those who wait look again. -/
def notify (e : Engine σ) : Engine σ := { e with beat := e.beat + 1 }

/-- Have a node run in the background. The run counts from now on. -/
def schedule (e : Engine σ) (node : NodeId) : Engine σ :=
  { e with scheduled := e.scheduled ++ [node], inFlight := e.inFlight + 1 }

def scheduleAll (e : Engine σ) (nodes : List NodeId) : Engine σ := nodes.foldl schedule e

def withGraph (e : Engine σ) (g : Graph σ) : Engine σ := { e with graph := g }

@[simp] theorem graph_withGraph (e : Engine σ) (g : Graph σ) : (e.withGraph g).graph = g := rfl

@[simp] theorem registry_withGraph (e : Engine σ) (g : Graph σ) :
    (e.withGraph g).registry = e.registry := rfl

@[simp] theorem withGraph_withGraph (e : Engine σ) (g g' : Graph σ) :
    (e.withGraph g).withGraph g' = e.withGraph g' := rfl

end Engine

end Patchbay
