import Patchbay.Engine.View

/-!
# Runs

Executing a node. A run claims its node, executes the stale reactive nodes that feed it, reads
its inputs, computes, and writes the result back. Other operations may come between these steps,
so each step looks at the graph anew and recognizes its node by the number of the run:

  1. `enter`: the run is counted and numbered.
  2. `claim`: the node is claimed, unless it does not exist or another run has it.
  3. `toPull`: the stale reactive nodes that feed the node are listed; they are executed in
     order, each by a run of its own inside of this one. If one of them is claimed by another
     run, this one waits until it is not.
  4. `resolve`: the inputs are read. If one of them is stopped the node is blocked, and
     everything downstream of it. Otherwise the computation begins on the state and the inputs
     as they are now.
  5. `commit`: outputs or a failure are written to the node, if the claim still stands. The node
     becomes fresh if nothing invalidated it since its inputs were read.
  6. `release`, `notify`, `leave`, `notify`: the claim is given up if it still stands, and the
     run is not counted any more.
-/

namespace Patchbay

open Json

variable {σ : Type}

/-- How an execution ended that did not fail. It is blocked if an input is stopped, and discarded if
the node was gone, or made anew, before the run was through with it. -/
inductive Outcome where
  | completed (outputs : Outputs)
  | blocked
  | alreadyRunning
  | discarded
  deriving Inhabited

abbrev Ending := Except Error Outcome

namespace Node

def taken (n : Node σ) (run : Nat) : Node σ := { n with claimed := true, run := run }

def started (n : Node σ) : Node σ := { n with status := .generating }

/-- The node with a stopped input: the stop sign on each source, and no claim. -/
def blocked (n : Node σ) (ports : List Port) : Node σ :=
  { n with
    outputs := .stopped ((ports.filter Port.isSource).map (·.id))
    claimed := false
    status := .blocked }

def failed (n : Node σ) (message : String) : Node σ :=
  { n with claimed := false, status := .failed, lastError := some message }

/-- The node after its computation gave outputs. It becomes fresh if nothing invalidated it
since its inputs were read. -/
def completed (n : Node σ) (state : σ) (outputs : Outputs) (upToDate : Bool) : Node σ :=
  { n with
    state := state
    outputs := outputs
    claimed := false
    status := .succeeded
    lastError := none
    stale := n.stale && !upToDate }

def released (n : Node σ) (run : Nat) : Node σ :=
  if n.run == run && n.claimed then { n with claimed := false, status := n.status.settled }
  else n

end Node

namespace Wiring

/-- The inputs with the value on one more sink, if it is connected; nothing if its source has
none. -/
def readSink (w : Wiring) (value? : PortRef → Option Value) (id : NodeId) (inputs : Inputs)
    (p : Port) : Option Inputs :=
  match w.producerOf ⟨id, p.id⟩ with
  | none => some inputs
  | some source => (value? source).map (inputs.insert p.id ·)

def gather (w : Wiring) (value? : PortRef → Option Value) (id : NodeId) (ports : List Port) :
    Option Inputs :=
  (ports.filter Port.isSink).foldlM (w.readSink value? id) .empty

end Wiring

namespace Graph

/-- The value that a sink would read from this source: nothing if its node is gone or stale, or
if there is no value on the port. -/
def freshValue? (g : Graph σ) (source : PortRef) : Option Value :=
  ((g.node? source.node).filter fun n => !n.stale).bind fun n => n.outputs.value? source.port

def resolve (g : Graph σ) (id : NodeId) (ports : List Port) : Option Inputs :=
  g.wiring.gather g.freshValue? id ports

def block (g : Graph σ) (id : NodeId) (ports : List Port) : Graph σ × List Event :=
  let (g, invalidated) := (g.modify id (·.blocked ports)).invalidate id
  let (g, below) := g.blockBelow id
  (g, Event.invalidated invalidated ++ [.nodesBlocked (id :: below)])

/-- Write a state and outputs to a node. Its consumers are invalidated if the outputs differ from
the old ones, or if the policy asks for that; the list names those that become stale. -/
def complete (g : Graph σ) (p : Policy) (id : NodeId) (n : Node σ) (state : σ)
    (outputs : Outputs) (upToDate : Bool) : Graph σ × List NodeId :=
  let g := g.modify id (·.completed state outputs upToDate)
  if n.outputs != outputs || p.propagateUnchanged then g.invalidateAll (g.wiring.downstream id)
  else (g, [])

/-- The node, if the run with this number was the last to claim it. -/
def ownedNode? (g : Graph σ) (id : NodeId) (run : Nat) : Option (Node σ) :=
  (g.node? id).filter (·.run == run)

end Graph

/-- Where a run stands between two of its steps. While it pulls, the producers in `todo` are still
to be executed; while it computes, the inputs were read under `epoch`. -/
inductive Phase (σ : Type) where
  | entering
  | claiming (run : Nat)
  | listing (run : Nat)
  | pulling (run : Nat) (todo : List NodeId)
  | computing (run epoch : Nat) (definition : Definition σ) (context : Context σ)
      (computation : Computation)
  | releasing (run : Nat) (ending : Ending)
  | announcing (ending : Ending)
  | leaving (ending : Ending)
  | parting (ending : Ending)
  | ended (ending : Ending)

namespace Engine

variable [NodeState σ]

def enter (e : Engine σ) : Engine σ × Nat :=
  ({ e with inFlight := e.inFlight + 1, nextRun := e.nextRun + 1 }, e.nextRun)

def leave (e : Engine σ) : Engine σ := { e with inFlight := e.inFlight - 1 }

/-- Claim a node for a run. Without the claim the run has nothing to do but to leave. -/
def claim (e : Engine σ) (id : NodeId) (run : Nat) : Engine σ × Phase σ :=
  match e.graph.node? id with
  | none => (e, .leaving (.error (.nodeNotFound id)))
  | some n =>
    if n.claimed then (e, .leaving (.ok .alreadyRunning))
    else
      (e.withGraph (e.graph.modify id (·.taken run)), .listing run)

def toPull (e : Engine σ) (id : NodeId) : List NodeId :=
  (e.graph.wiring.feeders id).filter fun p =>
    (e.graph.node? p).any fun n => n.stale && e.registry.isReactive n.typeName

def discard (e : Engine σ) (id : NodeId) (run : Nat) : Engine σ × Phase σ :=
  (e.emit [.resultDiscarded id], .releasing run (.ok .discarded))

def resolve (e : Engine σ) (id : NodeId) (run : Nat) : Engine σ × Phase σ :=
  match e.graph.ownedNode? id run with
  | none => e.discard id run
  | some n =>
    match e.registry.get n.typeName with
    | .error err => (e, .releasing run (.error err))
    | .ok d =>
      match e.graph.resolve id (d.ports n.state) with
      | none =>
        let (g, events) := e.graph.block id (d.ports n.state)
        ((e.withGraph g).emit events, .releasing run (.ok .blocked))
      | some inputs =>
        let e := e.withGraph (e.graph.modify id Node.started)
        let context : Context σ := ⟨id, n.state, inputs⟩
        (e.emit [.nodeStarted id], .computing run n.epoch d context (d.compute context))

/-- Write outputs to a node. Its stale consumers run in the background if the policy asks for
that. -/
def commitOutputs (e : Engine σ) (id : NodeId) (n : Node σ) (epoch : Nat) (d : Definition σ)
    (outputs : Outputs) : Engine σ :=
  let state := d.applyResult n.state outputs
  let upToDate := n.epoch == epoch
  let (g, invalidated) := e.graph.complete e.policy id n state outputs upToDate
  let cascade :=
    if e.policy.cascade = .auto && upToDate then
      (e.graph.wiring.downstream id).filter fun c =>
        (g.node? c).any fun n => n.stale && !n.claimed
    else []
  let changed := if state == n.state then [] else [id]
  let events := Event.stateChanges changed ++ .nodeCompleted id outputs upToDate
    :: Event.invalidated invalidated
  ((e.withGraph g).emit events).scheduleAll cascade

def commitFailure (e : Engine σ) (id : NodeId) (err : Error) : Engine σ :=
  let (g, invalidated) := (e.graph.modify id (·.failed err.message)).invalidate id
  (e.withGraph g).emit (.nodeFailed id err.message :: Event.invalidated invalidated)

/-- Write the result of a computation to its node, if the claim still stands. -/
def commit (e : Engine σ) (id : NodeId) (run epoch : Nat) (d : Definition σ)
    (result : Except Failure Outputs) : Engine σ × Phase σ :=
  match (e.graph.ownedNode? id run).filter (·.claimed) with
  | none => e.discard id run
  | some n =>
    match result with
    | .ok outputs =>
      (e.commitOutputs id n epoch d outputs, .releasing run (.ok (.completed outputs)))
    | .error cause =>
      let err := Error.executionFailed id cause
      (e.commitFailure id err, .releasing run (.error err))

def release (e : Engine σ) (id : NodeId) (run : Nat) : Engine σ :=
  e.withGraph (e.graph.modify id (·.released run))

end Engine

/-! ## Steps of a task -/

/-- What a wait is for: the end of the run that has a node, or of all runs. -/
inductive Target where
  | node (id : NodeId)
  | all

/-- Where a wait stands: its target is still to be looked at, or there is nothing to do until the
beat is another one than it has seen. -/
inductive Watch where
  | starting
  | looking (seen : Nat)
  | parked (seen : Nat)

/-- One level of a task: what it does there. An errand is the place of a background run in the count
of runs, from when it is scheduled; the flag says whether that is given up already. -/
inductive Frame (σ : Type) where
  | run (node : NodeId) (phase : Phase σ)
  | wait (target : Target) (watch : Watch)
  | errand (left : Bool)

abbrev Stack (σ : Type) := List (Frame σ)

namespace Stack

def execution (id : NodeId) : Stack σ := [.run id .entering]

def background (id : NodeId) : Stack σ := [.run id .entering, .errand false]

def waiting (t : Target) : Stack σ := [.wait t .starting]

end Stack

namespace Engine

variable [NodeState σ]

def reached (e : Engine σ) : Target → Bool
  | .node id => (e.graph.node? id).all fun n => !n.claimed
  | .all => e.isIdle

/-- The next step of a run that has no other level inside of it. Nothing if the run has ended or
its computation waits to be given something. -/
def stepRun (e : Engine σ) (id : NodeId) : Phase σ → Option (Engine σ × Stack σ)
  | .entering =>
    let (e, run) := e.enter
    some (e, [.run id (.claiming run)])
  | .claiming run =>
    let (e, phase) := e.claim id run
    some (e, [.run id phase])
  | .listing run => some (e, [.run id (.pulling run (e.toPull id))])
  | .pulling run (p :: todo) => some (e, [.run p .entering, .run id (.pulling run todo)])
  | .pulling run [] =>
    let (e, phase) := e.resolve id run
    some (e, [.run id phase])
  | .computing run epoch d _ (.done result) =>
    let (e, phase) := e.commit id run epoch d result
    some (e, [.run id phase])
  | .computing _ _ _ _ _ => none
  | .releasing run ending => some (e.release id run, [.run id (.announcing ending)])
  | .announcing ending => some (e.notify, [.run id (.leaving ending)])
  | .leaving ending => some (e.leave, [.run id (.parting ending)])
  | .parting ending => some (e.notify, [.run id (.ended ending)])
  | .ended _ => none

/-- The next step of a wait; an empty stack if it is over, nothing if it is parked. -/
def stepWait (e : Engine σ) (t : Target) : Watch → Option (Stack σ)
  | .starting => some [.wait t (.looking e.beat)]
  | .looking seen => some (if e.reached t then [] else [.wait t (.parked seen)])
  | .parked seen => if e.beat = seen then none else some [.wait t (.looking e.beat)]

/-- The next step of a task. When an execution inside of another one has found its node claimed,
the outer one waits until it is not. Nothing if the task is over or cannot go on by itself. -/
def step (e : Engine σ) : Stack σ → Option (Engine σ × Stack σ)
  | [] => none
  | .run id (.ended (.ok .alreadyRunning)) :: .run outer phase :: rest =>
    some (e, .wait (.node id) .starting :: .run outer phase :: rest)
  | .run _ (.ended _) :: frame :: rest => some (e, frame :: rest)
  | .run id phase :: rest => (e.stepRun id phase).map fun (e, top) => (e, top ++ rest)
  | .wait t watch :: rest => (e.stepWait t watch).map fun top => (e, top ++ rest)
  | .errand false :: rest => some (e.leave, .errand true :: rest)
  | .errand true :: rest => some (e.notify, rest)

end Engine

namespace Stack

def pending? : Stack σ → Option Computation
  | .run _ (.computing _ _ _ _ (.done _)) :: _ => none
  | .run _ (.computing _ _ _ _ c) :: _ => some c
  | _ => none

def proceed (c : Computation) : Stack σ → Stack σ
  | .run id (.computing run epoch d context _) :: rest =>
    .run id (.computing run epoch d context c) :: rest
  | s => s

def parked? : Stack σ → Option Nat
  | .wait _ (.parked seen) :: _ => some seen
  | _ => none

def ending? : Stack σ → Option Ending
  | [.run _ (.ended ending)] => some ending
  | _ => none

end Stack

end Patchbay
