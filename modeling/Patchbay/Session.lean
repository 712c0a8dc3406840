import Patchbay.Engine.Edit
import Patchbay.Engine.Restore
import Patchbay.Engine.Run
import Patchbay.Generation.Provider

/-!
# Sessions

An engine with the tasks that run on it. One task at a time is at work, and it goes on until it
has ended or has to wait; the others stand in a queue, in the order in which they became ready.
A task waits for a permit of the gate, or for another beat of the engine.

A background run that the engine schedules enters the queue at once. When the engine's beat
changes, every task that waits for that enters the queue, in the order in which the tasks began
to wait. Permits go to the tasks that wait for one, in the same order; the others are kept.
-/

namespace Patchbay

variable {σ : Type}

/-- Whose task it is: of the one who waits for the result, of the one who will know the result by a
name, or of the engine. -/
inductive Owner where
  | foreground
  | named (name : String)
  | background
  deriving DecidableEq, Repr, Inhabited

structure Task (σ : Type) where
  owner : Owner
  stack : Stack σ

def Task.permitted (t : Task σ) : Task σ :=
  match t.stack.pending? with
  | some (.awaitPermit next) => { t with stack := t.stack.proceed next }
  | _ => t

abbrev Finish := Option Ending

/-- An engine with its tasks: one at work, those that are ready, those that wait for another beat
and those that wait for a permit. The endings are kept in order, without those of the engine. -/
structure Session (σ : Type) where
  engine : Engine σ
  current : Option (Task σ) := none
  queue : List (Task σ) := []
  parked : List (Task σ) := []
  held : List (Task σ) := []
  permits : Nat := 0
  ended : List (Owner × Finish) := []

namespace Session

/-- Put the engine's scheduled runs and the tasks that another beat has woken into the queue. -/
def collect (s : Session σ) : Session σ :=
  let isWoken := fun t : Task σ => t.stack.parked? != some s.engine.beat
  { s with
    engine := { s.engine with scheduled := [] }
    queue := s.queue ++ s.engine.scheduled.map (⟨.background, .background ·⟩)
      ++ s.parked.filter isWoken
    parked := s.parked.filter (!isWoken ·) }

def withEngine (s : Session σ) (e : Engine σ) : Session σ := collect { s with engine := e }

def spawn (s : Session σ) (name : String) (stack : Stack σ) : Session σ :=
  { s with queue := s.queue ++ [⟨.named name, stack⟩] }

/-- Give permits: first to the tasks that wait for one. -/
def addPermits (s : Session σ) (n : Nat) : Session σ :=
  { s with
    queue := s.queue ++ (s.held.take n).map Task.permitted
    held := s.held.drop n
    permits := s.permits + (n - s.held.length) }

def finish (s : Session σ) (t : Task σ) : Session σ :=
  { s with
    current := none
    ended := if t.owner = .background then s.ended else s.ended ++ [(t.owner, t.stack.ending?)] }

def acquire (s : Session σ) (t : Task σ) : Session σ :=
  match s.permits with
  | 0 => { s with current := none, held := s.held ++ [t] }
  | n + 1 => { s with current := some t.permitted, permits := n }

variable [NodeState σ] {m : Type → Type} [Monad m]

/-- One step of the task at work. -/
def stepTask (p : Generation.Provider m) (s : Session σ) (t : Task σ) : m (Session σ) :=
  match s.engine.step t.stack with
  | some (e, stack) => pure (({ s with current := some { t with stack := stack } }).withEngine e)
  | none =>
    match t.stack.pending? with
    | some (.awaitPermit _) => pure (s.acquire t)
    | some (.generate request next) => do
      let outcome ← p.generate request
      let next := if p.gated then .awaitPermit (next outcome) else next outcome
      return { s with current := some { t with stack := t.stack.proceed next } }
    | _ =>
      pure (match t.stack.parked? with
        | some _ => { s with current := none, parked := s.parked ++ [t] }
        | none => s.finish t)

/-- One step of the session: of the task at work, or else the first task of the queue goes to
work. Nothing if there is none. -/
def step? (p : Generation.Provider m) (s : Session σ) : Option (m (Session σ)) :=
  match s.current, s.queue with
  | some t, _ => some (s.stepTask p t)
  | none, t :: queue => some (pure { s with current := some t, queue := queue })
  | none, [] => none

def work (p : Generation.Provider m) : Nat → Session σ → m (Session σ)
  | 0, s => pure s
  | fuel + 1, s =>
    match s.current with
    | some t => do work p fuel (← s.stepTask p t)
    | none => pure s

/-- Steps, at most `fuel`, until every task has ended or waits. -/
def drain (p : Generation.Provider m) : Nat → Session σ → m (Session σ)
  | 0, s => pure s
  | fuel + 1, s =>
    match s.step? p with
    | some next => do drain p fuel (← next)
    | none => pure s

/-- More steps than any session takes that comes to an end. -/
def patience : Nat := 1000000000000000

/-- Execute a node in the foreground, with at most `fuel` steps: the queue does not move meanwhile.
Nothing if the execution has not ended, but waits. -/
def executeWithin (p : Generation.Provider m) (fuel : Nat) (s : Session σ) (id : NodeId) :
    m (Session σ × Option Ending) := do
  let s ← work p fuel { s with current := some ⟨.foreground, .execution id⟩ }
  return match s.ended.getLast? with
    | some (.foreground, ending) => ({ s with ended := s.ended.dropLast }, ending)
    | _ => (s, none)

def execute (p : Generation.Provider m) (s : Session σ) (id : NodeId) :
    m (Session σ × Option Ending) :=
  s.executeWithin p patience id

def takeEnded (s : Session σ) : Session σ × List (Owner × Finish) :=
  ({ s with ended := [] }, s.ended)

end Session

end Patchbay
