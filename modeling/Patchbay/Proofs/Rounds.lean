import Patchbay.Proofs.Agreement
import Patchbay.Proofs.Draining

/-!
# Sessions that go round

An engine compares numbers, of runs, of invalidations, of beats, but never looks at how large they
are, and it only adds to its log. So a session that comes back to what it was, but for larger
numbers and a longer log, does the same again, and comes to no end.

Queues are emptied where hooks, results and edits leave the ports of a node as they are
(`Session.drains`). If a result may take the ports of its node away this is lost: the nodes below
run each other without end, though every computation is over at once and always gives the same.

What is proved here:
  1. `Engine.step_later`: a step of a task is the same step later on.
  2. `Session.drain_later`: so is the way of a whole queue.
  3. `Session.endless`: a session that comes back to itself never ends.
  4. `Valve.endless_rigged`: one that does.
-/

namespace Patchbay

open Json

variable {σ : Type}

/-- What has gone by between two states that are otherwise alike: how many runs and beats there
were, how often each node was invalidated, and what was announced before. -/
structure Lapse where
  runs : Nat := 0
  beats : Nat := 0
  epochs : NodeId → Nat := fun _ => 0
  events : List Event := []

variable {l : Lapse} {id : NodeId}

/-! ## Graphs -/

namespace Node

def later (n : Node σ) (l : Lapse) (id : NodeId) : Node σ :=
  { n with epoch := n.epoch + l.epochs id, run := n.run + l.runs }

variable (n : Node σ)

@[simp] theorem state_later : (n.later l id).state = n.state := rfl

@[simp] theorem typeName_later [NodeState σ] : (n.later l id).typeName = n.typeName := rfl

@[simp] theorem stale_later : (n.later l id).stale = n.stale := rfl

@[simp] theorem outputs_later : (n.later l id).outputs = n.outputs := rfl

@[simp] theorem claimed_later : (n.later l id).claimed = n.claimed := rfl

theorem touched_later : (n.later l id).touched = n.touched.later l id := by
  simp [later, touched, Nat.add_right_comm]

theorem invalidated_later : (n.later l id).invalidated = n.invalidated.later l id := by
  rw [invalidated, touched_later]
  rfl

theorem stopped_later : (n.later l id).stopped = n.stopped.later l id := by
  rw [stopped, invalidated_later]
  rfl

end Node

namespace Graph

def later (g : Graph σ) (l : Lapse) : Graph σ where
  nodes :=
    ⟨g.nodes.entries.map fun e => (e.1, e.2.later l e.1),
      List.pairwise_map.2 (g.nodes.sorted.imp fun h => h)⟩
  wiring := g.wiring

variable (g : Graph σ)

@[simp] theorem wiring_later : (g.later l).wiring = g.wiring := rfl

theorem node?_later (m : NodeId) : (g.later l).node? m = (g.node? m).map (·.later l m) := by
  obtain ⟨⟨entries, hsorted⟩, wiring⟩ := g
  simp only [node?, later, Dict.get?]
  clear hsorted
  induction entries with
  | nil => rfl
  | cons e rest ih =>
    by_cases hm : compare e.1 m = .eq
    · obtain rfl := Std.compare_eq_iff_eq.1 hm
      simp [Dict.find]
    · simpa [Dict.find, hm] using ih

theorem node?_later_eq_none (h : g.node? id = none) : (g.later l).node? id = none := by
  rw [node?_later, h, Option.map_none]

theorem node?_later_eq_some {n : Node σ} (h : g.node? id = some n) :
    (g.later l).node? id = some (n.later l id) := by
  rw [node?_later, h, Option.map_some]

theorem modify_later {f f' : Node σ → Node σ}
    (hf : ∀ n : Node σ, f' (n.later l id) = (f n).later l id) :
    (g.later l).modify id f' = (g.modify id f).later l := by
  refine ext_node? rfl fun m => ?_
  simp only [node?_modify, node?_later]
  split
  · rename_i hm
    subst hm
    cases g.node? id with
    | none => rfl
    | some n => simp only [Option.map_some, hf]
  · rfl

theorem later_still (events : List Event) : g.later { events := events } = g :=
  ext_node? rfl fun m => by
    rw [node?_later]
    exact Option.map_id_apply

theorem spread_later (queue : List NodeId) :
    (g.later l).spread queue = ((g.spread queue).1.later l, (g.spread queue).2) := by
  fun_induction Graph.spread g queue with
  | case1 g => rw [spread]
  | case2 g id queue hn ih => rw [spread_absent queue (g.node?_later_eq_none hn), ih]
  | case3 g id queue n hn hstale ih =>
    rw [spread_stale queue (g.node?_later_eq_some hn) hstale, g.modify_later Node.touched_later, ih]
  | case4 g id queue n hn hstale g₁ flipped heq ih =>
    rw [heq] at ih
    refine spread_fresh queue (g.node?_later_eq_some hn) hstale ?_
    rw [g.modify_later Node.invalidated_later]
    exact ih

theorem invalidateAll_later (ids : List NodeId) :
    (g.later l).invalidateAll ids = ((g.invalidateAll ids).1.later l, (g.invalidateAll ids).2) := by
  induction ids generalizing g with
  | nil => rfl
  | cons id rest ih => simp only [invalidateAll, invalidate, spread_later, ih]

theorem stopAll_later (visited queue : List NodeId) : (g.later l).stopAll visited queue =
    ((g.stopAll visited queue).1.later l, (g.stopAll visited queue).2) := by
  fun_induction Graph.stopAll g visited queue with
  | case1 g visited => rw [stopAll]
  | case2 g visited id queue hmem ih => rw [stopAll_visited queue hmem, ih]
  | case3 g visited id queue hmem hn ih =>
    rw [stopAll_absent queue hmem (g.node?_later_eq_none hn), ih]
  | case4 g visited id queue hmem n hn g₁ touched heq ih =>
    rw [heq] at ih
    refine stopAll_present queue hmem (g.node?_later_eq_some hn) ?_
    rw [g.modify_later Node.stopped_later]
    exact ih

theorem block_later (ports : List Port) :
    (g.later l).block id ports = ((g.block id ports).1.later l, (g.block id ports).2) := by
  have hmark : (g.later l).modify id (·.blocked ports) =
      (g.modify id (·.blocked ports)).later l := g.modify_later fun _ => rfl
  simp only [block, hmark, invalidate, spread_later, blockBelow, wiring_later, stopAll_later]

theorem complete_later (p : Policy) (n : Node σ) (state : σ) (outputs : Outputs)
    (upToDate : Bool) : (g.later l).complete p id (n.later l id) state outputs upToDate =
      ((g.complete p id n state outputs upToDate).1.later l,
        (g.complete p id n state outputs upToDate).2) := by
  have hmark : (g.later l).modify id (·.completed state outputs upToDate) =
      (g.modify id (·.completed state outputs upToDate)).later l := g.modify_later fun _ => rfl
  simp only [complete, hmark, Node.outputs_later]
  split
  · exact invalidateAll_later _ _
  · rfl

theorem freshValue?_later : (g.later l).freshValue? = g.freshValue? := by
  funext source
  rw [freshValue?, freshValue?, node?_later]
  cases g.node? source.node with
  | none => rfl
  | some n =>
    rw [Option.map_some, Option.filter_some, Option.filter_some]
    cases hstale : n.stale <;> simp [hstale]

theorem resolve_later (ports : List Port) :
    (g.later l).resolve id ports = g.resolve id ports := by
  rw [resolve, resolve, freshValue?_later, wiring_later]

theorem ownedNode?_later (run : Nat) :
    (g.later l).ownedNode? id (run + l.runs) = (g.ownedNode? id run).map (·.later l id) := by
  rw [ownedNode?, ownedNode?, node?_later]
  cases g.node? id with
  | none => rfl
  | some n => by_cases hrun : n.run = run <;> simp [Node.later, Option.filter, hrun]

end Graph

/-! ## Engines -/

def Phase.later (l : Lapse) (id : NodeId) : Phase σ → Phase σ
  | .claiming run => .claiming (run + l.runs)
  | .listing run => .listing (run + l.runs)
  | .pulling run todo => .pulling (run + l.runs) todo
  | .computing run epoch d context c =>
    .computing (run + l.runs) (epoch + l.epochs id) d context c
  | .releasing run ending => .releasing (run + l.runs) ending
  | phase => phase

def Watch.later (l : Lapse) : Watch → Watch
  | .starting => .starting
  | .looking seen => .looking (seen + l.beats)
  | .parked seen => .parked (seen + l.beats)

def Frame.later (l : Lapse) : Frame σ → Frame σ
  | .run id phase => .run id (phase.later l id)
  | .wait target watch => .wait target (watch.later l)
  | .errand left => .errand left

def Stack.later (l : Lapse) (s : Stack σ) : Stack σ := s.map (Frame.later l)

namespace Engine

def later (e : Engine σ) (l : Lapse) : Engine σ :=
  { e with
    graph := e.graph.later l
    nextRun := e.nextRun + l.runs
    beat := e.beat + l.beats
    log := l.events ++ e.log }

variable (e : Engine σ)

@[simp] theorem registry_later : (e.later l).registry = e.registry := rfl

@[simp] theorem policy_later : (e.later l).policy = e.policy := rfl

@[simp] theorem graph_later : (e.later l).graph = e.graph.later l := rfl

theorem emit_later (events : List Event) : (e.later l).emit events = (e.emit events).later l := by
  simp only [emit, later, List.append_assoc]

theorem withGraph_later (g : Graph σ) :
    (e.later l).withGraph (g.later l) = (e.withGraph g).later l := rfl

theorem scheduleAll_later (ids : List NodeId) :
    (e.later l).scheduleAll ids = (e.scheduleAll ids).later l := by
  induction ids generalizing e with
  | nil => rfl
  | cons id rest ih => exact ih (e.schedule id)

theorem claim_later (run : Nat) : (e.later l).claim id (run + l.runs) =
    ((e.claim id run).1.later l, (e.claim id run).2.later l id) := by
  have hmark : (e.graph.later l).modify id (·.taken (run + l.runs)) =
      (e.graph.modify id (·.taken run)).later l := e.graph.modify_later fun _ => rfl
  rw [claim, claim, graph_later, Graph.node?_later, hmark]
  cases e.graph.node? id with
  | none => rfl
  | some n =>
    rw [Option.map_some]
    cases hclaimed : n.claimed with
    | true =>
      simp only [Node.claimed_later, hclaimed, if_true]
      rfl
    | false =>
      simp only [Node.claimed_later, hclaimed, Bool.false_eq_true, if_false]
      rfl

theorem commitFailure_later (err : Error) :
    (e.later l).commitFailure id err = (e.commitFailure id err).later l := by
  have hmark : (e.graph.later l).modify id (·.failed err.message) =
      (e.graph.modify id (·.failed err.message)).later l := e.graph.modify_later fun _ => rfl
  simp only [commitFailure, graph_later, hmark, Graph.invalidate, Graph.spread_later,
    withGraph_later, emit_later]

theorem release_later (run : Nat) :
    (e.later l).release id (run + l.runs) = (e.release id run).later l := by
  refine congrArg (e.later l).withGraph (e.graph.modify_later fun n => ?_)
  by_cases h : n.run = run ∧ n.claimed = true <;> simp [Node.released, Node.later, h]

theorem reached_later (t : Target) : (e.later l).reached t = e.reached t := by
  cases t with
  | all => rfl
  | node id =>
    rw [reached, reached, graph_later, Graph.node?_later]
    cases e.graph.node? id <;> rfl

theorem stepWait_later (t : Target) (watch : Watch) :
    (e.later l).stepWait t (watch.later l) = (e.stepWait t watch).map (Stack.later l) := by
  cases watch with
  | starting => rfl
  | looking seen =>
    simp only [Watch.later, stepWait, reached_later]
    cases e.reached t <;> rfl
  | parked seen =>
    have hbeat : (e.later l).beat = seen + l.beats ↔ e.beat = seen := Nat.add_right_cancel_iff
    simp only [Watch.later, stepWait, hbeat]
    split <;> rfl

variable [NodeState σ]

theorem toPull_later : (e.later l).toPull id = e.toPull id := by
  refine List.filter_congr fun m _ => ?_
  rw [graph_later, Graph.node?_later]
  cases e.graph.node? m <;> rfl

theorem resolve_later (run : Nat) : (e.later l).resolve id (run + l.runs) =
    ((e.resolve id run).1.later l, (e.resolve id run).2.later l id) := by
  have hmark : (e.graph.later l).modify id Node.started =
      (e.graph.modify id Node.started).later l := e.graph.modify_later fun _ => rfl
  rw [resolve, resolve, graph_later, Graph.ownedNode?_later]
  cases e.graph.ownedNode? id run with
  | none => exact congrArg (·, _) (e.emit_later _)
  | some n =>
    simp only [Option.map_some, Node.typeName_later, registry_later]
    cases e.registry.get n.typeName with
    | error err => rfl
    | ok d =>
      simp only [Node.state_later, Graph.resolve_later]
      cases e.graph.resolve id (d.ports n.state) with
      | none =>
        simp only [Graph.block_later, withGraph_later, emit_later]
        rfl
      | some inputs =>
        simp only [hmark, withGraph_later, emit_later]
        rfl

theorem commitOutputs_later (n : Node σ) (epoch : Nat) (d : Definition σ) (outputs : Outputs) :
    (e.later l).commitOutputs id (n.later l id) (epoch + l.epochs id) d outputs =
      (e.commitOutputs id n epoch d outputs).later l := by
  have hepoch : ((n.later l id).epoch == epoch + l.epochs id) = (n.epoch == epoch) := by
    simp [Node.later]
  have hready : ∀ (g : Graph σ) c, ((g.later l).node? c).any (fun n => n.stale && !n.claimed) =
      (g.node? c).any fun n => n.stale && !n.claimed := fun g c => by
    rw [Graph.node?_later]
    cases g.node? c <;> rfl
  simp only [commitOutputs, hepoch, graph_later, policy_later, Graph.wiring_later,
    Node.state_later, Graph.complete_later, hready, withGraph_later, emit_later, scheduleAll_later]
  rfl

theorem commit_later (run epoch : Nat) (d : Definition σ) (result : Except Failure Outputs) :
    (e.later l).commit id (run + l.runs) (epoch + l.epochs id) d result =
      ((e.commit id run epoch d result).1.later l,
        (e.commit id run epoch d result).2.later l id) := by
  rw [commit, commit, graph_later, Graph.ownedNode?_later]
  cases e.graph.ownedNode? id run with
  | none => exact congrArg (·, _) (e.emit_later _)
  | some n =>
    rw [Option.map_some, Option.filter_some, Option.filter_some, Node.claimed_later]
    cases n.claimed with
    | false => exact congrArg (·, _) (e.emit_later _)
    | true =>
      cases result with
      | ok outputs => exact congrArg (·, _) (e.commitOutputs_later n epoch d outputs)
      | error cause => exact congrArg (·, _) (e.commitFailure_later _)

theorem stepRun_later (phase : Phase σ) : (e.later l).stepRun id (phase.later l id) =
    (e.stepRun id phase).map fun (e, top) => (e.later l, Stack.later l top) := by
  have hrun : ∀ {x y : Engine σ × Phase σ}, x = y →
      some (x.1, [Frame.run id x.2]) = some (y.1, [Frame.run id y.2]) := fun h => by rw [h]
  cases phase with
  | entering =>
    exact congrArg (fun run => some ({ e.enter.1.later l with nextRun := run }, _))
      (Nat.add_right_comm e.nextRun l.runs 1)
  | claiming run => exact hrun (e.claim_later run)
  | listing run =>
    exact congrArg (fun todo => some (e.later l, [Frame.run id (.pulling (run + l.runs) todo)]))
      e.toPull_later
  | pulling run todo =>
    cases todo with
    | cons p todo => rfl
    | nil => exact hrun (e.resolve_later run)
  | computing run epoch d context c =>
    cases c with
    | done result => exact hrun (e.commit_later run epoch d result)
    | _ => rfl
  | releasing run ending => exact congrArg (fun e => some (e, _)) (e.release_later run)
  | announcing ending | parting ending =>
    exact congrArg (fun beat => some ({ e.notify.later l with beat := beat }, _))
      (Nat.add_right_comm e.beat l.beats 1)
  | _ => rfl

theorem step_later (s : Stack σ) : (e.later l).step (s.later l) =
    (e.step s).map fun (e, s) => (e.later l, Stack.later l s) := by
  have hrest : ∀ (rest top : Stack σ), top.later l ++ rest.later l = (top ++ rest).later l :=
    fun rest top => List.map_append.symm
  cases s with
  | nil => rfl
  | cons f rest =>
    cases f with
    | run id phase =>
      by_cases hended : ∃ ending, phase = .ended ending
      · obtain ⟨ending, rfl⟩ := hended
        cases rest with
        | nil =>
          rw [step_of_isOver (.inr ⟨id, ending, rfl⟩)]
          exact step_of_isOver (.inr ⟨id, ending, rfl⟩)
        | cons f rest =>
          by_cases hbusy : ending = .ok .alreadyRunning
          · subst hbusy
            cases f <;> rfl
          · rw [step_ended hbusy]
            exact step_ended hbusy _
      · have hnot : ∀ ending, phase ≠ .ended ending := fun ending h => hended ⟨ending, h⟩
        have hnot' : ∀ ending, phase.later l id ≠ .ended ending := by
          intro ending h
          cases phase <;> first
            | exact hnot _ h
            | cases h
        rw [step_run hnot]
        refine (step_run hnot').trans ?_
        rw [stepRun_later, Option.map_map, Option.map_map]
        exact congrArg (Option.map · _) (funext fun x => congrArg (_, ·) (hrest rest x.2))
    | wait t watch =>
      show ((e.later l).stepWait t (watch.later l)).map _ = Option.map _ ((e.stepWait t watch).map _)
      rw [stepWait_later, Option.map_map, Option.map_map]
      exact congrArg (Option.map · _) (funext fun top => congrArg (_, ·) (hrest rest top))
    | errand left =>
      cases left with
      | false => rfl
      | true =>
        exact congrArg (fun beat => some ({ e.notify.later l with beat := beat }, _))
          (Nat.add_right_comm e.beat l.beats 1)

end Engine

namespace Stack

theorem pending?_later (s : Stack σ) : (s.later l).pending? = s.pending? := by
  cases s with
  | nil => rfl
  | cons f rest =>
    cases f with
    | run id phase =>
      cases phase with
      | computing run epoch d context c => cases c <;> rfl
      | _ => rfl
    | _ => rfl

theorem proceed_later (s : Stack σ) (c : Computation) :
    (s.later l).proceed c = (s.proceed c).later l := by
  cases s with
  | nil => rfl
  | cons f rest =>
    cases f with
    | run id phase => cases phase <;> rfl
    | _ => rfl

theorem parked?_later (s : Stack σ) : (s.later l).parked? = s.parked?.map (· + l.beats) := by
  cases s with
  | nil => rfl
  | cons f rest =>
    cases f with
    | wait t watch => cases watch <;> rfl
    | _ => rfl

theorem ending?_later (s : Stack σ) : (s.later l).ending? = s.ending? := by
  cases s with
  | nil => rfl
  | cons f rest =>
    cases f with
    | run id phase => cases phase <;> cases rest <;> rfl
    | _ => rfl

end Stack

/-! ## Sessions -/

def Task.later (l : Lapse) (t : Task σ) : Task σ := { t with stack := t.stack.later l }

theorem Task.permitted_later (t : Task σ) : (t.later l).permitted = t.permitted.later l := by
  simp only [permitted, later, Stack.pending?_later]
  split
  · simp only [Stack.proceed_later]
  · rfl

namespace Session

/-- The session as it would be later on. What has ended is on record already. -/
def later (l : Lapse) (s : Session σ) : Session σ :=
  { s with
    engine := s.engine.later l
    current := s.current.map (Task.later l)
    queue := s.queue.map (Task.later l)
    parked := s.parked.map (Task.later l)
    held := s.held.map (Task.later l) }

variable (s : Session σ)

theorem collect_later : collect (s.later l) = (collect s).later l := by
  have hwoken : ∀ t : Task σ, ((t.later l).stack.parked? != some (s.engine.later l).beat) =
      (t.stack.parked? != some s.engine.beat) := by
    intro t
    show ((t.stack.later l).parked? != some (s.engine.beat + l.beats)) = _
    rw [Stack.parked?_later]
    cases t.stack.parked? <;> simp [bne]
  simp only [collect, later, List.filter_map, Function.comp_def, hwoken, List.map_append,
    List.map_map]
  rfl

theorem withEngine_later (e : Engine σ) :
    (s.later l).withEngine (e.later l) = (s.withEngine e).later l :=
  collect_later { s with engine := e }

theorem finish_later (t : Task σ) : (s.later l).finish (t.later l) = (s.finish t).later l := by
  have hending : (t.later l).stack.ending? = t.stack.ending? := t.stack.ending?_later
  have howner : (t.later l).owner = t.owner := rfl
  simp only [finish, hending, howner]
  rfl

theorem acquire_later (t : Task σ) : (s.later l).acquire (t.later l) = (s.acquire t).later l := by
  have hpermits : (s.later l).permits = s.permits := rfl
  simp only [acquire, hpermits]
  cases s.permits with
  | zero => simp [later]
  | succ n => simp [later, Task.permitted_later]

variable [NodeState σ] {m : Type → Type} [Monad m] [LawfulMonad m] (p : Generation.Provider m)

theorem stepTask_later (t : Task σ) :
    (s.later l).stepTask p (t.later l) = (·.later l) <$> s.stepTask p t := by
  have hstep : (s.later l).engine.step (t.later l).stack = _ := s.engine.step_later t.stack
  rw [stepTask, stepTask, hstep]
  cases s.engine.step t.stack with
  | some x =>
    rw [Option.map_some, map_pure]
    exact congrArg pure (withEngine_later { s with current := some { t with stack := x.2 } } x.1)
  | none =>
    have hpending : (t.later l).stack.pending? = t.stack.pending? := t.stack.pending?_later
    have hparked : (t.later l).stack.parked? = t.stack.parked?.map (· + l.beats) :=
      t.stack.parked?_later
    have hproceed : ∀ c, (t.later l).stack.proceed c = (t.stack.proceed c).later l :=
      t.stack.proceed_later
    simp only [Option.map_none, hpending, hparked, hproceed]
    split
    · rw [acquire_later, map_pure]
    · rw [map_bind]
      simp only [map_pure]
      rfl
    · rw [map_pure]
      cases t.stack.parked? with
      | some seen => simp [later]
      | none => exact congrArg pure (s.finish_later t)

theorem step?_later : (s.later l).step? p = (s.step? p).map ((·.later l) <$> ·) := by
  have hcurrent : (s.later l).current = s.current.map (Task.later l) := rfl
  have hqueue : (s.later l).queue = s.queue.map (Task.later l) := rfl
  rw [step?, step?, hcurrent, hqueue]
  cases s.current with
  | some t => exact congrArg some (s.stepTask_later p t)
  | none =>
    cases s.queue with
    | nil => rfl
    | cons t queue =>
      simp only [Option.map_none, List.map_cons, Option.map_some, map_pure]
      rfl

theorem drain_later (fuel : ℕ) : drain p fuel (s.later l) = (·.later l) <$> drain p fuel s := by
  induction fuel generalizing s with
  | zero => exact (map_pure _ _).symm
  | succ fuel ih =>
    rw [drain, drain, step?_later]
    cases s.step? p with
    | none => exact (map_pure _ _).symm
    | some next => simp only [Option.map_some, map_bind, bind_map_left, ih]

theorem drain_add (a b : ℕ) : drain p (a + b) s = drain p a s >>= drain p b := by
  induction a generalizing s with
  | zero => rw [Nat.zero_add, drain, pure_bind]
  | succ a ih =>
    rw [Nat.succ_add, drain, drain]
    cases hstep : s.step? p with
    | none =>
      rw [pure_bind]
      cases b with
      | zero => rfl
      | succ b => rw [drain, hstep]
    | some next => simp only [bind_assoc, ih]

end Session

/-! ## What no run changes -/

def Engine.setting (e : Engine σ) : Registry σ × Policy × Wiring :=
  (e.registry, e.policy, e.graph.wiring)

theorem Engine.setting_step [NodeState σ] {e e' : Engine σ} {s s' : Stack σ}
    (h : e.step s = some (e', s')) : e'.setting = e.setting := by
  obtain ⟨top, rest, new, -, -, hturn⟩ := turn_of_step h
  obtain ⟨hregistry, hpolicy⟩ := registry_turn hturn
  rw [setting, setting, hregistry, hpolicy, wiring_turn hturn]

namespace Session

variable [NodeState σ] (p : Generation.Provider Id)

theorem setting_stepTask (s : Session σ) (t : Task σ) :
    (s.stepTask p t).run.engine.setting = s.engine.setting := by
  rw [stepTask]
  cases hstep : s.engine.step t.stack with
  | some x =>
    have hsetting : x.1.setting = s.engine.setting := Engine.setting_step hstep
    exact hsetting
  | none =>
    dsimp only
    split
    · rw [acquire]
      split <;> rfl
    · rfl
    · split <;> rfl

theorem setting_drain (fuel : ℕ) (s : Session σ) :
    (drain p fuel s).run.engine.setting = s.engine.setting := by
  induction fuel generalizing s with
  | zero => rfl
  | succ fuel ih =>
    rw [drain, step?]
    cases s.current with
    | some t => exact (ih _).trans (setting_stepTask p s t)
    | none =>
      cases s.queue with
      | nil => rfl
      | cons t queue => exact ih _

end Session

/-! ## Without end -/

def Event.isStart : Event → Bool
  | .nodeStarted _ => true
  | _ => false

namespace Session

variable {s s' : Session σ} {l past : Lapse}

def computations (s : Session σ) : ℕ := s.engine.log.countP Event.isStart

theorem computations_later (s : Session σ) :
    (s.later l).computations = l.events.countP Event.isStart + s.computations :=
  List.countP_append

theorem le_computations_iterate (hl : 0 < l.events.countP Event.isStart) (s : Session σ) (k : ℕ) :
    k ≤ ((later l)^[k] s).computations := by
  induction k with
  | zero => exact Nat.zero_le _
  | succ k ih =>
    rw [Function.iterate_succ_apply', computations_later]
    omega

theorem queue_iterate (hqueue : s.queue ≠ []) (k : ℕ) : ((later l)^[k] s).queue ≠ [] := by
  induction k with
  | zero => exact hqueue
  | succ k ih =>
    rw [Function.iterate_succ_apply']
    exact fun h => ih (List.map_eq_nil_iff.1 h)

variable [NodeState σ] {m : Type → Type} [Monad m] [LawfulMonad m] {p : Generation.Provider m}
  {period before : ℕ}

/-- A session that comes back to itself, later, does so again and again. -/
theorem drain_rounds (hround : drain p period s = pure (s.later l)) (k : ℕ) :
    drain p (period * k) s = pure ((later l)^[k] s) := by
  induction k with
  | zero => rfl
  | succ k ih =>
    rw [Nat.mul_succ, Nat.add_comm, drain_add, hround, pure_bind, drain_later, ih, map_pure,
      Function.iterate_succ_apply']

omit [LawfulMonad m] in
theorem drain_of_done (hcurrent : s.current = none) (hqueue : s.queue = []) (fuel : ℕ) :
    drain p fuel s = pure s := by
  cases fuel with
  | zero => rfl
  | succ fuel => rw [drain, step?, hcurrent, hqueue]

/-- The queue is never worked off, and the computations are more than any number. -/
structure Endless (p : Generation.Provider Id) (s : Session σ) : Prop where
  goesOn : ∀ fuel, ¬ ((drain p fuel s).run.current = none ∧ (drain p fuel s).run.queue = [])
  computes : ∀ k, ∃ fuel, k ≤ (drain p fuel s).run.computations

/-- A session never ends that comes to where it goes round, if there is something to run there and
something to compute on the way. -/
theorem endless {p : Generation.Provider Id} (hperiod : 0 < period) {start : Session σ}
    (hstart : drain p before start = (pure (s.later past) : Id (Session σ)))
    (hround : drain p period s = (pure (s.later l) : Id (Session σ))) (hqueue : s.queue ≠ [])
    (hl : 0 < l.events.countP Event.isStart) : start.Endless p := by
  have hrounds : ∀ k, drain p (before + period * k) start =
      (pure (later past ((later l)^[k] s)) : Id (Session σ)) := fun k => by
    rw [drain_add, hstart, pure_bind, drain_later, drain_rounds hround, map_pure]
  refine ⟨fun fuel ⟨hcurrent, hend⟩ => ?_, fun k => ⟨before + period * k, ?_⟩⟩
  · -- After that many rounds the session has taken more steps than it had to the end.
    obtain ⟨rest, hrest⟩ : ∃ rest, before + period * fuel = fuel + rest :=
      Nat.exists_eq_add_of_le (Nat.le_add_left_of_le (Nat.le_mul_of_pos_left fuel hperiod))
    have hsame : (drain p fuel start).run = later past ((later l)^[fuel] s) := by
      have h := hrounds fuel
      rw [hrest, drain_add] at h
      exact (drain_of_done hcurrent hend rest).symm.trans h
    rw [hsame] at hend
    exact queue_iterate hqueue fuel (List.map_eq_nil_iff.1 hend)
  · rw [hrounds]
    show k ≤ (later past _).computations
    rw [computations_later]
    exact Nat.le_add_left_of_le (le_computations_iterate hl s k)

end Session

/-! ## Telling sessions apart -/

/-- The outputs are seen to be the same, as they are stopped. -/
def Outputs.Matches (o o' : Outputs) : Prop :=
  o.keys = o'.keys ∧ o.values.all PortValue.isStop = true ∧ o'.values.all PortValue.isStop = true

instance (o o' : Outputs) : Decidable (o.Matches o') := inferInstanceAs (Decidable (_ ∧ _ ∧ _))

theorem Outputs.entries_of_isStop {o : Outputs} (h : o.values.all PortValue.isStop = true) :
    o.entries = o.keys.map (·, .stop) := by
  rw [Dict.keys, List.map_map]
  refine ((List.map_congr_left fun e he => ?_).trans (List.map_id _)).symm
  have hstop : e.2.isStop = true := List.all_eq_true.1 h e.2 (List.mem_map_of_mem he)
  obtain ⟨port, value⟩ := e
  cases value with
  | stop => rfl
  | value v => cases hstop

theorem Outputs.Matches.eq {o o' : Outputs} (h : o.Matches o') : o = o' := by
  obtain ⟨hkeys, hstop, hstop'⟩ := h
  refine Dict.entries_inj ?_
  rw [entries_of_isStop hstop, entries_of_isStop hstop', hkeys]

def Node.Matches (n n' : Node σ) : Prop :=
  n.outputs.Matches n'.outputs ∧ (n.id, n.state, n.stale, n.claimed, n.status, n.lastError) =
    (n'.id, n'.state, n'.stale, n'.claimed, n'.status, n'.lastError) ∧
  (n.epoch, n.run) = (n'.epoch, n'.run)

instance [DecidableEq σ] (n n' : Node σ) : Decidable (n.Matches n') :=
  inferInstanceAs (Decidable (_ ∧ _ ∧ _))

theorem Node.Matches.eq {n n' : Node σ} (h : n.Matches n') : n = n' := by
  obtain ⟨houtputs, hfields, hnumbers⟩ := h
  have houtputs := houtputs.eq
  cases n
  cases n'
  cases houtputs
  cases hfields
  cases hnumbers
  rfl

/-- The engines, which are of one setting, are seen to be the same, but for what they have
announced. -/
def Engine.Matches (e e' : Engine σ) : Prop :=
  (e.nextRun, e.inFlight, e.beat, e.scheduled) = (e'.nextRun, e'.inFlight, e'.beat, e'.scheduled) ∧
  List.Forall₂ (fun n n' => n.1 = n'.1 ∧ n.2.Matches n'.2) e.graph.nodes.entries
    e'.graph.nodes.entries

instance [DecidableEq σ] (e e' : Engine σ) : Decidable (e.Matches e') :=
  inferInstanceAs (Decidable (_ ∧ _))

theorem Engine.Matches.eq {e e' : Engine σ} (h : e.Matches e') (hsetting : e.setting = e'.setting)
    (hlog : e.log = e'.log) : e = e' := by
  obtain ⟨hnumbers, hentries⟩ := h
  have hnodes : e.graph.nodes = e'.graph.nodes := by
    refine Dict.entries_inj (List.forall₂_eq_eq_eq ▸ hentries.imp fun n n' h => ?_)
    exact Prod.ext h.1 h.2.eq
  obtain ⟨registry, policy, ⟨nodes, wiring⟩, nextRun, inFlight, beat, log, scheduled⟩ := e
  obtain ⟨registry', policy', ⟨nodes', wiring'⟩, nextRun', inFlight', beat', log', scheduled'⟩ := e'
  cases hnumbers
  cases hsetting
  cases hlog
  cases hnodes
  rfl

namespace Session

/-- A session in which nothing but a background run of this node is to come. -/
def poised (e : Engine σ) (id : NodeId) : Session σ :=
  { engine := e, queue := [⟨.background, .background id⟩] }

/-- The node of which a background run is to come, if nothing else is. -/
def poised? : Session σ → Option NodeId
  | ⟨_, none, [⟨.background, [.run id .entering, .errand false]⟩], [], [], 0, []⟩ => some id
  | _ => none

theorem eq_of_poised? {s : Session σ} {id : NodeId} (h : s.poised? = some id) :
    s = poised s.engine id := by
  unfold poised? at h
  split at h
  · cases h
    rfl
  · cases h

variable [NodeState σ] {p : Generation.Provider Id}

/-- What has to be looked at to see that a session goes round: it comes to where a run of one node
is all that is to come, and from there to where this is so again. -/
theorem endless_of_matches (start : Session σ) (before period : ℕ) (hperiod : 0 < period)
    (id : NodeId) {e : Engine σ} (he : e = { (drain p before start).run.engine with log := [] })
    {s : Session σ} (hs : s = (drain p period (poised e id)).run)
    (hstart : (drain p before start).run.poised? = some id) (hround : s.poised? = some id)
    (l : Lapse) (hmatches : s.engine.Matches (e.later l)) (hlog : 0 < s.computations) :
    start.Endless p := by
  have hblank : e.log = [] := he ▸ rfl
  have hthere : (drain p before start).run =
      (poised e id).later { events := (drain p before start).run.engine.log } := by
    rw [eq_of_poised? hstart]
    refine congrArg (poised · id) ?_
    rw [he]
    generalize (drain p before start).run.engine = e₁
    show e₁ = { e₁ with graph := e₁.graph.later _, log := e₁.log ++ [] }
    rw [Graph.later_still, List.append_nil]
  have hagain : drain p period (poised e id) =
      (pure ((poised e id).later { l with events := s.engine.log }) : Id (Session σ)) := by
    have hengine : s.engine = e.later { l with events := s.engine.log } := by
      refine Engine.Matches.eq hmatches ?_ ?_
      · subst hs
        exact setting_drain p period (poised e id)
      · show s.engine.log = s.engine.log ++ e.log
        rw [hblank, List.append_nil]
    show (drain p period (poised e id)).run = _
    rw [← hs, eq_of_poised? hround]
    exact congrArg (poised · id) hengine
  exact endless hperiod hthere hagain (List.cons_ne_nil _ _) hlog

end Session

/-! ## A valve that shuts -/

/-- A well that is dry, a pipe, and a valve that is open until water has come through. -/
inductive ValveNode where
  | well
  | pipe
  | valve (shut : Bool)
  deriving DecidableEq

instance : Codec ValveNode where
  encode
    | .well => .string "well"
    | .pipe => .string "pipe"
    | .valve shut => .string (if shut then "shut" else "open")
  decode? := Document.named?
    [("well", .well), ("pipe", .pipe), ("open", .valve false), ("shut", .valve true)]

instance : NodeState ValveNode where
  typeName
    | .well => "well"
    | .pipe => "pipe"
    | .valve _ => "valve"
  symm := BEq.symm
  trans := BEq.trans

namespace Valve

def outlet : Port := .source "output" .any 0 0

/-- A type without hooks. What it computes depends on nothing. -/
def type (name : String) (state : ValveNode) (ports : ValveNode → List Port)
    (result : Except Failure Outputs) : Definition ValveNode where
  metadata := ⟨name, name, .control, "", .reactive⟩
  defaultState := state
  bodyHeight _ := 0
  ports := ports
  compute _ := .done result

def well : Definition ValveNode :=
  type "well" .well (fun _ => [outlet]) (.error (.stated "dry"))

def pipe : Definition ValveNode :=
  type "pipe" .pipe (fun _ => [.sink "a" .any 0 0, .sink "b" .any 0 0, outlet])
    (.ok (.single "output" .null))

def valve : Definition ValveNode :=
  { type "valve" (.valve false)
      (fun s => if s = .valve true then [outlet] else [.sink "input" .any 0 0, outlet])
      (.ok (.single "output" .null)) with
    applyResult := fun _ _ => .valve true }

def registry : Registry ValveNode := .ofList [well, pipe, valve]

theorem exists_compute {s : ValveNode} {d : Definition ValveNode} (h : registry.of? s = some d) :
    ∃ result, ∀ context, d.compute context = .done result := by
  have hmem := Dict.mem_of_ofList h
  simp only [List.map_cons, List.map_nil, List.mem_cons, Prod.mk.injEq, List.not_mem_nil,
    or_false] at hmem
  rcases hmem with ⟨-, rfl⟩ | ⟨-, rfl⟩ | ⟨-, rfl⟩ <;> exact ⟨_, fun _ => rfl⟩

theorem settling_registry : registry.Settling where
  total d context hd := by
    obtain ⟨result, hcompute⟩ := exists_compute hd
    exact ⟨result, hcompute context⟩
  stable d context outputs hd hresult := by
    obtain ⟨result, hcompute⟩ := exists_compute hd
    rw [hcompute] at hresult ⊢
    exact hresult

/-- The valve `d` is fed by the pipe `n`, and shuts. Then `n` is connected to the well `s`, and the
pipes `f` and `g` to `d` and `n`. -/
def rigged : List (Move ValveNode) :=
  [.create "n" "pipe", .create "d" "valve", .connect ⟨"n", "output"⟩ ⟨"d", "input"⟩, .start "d"] ++
    List.replicate 22 (.step 0) ++
  [.create "s" "well", .create "f" "pipe", .create "g" "pipe",
    .connect ⟨"s", "output"⟩ ⟨"n", "a"⟩, .connect ⟨"d", "output"⟩ ⟨"f", "a"⟩,
    .connect ⟨"n", "output"⟩ ⟨"f", "b"⟩, .connect ⟨"d", "output"⟩ ⟨"g", "a"⟩,
    .connect ⟨"n", "output"⟩ ⟨"g", "b"⟩]

def opening : Session ValveNode :=
  (World.after registry { cascade := .auto } rigged).session ["f"]

/-- The engine when `f` and `g` have run once each, with nothing on its log. -/
def warm : Engine ValveNode :=
  { (Session.drain (m := Id) .absent 134 opening).run.engine with log := [] }

/-- What goes by until both have run once more. -/
def round : Lapse where
  runs := 12
  beats := 26
  epochs id := if id = "f" ∨ id = "g" then 7 else 4

/-- The two pipes run each other without end. `d` is executed anew for each of them, and has the
other one follow; but then `n` is blocked, and `d` is below it. -/
theorem endless_rigged :
    let w := World.after registry { cascade := .auto } rigged
    registry.Settling ∧ (∀ x ∈ rigged, x.isDelivery = false) ∧ w.IsAtRest ∧
      (w.session ["f"]).Endless .absent := by
  refine ⟨settling_registry, by decide, by decide +kernel, ?_⟩
  exact Session.endless_of_matches opening 134 132 (by decide) "f" (e := warm) rfl rfl
    (by decide +kernel) (by decide +kernel) round (by decide +kernel) (by decide +kernel)

end Valve

end Patchbay
