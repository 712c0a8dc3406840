import Patchbay.Engine.Edit
import Patchbay.Engine.Restore
import Patchbay.Engine.Run
import Patchbay.Proofs.Steady

/-!
# Interleavings

An engine and any number of tasks on it, in any order: a move is an edit, or one step of one
task, or the progress of a computation, which may go on as anything at all. A world that some
moves lead to from an empty engine is one that can be reached.

`answers` is no part of the system. It records the computations that have come to their end.

What is proved here: `turn_of_step`, which lists what a step of a task can be.
-/

namespace Patchbay

variable {σ : Type}

/-- A computation that has come to its end. -/
structure Answer (σ : Type) where
  definition : Definition σ
  context : Context σ
  result : Except Failure Outputs

/-- The end of a computation, if that is what stands on this level. -/
def Frame.answer? : Frame σ → Option (Answer σ)
  | .run _ (.computing _ _ d context (.done result)) => some ⟨d, context, result⟩
  | _ => none

/-- An engine with tasks on it, and the computations that have come to their end so far. -/
structure World (σ : Type) where
  engine : Engine σ
  tasks : List (Stack σ)
  answers : List (Answer σ)

/-- What can happen next: an operation, the beginning of an execution or of a wait, the progress of
a computation, or a step of a task. -/
inductive Move (σ : Type) where
  | create (id : NodeId) (type : String)
  | createWith (id : NodeId) (state : σ)
  | remove (id : NodeId)
  | update (id : NodeId) (edit : σ → σ)
  | markStale (id : NodeId)
  | connect (source sink : PortRef)
  | disconnect (source sink : PortRef)
  | restore (s : Snapshot σ)
  | start (id : NodeId)
  | wait (target : Target)
  | deliver (task : Nat) (c : Computation)
  | step (task : Nat)

/-- Whether the move puts a saved graph in place of the present one. -/
def Move.isRestore : Move σ → Bool
  | .restore _ => true
  | _ => false

/-- Whether the move makes a computation go on by force. -/
def Move.isDelivery : Move σ → Bool
  | .deliver _ _ => true
  | _ => false

namespace World

def new (r : Registry σ) (p : Policy) : World σ := ⟨.new r p, [], []⟩

def collect (w : World σ) : World σ :=
  { w with
    engine := { w.engine with scheduled := [] }
    tasks := w.tasks ++ w.engine.scheduled.map Stack.background }

/-- The world after an edit; an edit that fails changes nothing. -/
def edit (w : World σ) : Except Error (Engine σ) → World σ
  | .ok e => collect { w with engine := e }
  | .error _ => w

variable [NodeState σ]

def stepTask (w : World σ) (task : Nat) : World σ :=
  match w.tasks[task]? with
  | none => w
  | some s =>
    match w.engine.step s with
    | none => w
    | some (e, s') =>
      collect ⟨e, w.tasks.set task s', w.answers ++ (s.head?.bind Frame.answer?).toList⟩

def next (w : World σ) : Move σ → World σ
  | .create id type => w.edit (w.engine.create id type)
  | .createWith id state => w.edit (w.engine.createWith id state)
  | .remove id => w.edit ((w.engine.remove id).map (·.1))
  | .update id edit => w.edit ((w.engine.update id edit).map (·.1))
  | .markStale id => w.edit ((w.engine.markStale id).map (·.1))
  | .connect source sink => w.edit ((w.engine.connect source sink).map (·.1))
  | .disconnect source sink => w.edit ((w.engine.disconnect source sink).map (·.1))
  | .restore s => w.edit (w.engine.restore s)
  | .start id => { w with tasks := w.tasks ++ [.execution id] }
  | .wait target => { w with tasks := w.tasks ++ [.waiting target] }
  | .deliver task c => { w with tasks := w.tasks.modify task (Stack.proceed c) }
  | .step task => w.stepTask task

/-- The world after some moves on an empty engine. -/
def after (r : Registry σ) (p : Policy) (moves : List (Move σ)) : World σ :=
  moves.foldl next (new r p)

end World

/-! ## The levels of all tasks -/

namespace World

def frames (w : World σ) : List (Frame σ) := w.tasks.flatten

theorem mem_frames {w : World σ} {task : Nat} {s : Stack σ} {f : Frame σ}
    (hs : w.tasks[task]? = some s) (hf : f ∈ s) : f ∈ w.frames :=
  List.mem_flatten.2 ⟨s, List.mem_of_getElem? hs, hf⟩

end World

/-! ## Steps of one task -/

/-- The number of the run that a level belongs to. Before a run has one, and after it has given
up its claim, it touches no node. -/
def Phase.run? : Phase σ → Option Nat
  | .claiming run | .listing run | .pulling run _ | .computing run _ _ _ _ | .releasing run _ =>
    some run
  | .entering | .announcing _ | .leaving _ | .parting _ | .ended _ => none

def Frame.run? : Frame σ → Option Nat
  | .run _ phase => phase.run?
  | .wait _ _ | .errand _ => none

/-- Nothing that is asked about an engine distinguishes the two but what was announced, how many
runs are going on, and what is scheduled. -/
structure Engine.Same (e e' : Engine σ) : Prop where
  registry : e'.registry = e.registry
  policy : e'.policy = e.policy
  graph : e'.graph = e.graph
  nextRun : e'.nextRun = e.nextRun

variable [NodeState σ]

/-- A step that leaves the graph as it is and begins nothing: a run that has nothing to do, or is
over, or a wait. -/
inductive Pass (e : Engine σ) :
    Frame σ → List (Frame σ) → Engine σ → List (Frame σ) → Prop
  | absent (id : NodeId) (run : Nat) (rest : List (Frame σ)) (hn : e.graph.node? id = none) :
    Pass e (.run id (.claiming run)) rest e [.run id (.leaving (.error (.nodeNotFound id)))]
  | busy (id : NodeId) (run : Nat) (rest : List (Frame σ)) (n : Node σ)
    (hn : e.graph.node? id = some n) (hclaimed : n.claimed = true) :
    Pass e (.run id (.claiming run)) rest e [.run id (.leaving (.ok .alreadyRunning))]
  | quit (id : NodeId) (run : Nat) (phase : Phase σ) (rest : List (Frame σ)) (e' : Engine σ)
    (ending : Ending) (hsame : e.Same e') (hbeat : e'.beat = e.beat)
    (hphase : phase = .pulling run [] ∨
      ∃ epoch d context result, phase = .computing run epoch d context (.done result))
    (hend : ending ≠ .ok .alreadyRunning)
    (hlost : ∀ n, e.graph.node? id = some n → n.run = run → n.claimed = true →
      e.registry.of? n.state = none)
    (htally : e'.inFlight = e.inFlight ∧ e'.scheduled = e.scheduled) (hlog : e.log <+: e'.log) :
    Pass e (.run id phase) rest e' [.run id (.releasing run ending)]
  | announce (id : NodeId) (ending : Ending) (rest : List (Frame σ)) :
    Pass e (.run id (.announcing ending)) rest e.notify [.run id (.leaving ending)]
  | leave (id : NodeId) (ending : Ending) (rest : List (Frame σ)) :
    Pass e (.run id (.leaving ending)) rest e.leave [.run id (.parting ending)]
  | part (id : NodeId) (ending : Ending) (rest : List (Frame σ)) :
    Pass e (.run id (.parting ending)) rest e.notify [.run id (.ended ending)]
  | await (id outer : NodeId) (phase : Phase σ) (rest : List (Frame σ)) :
    Pass e (.run id (.ended (.ok .alreadyRunning))) (.run outer phase :: rest) e
      [.wait (.node id) .starting]
  | drop (id : NodeId) (ending : Ending) (rest : List (Frame σ)) (hrest : rest ≠ [])
    (hend : ending = .ok .alreadyRunning → ∀ outer phase, rest.head? ≠ some (.run outer phase)) :
    Pass e (.run id (.ended ending)) rest e []
  | look (t : Target) (watch : Watch) (rest : List (Frame σ))
    (hwatch : watch = .starting ∨ ∃ seen, watch = .parked seen ∧ e.beat ≠ seen) :
    Pass e (.wait t watch) rest e [.wait t (.looking e.beat)]
  | park (t : Target) (seen : Nat) (rest : List (Frame σ)) (h : e.reached t = false) :
    Pass e (.wait t (.looking seen)) rest e [.wait t (.parked seen)]
  | arrive (t : Target) (seen : Nat) (rest : List (Frame σ)) (h : e.reached t = true) :
    Pass e (.wait t (.looking seen)) rest e []
  | giveUp (rest : List (Frame σ)) : Pass e (.errand false) rest e.leave [.errand true]
  | forget (rest : List (Frame σ)) : Pass e (.errand true) rest e.notify []

/-- A step of the innermost level of a task, with the levels below it: what becomes of the
engine, and which levels take its place. -/
inductive Turn (e : Engine σ) :
    Frame σ → List (Frame σ) → Engine σ → List (Frame σ) → Prop
  | enter (id : NodeId) (rest : List (Frame σ)) :
    Turn e (.run id .entering) rest e.enter.1 [.run id (.claiming e.nextRun)]
  | claim (id : NodeId) (run : Nat) (rest : List (Frame σ)) (n : Node σ)
    (hn : e.graph.node? id = some n) (hfree : n.claimed = false) :
    Turn e (.run id (.claiming run)) rest (e.withGraph (e.graph.modify id (·.taken run)))
      [.run id (.listing run)]
  | list (id : NodeId) (run : Nat) (rest : List (Frame σ)) :
    Turn e (.run id (.listing run)) rest e [.run id (.pulling run (e.toPull id))]
  | pull (id : NodeId) (run : Nat) (p : NodeId) (todo : List NodeId) (rest : List (Frame σ)) :
    Turn e (.run id (.pulling run (p :: todo))) rest e
      [.run p .entering, .run id (.pulling run todo)]
  | block (id : NodeId) (run : Nat) (rest : List (Frame σ)) (n : Node σ) (d : Definition σ)
    (events : List Event) (hn : e.graph.node? id = some n) (hrun : n.run = run)
    (hd : e.registry.of? n.state = some d)
    (hinputs : e.graph.resolve id (d.ports n.state) = none) :
    Turn e (.run id (.pulling run [])) rest
      ((e.withGraph (e.graph.block id (d.ports n.state)).1).emit events)
      [.run id (.releasing run (.ok .blocked))]
  | begin (id : NodeId) (run : Nat) (rest : List (Frame σ)) (n : Node σ) (d : Definition σ)
    (inputs : Inputs) (hn : e.graph.node? id = some n) (hrun : n.run = run)
    (hd : e.registry.of? n.state = some d)
    (hinputs : e.graph.resolve id (d.ports n.state) = some inputs) :
    Turn e (.run id (.pulling run [])) rest
      ((e.withGraph (e.graph.modify id Node.started)).emit [.nodeStarted id])
      [.run id (.computing run n.epoch d ⟨id, n.state, inputs⟩ (d.compute ⟨id, n.state, inputs⟩))]
  | finish (id : NodeId) (run epoch : Nat) (rest : List (Frame σ)) (n : Node σ)
    (d : Definition σ) (context : Context σ) (outputs : Outputs)
    (hn : e.graph.node? id = some n) (hrun : n.run = run) (hclaimed : n.claimed = true) :
    Turn e (.run id (.computing run epoch d context (.done (.ok outputs)))) rest
      (e.commitOutputs id n epoch d outputs)
      [.run id (.releasing run (.ok (.completed outputs)))]
  | fail (id : NodeId) (run epoch : Nat) (rest : List (Frame σ)) (d : Definition σ)
    (context : Context σ) (cause : Failure) (n : Node σ) (hn : e.graph.node? id = some n)
    (hrun : n.run = run) (hclaimed : n.claimed = true) :
    Turn e (.run id (.computing run epoch d context (.done (.error cause)))) rest
      (e.commitFailure id (.executionFailed id cause))
      [.run id (.releasing run (.error (.executionFailed id cause)))]
  | release (id : NodeId) (run : Nat) (ending : Ending) (rest : List (Frame σ)) :
    Turn e (.run id (.releasing run ending)) rest (e.release id run)
      [.run id (.announcing ending)]
  | pass (top : Frame σ) (rest : List (Frame σ)) (e' : Engine σ) (new : List (Frame σ))
    (h : Pass e top rest e' new) : Turn e top rest e' new

namespace Pass

variable {e e' : Engine σ} {top : Frame σ} {rest new : List (Frame σ)}

theorem same (h : Pass e top rest e' new) : e.Same e' := by
  cases h with
  | quit id run phase rest e' ending hsame hbeat hphase hend hlost => exact hsame
  | _ => exact ⟨rfl, rfl, rfl, rfl⟩

theorem new_cases (h : Pass e top rest e' new) :
    new = [] ∨ ∃ f, new = [f] ∧ (f.run? = none ∨
      ∃ id run ending, f = .run id (.releasing run ending) ∧ top.run? = some run) := by
  cases h with
  | quit id run phase rest e' ending hsame hbeat hphase hend hlost =>
    refine .inr ⟨_, rfl, .inr ⟨id, run, ending, rfl, ?_⟩⟩
    rcases hphase with rfl | ⟨epoch, d, context, result, rfl⟩ <;> rfl
  | drop id ending rest hrest hend => exact .inl rfl
  | arrive t seen rest h => exact .inl rfl
  | forget rest => exact .inl rfl
  | _ => exact .inr ⟨_, rfl, .inl rfl⟩

end Pass

namespace Engine

variable {e e' : Engine σ}

omit [NodeState σ] in
theorem ownedNode?_eq_some {g : Graph σ} {id : NodeId} {run : Nat} {n : Node σ} :
    g.ownedNode? id run = some n ↔ g.node? id = some n ∧ n.run = run := by
  rw [Graph.ownedNode?, Option.filter_eq_some_iff, beq_iff_eq]

theorem of?_of_get_error {r : Registry σ} {s : σ} {err : Error}
    (h : r.get (NodeState.typeName s) = .error err) : r.of? s = none := by
  unfold Registry.get at h
  split at h
  · cases h
  · rename_i hd
    exact hd

theorem turn_claim (id : NodeId) (run : Nat) (rest : List (Frame σ)) :
    Turn e (.run id (.claiming run)) rest (e.claim id run).1 [.run id (e.claim id run).2] := by
  unfold claim
  split
  · rename_i hn
    exact .pass _ _ _ _ (.absent id run rest hn)
  · rename_i n hn
    split
    · rename_i hclaimed
      exact .pass _ _ _ _ (.busy id run rest n hn hclaimed)
    · rename_i hfree
      exact .claim id run rest n hn (by simpa using hfree)

theorem turn_resolve (id : NodeId) (run : Nat) (rest : List (Frame σ)) :
    Turn e (.run id (.pulling run [])) rest (e.resolve id run).1
      [.run id (e.resolve id run).2] := by
  have hsame : ∀ events, e.Same (e.emit events) := fun events => ⟨rfl, rfl, rfl, rfl⟩
  unfold resolve
  split
  · rename_i hlost
    refine .pass _ _ _ _ (.quit id run _ rest _ _ (hsame _) rfl (.inl rfl) (by simp) ?_ ⟨rfl, rfl⟩
      (List.prefix_append _ _))
    intro n hn hrun
    rw [ownedNode?_eq_some.2 ⟨hn, hrun⟩] at hlost
    cases hlost
  · rename_i n hn
    obtain ⟨hn, hrun⟩ := ownedNode?_eq_some.1 hn
    split
    · rename_i err hd
      refine .pass _ _ _ _ (.quit id run _ rest _ _ ⟨rfl, rfl, rfl, rfl⟩ rfl (.inl rfl)
        (by simp) ?_ ⟨rfl, rfl⟩ (List.prefix_refl _))
      intro n' hn' _ _
      rw [hn] at hn'
      cases hn'
      exact of?_of_get_error hd
    · rename_i d hd
      have hd := Registry.of?_of_get hd
      split
      · rename_i hinputs
        exact .block id run rest n d _ hn hrun hd hinputs
      · rename_i inputs hinputs
        exact .begin id run rest n d inputs hn hrun hd hinputs

theorem turn_commit (id : NodeId) (run epoch : Nat) (d : Definition σ) (context : Context σ)
    (result : Except Failure Outputs) (rest : List (Frame σ)) :
    Turn e (.run id (.computing run epoch d context (.done result))) rest
      (e.commit id run epoch d result).1 [.run id (e.commit id run epoch d result).2] := by
  unfold commit
  split
  · rename_i hlost
    refine .pass _ _ _ _ (.quit id run _ rest _ _ ⟨rfl, rfl, rfl, rfl⟩ rfl
      (.inr ⟨epoch, d, context, result, rfl⟩) (by simp) ?_ ⟨rfl, rfl⟩ (List.prefix_append _ _))
    intro n hn hrun hclaimed
    rw [Option.filter_eq_some_iff.2 ⟨ownedNode?_eq_some.2 ⟨hn, hrun⟩, hclaimed⟩] at hlost
    cases hlost
  · rename_i n hn
    rw [Option.filter_eq_some_iff, ownedNode?_eq_some] at hn
    obtain ⟨⟨hn, hrun⟩, hclaimed⟩ := hn
    cases result with
    | ok outputs => exact .finish id run epoch rest n d context outputs hn hrun hclaimed
    | error cause => exact .fail id run epoch rest d context cause n hn hrun hclaimed

theorem turn_stepRun {id : NodeId} {phase : Phase σ} {new : List (Frame σ)}
    (h : e.stepRun id phase = some (e', new)) (rest : List (Frame σ)) :
    Turn e (.run id phase) rest e' new := by
  cases phase with
  | entering =>
    cases h
    exact .enter id rest
  | claiming run =>
    cases h
    exact turn_claim id run rest
  | listing run =>
    cases h
    exact .list id run rest
  | pulling run todo =>
    cases todo with
    | nil =>
      cases h
      exact turn_resolve id run rest
    | cons p todo =>
      cases h
      exact .pull id run p todo rest
  | computing run epoch d context c =>
    cases c with
    | done result =>
      cases h
      exact turn_commit id run epoch d context result rest
    | awaitPermit c => cases h
    | generate request c => cases h
  | releasing run ending =>
    cases h
    exact .release id run ending rest
  | announcing ending =>
    cases h
    exact .pass _ _ _ _ (.announce id ending rest)
  | leaving ending =>
    cases h
    exact .pass _ _ _ _ (.leave id ending rest)
  | parting ending =>
    cases h
    exact .pass _ _ _ _ (.part id ending rest)
  | ended ending => cases h

theorem pass_stepWait {t : Target} {watch : Watch} {new : List (Frame σ)}
    (h : e.stepWait t watch = some new) (rest : List (Frame σ)) :
    Pass e (.wait t watch) rest e new := by
  cases watch with
  | starting =>
    cases h
    exact .look t _ rest (.inl rfl)
  | looking seen =>
    obtain rfl := Option.some.inj h
    split
    · rename_i hreached
      exact .arrive t seen rest hreached
    · rename_i hreached
      exact .park t seen rest (by simpa using hreached)
  | parked seen =>
    rw [stepWait] at h
    split at h
    · cases h
    · rename_i hbeat
      cases h
      exact .look t _ rest (.inr ⟨seen, rfl, hbeat⟩)

theorem turn_of_step {s s' : Stack σ} (h : e.step s = some (e', s')) :
    ∃ top rest new, s = top :: rest ∧ s' = new ++ rest ∧ Turn e top rest e' new := by
  unfold step at h
  split at h
  · cases h
  · rename_i id outer phase rest
    cases h
    exact ⟨_, _, [_], rfl, rfl, .pass _ _ _ _ (.await id outer phase rest)⟩
  · rename_i id ending frame rest hend
    cases h
    refine ⟨_, _, [], rfl, rfl, .pass _ _ _ _ (.drop id ending _ (List.cons_ne_nil _ _) ?_)⟩
    intro heq outer phase houter
    subst heq
    exact hend outer phase rfl (Option.some.inj houter)
  · rename_i id phase rest _ _
    obtain ⟨⟨e₁, new⟩, hstep, he⟩ := Option.map_eq_some_iff.1 h
    cases he
    exact ⟨_, rest, new, rfl, rfl, turn_stepRun hstep rest⟩
  · rename_i t watch rest
    obtain ⟨new, hstep, he⟩ := Option.map_eq_some_iff.1 h
    cases he
    exact ⟨_, rest, new, rfl, rfl, .pass _ _ _ _ (pass_stepWait hstep rest)⟩
  · rename_i rest
    cases h
    exact ⟨_, _, [_], rfl, rfl, .pass _ _ _ _ (.giveUp rest)⟩
  · rename_i rest
    cases h
    exact ⟨_, _, [], rfl, rfl, .pass _ _ _ _ (.forget _)⟩

end Engine

/-! ## Levels -/

namespace World

variable {w : World σ}

omit [NodeState σ] in
theorem frames_collect_eq (w : World σ) :
    w.collect.frames = w.frames ++ (w.engine.scheduled.map Stack.background).flatten := by
  rw [frames, collect, List.flatten_append, frames]

omit [NodeState σ] in
theorem frames_of_getElem? {task : Nat} {s : Stack σ} (h : w.tasks[task]? = some s) :
    ∃ pre post, w.frames = pre ++ s ++ post ∧
      ∀ s' : Stack σ, (w.tasks.set task s').flatten = pre ++ s' ++ post := by
  obtain ⟨hlt, rfl⟩ := List.getElem?_eq_some_iff.1 h
  refine ⟨(w.tasks.take task).flatten, (w.tasks.drop (task + 1)).flatten, ?_, fun s' => ?_⟩
  · rw [frames, List.append_assoc, ← List.flatten_cons, ← List.flatten_append,
      List.getElem_cons_drop, List.take_append_drop]
  · rw [List.set_eq_take_append_cons_drop, if_pos hlt, List.flatten_append, List.flatten_cons,
      List.append_assoc]

theorem stepTask_eq (w : World σ) (task : Nat) :
    w.stepTask task = w ∨ ∃ top rest e new,
      w.tasks[task]? = some (top :: rest) ∧ Turn w.engine top rest e new ∧
      w.stepTask task =
        collect ⟨e, w.tasks.set task (new ++ rest), w.answers ++ top.answer?.toList⟩ := by
  unfold stepTask
  split
  · exact .inl rfl
  · rename_i s hs
    split
    · exact .inl rfl
    · rename_i e s' hstep
      obtain ⟨top, rest, new, rfl, rfl, hturn⟩ := Engine.turn_of_step hstep
      exact .inr ⟨top, rest, e, new, hs, hturn, rfl⟩

/-- A delivery changes the progress of at most one computation. -/
theorem frames_deliver (w : World σ) (task : Nat) (c : Computation) :
    (w.next (.deliver task c)).frames = w.frames ∨
      ∃ pre id run epoch d context c₀ post,
        w.frames = pre ++ .run id (.computing run epoch d context c₀) :: post ∧
        (w.next (.deliver task c)).frames =
          pre ++ .run id (.computing run epoch d context c) :: post := by
  have hmodify : (w.next (.deliver task c)).frames =
      (w.tasks.modify task (Stack.proceed c)).flatten := rfl
  cases hs : w.tasks[task]? with
  | none =>
    apply Or.inl
    rw [hmodify, List.modify_eq_self (List.getElem?_eq_none_iff.1 hs), frames]
  | some s =>
    obtain ⟨pre, post, hframes, hset⟩ := frames_of_getElem? hs
    have hproceed : (w.next (.deliver task c)).frames = pre ++ s.proceed c ++ post := by
      rw [hmodify, List.modify_eq_set, hs]
      exact hset _
    unfold Stack.proceed at hproceed
    split at hproceed
    · rename_i id run epoch d context c₀ rest
      refine .inr ⟨pre, id, run, epoch, d, context, c₀, rest ++ post, ?_, ?_⟩
      · rw [hframes]
        simp
      · rw [hproceed]
        simp
    · exact .inl (hproceed.trans hframes.symm)

/-- Every level was there before the progress of a computation, or is the one that computes. -/
theorem mem_frames_deliver {f : Frame σ} {task : Nat} {c : Computation}
    (hf : f ∈ (w.next (.deliver task c)).frames) :
    f ∈ w.frames ∨ ∃ id run epoch d context c₀,
      .run id (.computing run epoch d context c₀) ∈ w.frames ∧
        f = .run id (.computing run epoch d context c) := by
  rcases w.frames_deliver task c with heq |
    ⟨pre, id, run, epoch, d, context, c₀, post, hframes, hframes'⟩
  · exact .inl (heq ▸ hf)
  · rw [hframes', List.mem_append, List.mem_cons] at hf
    rw [hframes]
    rcases hf with hf | rfl | hf
    · exact .inl (List.mem_append_left _ hf)
    · exact .inr ⟨id, run, epoch, d, context, c₀,
        List.mem_append_right _ List.mem_cons_self, rfl⟩
    · exact .inl (List.mem_append_right _ (List.mem_cons_of_mem _ hf))

end World

end Patchbay
