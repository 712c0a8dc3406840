import Patchbay.Proofs.Completion
import Patchbay.Proofs.Passive

/-!
# An execution on its own

If results do not cascade, an execution on an engine on which everything is over brings no other
task about. Its levels are executions of nodes that feed one another, and all but the innermost
one stand in a pull. So nobody finds a node claimed, and nobody waits.

What a computation is given are values of fresh nodes, and fresh nodes hold what the recursion
gives, whatever has become stale in the meantime. So every run says what the recursion says,
unless it is blocked.

What is proved here:
  1. `Phase.Solo.turn`, `Lone.stepTask`: the invariant of such a task.
  2. `Lone.exists_ended`, `Lone.ended`: the execution can come to its end, and what it says then.
-/

namespace Patchbay

open Relation

variable {σ : Type}

/-! ## The levels of the task -/

/-- The run that ended so says what the recursion says, or its node was blocked and is not
fresh. -/
structure Graph.Ended (g : Graph σ) (v : NodeId → Ending) (id : NodeId) (ending : Ending) :
    Prop where
  free : ending ≠ .ok .alreadyRunning
  agrees : Ending.Agrees ending (v id) ∨ ending = .ok .blocked ∧ g.isFresh id = false
  fresh : ending.IsCompleted → g.isFresh id = true

def Phase.Solo (v : NodeId → Ending) (g : Graph σ) (id : NodeId) : Phase σ → Prop
  | .entering | .claiming _ => True
  | .listing run | .pulling run _ => g.ClaimedBy id run
  | .computing run epoch _ _ c =>
    (∃ n, g.node? id = some n ∧ n.claimed = true ∧ n.run = run ∧ n.epoch = epoch) ∧
      ∃ result, c = .done result ∧ Ending.Agrees (.ofResult id result) (v id)
  | .releasing _ ending | .announcing ending | .leaving ending | .parting ending
  | .ended ending => g.Ended v id ending

def Frame.Pulls (g : Graph σ) (f : Frame σ) : Prop :=
  ∃ id run todo, f = .run id (.pulling run todo) ∧ g.ClaimedBy id run

def Stack.Solo (v : NodeId → Ending) (g : Graph σ) : Stack σ → Prop
  | .run id phase :: rest => phase.Solo v g id ∧ ∀ f ∈ rest, f.Pulls g
  | _ => False

variable {g g' : Graph σ} {v : NodeId → Ending} {id : NodeId} {ending : Ending}

theorem Graph.Ended.of_blocked (hstale : g.isFresh id = false) : g.Ended v id (.ok .blocked) where
  free h := by cases h
  agrees := .inr ⟨rfl, hstale⟩
  fresh h := by
    obtain ⟨outputs, h⟩ := h
    cases h

/-- A run that fails does so as the recursion does. -/
theorem Graph.Ended.of_error {error : Error} (h : Ending.Agrees (.error error) (v id)) :
    g.Ended v id (.error error) where
  free h := by cases h
  agrees := .inl h
  fresh h := by
    obtain ⟨outputs, h⟩ := h
    cases h

theorem Graph.Ended.of_completed {outputs : Outputs}
    (h : Ending.Agrees (.ok (.completed outputs)) (v id)) (hfresh : g.isFresh id = true) :
    g.Ended v id (.ok (.completed outputs)) where
  free h := by cases h
  agrees := .inl h
  fresh _ := hfresh

/-- A run that is over does not look at the claim of its node any more. -/
theorem Graph.Ended.of_isFresh (h : g.Ended v id ending) (hfresh : g'.isFresh id = g.isFresh id) :
    g'.Ended v id ending where
  free := h.free
  agrees := by
    rw [hfresh]
    exact h.agrees
  fresh := by
    rw [hfresh]
    exact h.fresh

variable [NodeState σ] {r : Registry σ} {e e' : Engine σ} {phase : Phase σ} {rest new : Stack σ}

namespace Graph.Tends

variable {n : Node σ} {d : Definition σ}

/-- A node that is blocked was not fresh: all that feeds a fresh node is fresh. -/
theorem isFresh_of_blocked (h : g.Tends r v) (hn : g.node? id = some n)
    (hd : r.of? n.state = some d) (hinputs : g.resolve id (d.ports n.state) = none) :
    g.isFresh id = false := by
  cases hfresh : g.isFresh id with
  | false => rfl
  | true =>
    have hvalue := evaluate_of_resolve_none h.correct
      (fun u hu => .inl (h.closed u id hu hfresh)) hn hd hinputs
    obtain ⟨outputs, hcompleted⟩ := h.isCompleted id hfresh
    rw [h.value, hcompleted] at hvalue
    cases hvalue

theorem agrees_of_begun (h : g.Tends r v) (hr : r.Functional) (hn : g.node? id = some n)
    (hd : r.of? n.state = some d) {inputs : Inputs}
    (hinputs : g.resolve id (d.ports n.state) = some inputs) :
    ∃ result, d.compute ⟨id, n.state, inputs⟩ = .done result ∧
      Ending.Agrees (.ofResult id result) (v id) := by
  have hfed : ∀ u, g.wiring.Feeds u id → g.isFresh u = true := fun u hu =>
    (reads_of_resolve h.whole hn hd hinputs).isFresh hu
  obtain ⟨result, hresult, hagrees⟩ :=
    agrees_of_resolve_some hr h.correct (fun u hu => .inl (hfed u hu)) hn hd hinputs
  rw [h.value] at hagrees
  exact ⟨result, hresult, hagrees⟩

end Graph.Tends

/-! ## Steps of the innermost level -/

/-- A step of the innermost run leads to its next phase, or begins the execution of a producer
inside of it, or it is the end of the level. -/
theorem Phase.Solo.turn (h : phase.Solo v e.graph id) (hr : r.Functional)
    (hreg : e.registry = r) (ht : e.graph.Tends r v)
    (hfree : phase.IsEarly → ¬ e.graph.IsClaimed id)
    (hturn : Turn e (.run id phase) rest e' new) :
    (∃ phase', new = [.run id phase'] ∧ phase'.Solo v e'.graph id) ∨
      (∃ u run todo, phase = .pulling run (u :: todo) ∧ e'.graph = e.graph ∧
        new = [.run u .entering, .run id (.pulling run todo)]) ∨
      (new = [] ∧ rest ≠ [] ∧ e'.graph = e.graph) := by
  have hnext := hturn
  cases hturn with
  | enter id rest => exact .inl ⟨_, rfl, trivial⟩
  | claim id run rest n hn hunclaimed =>
    refine .inl ⟨_, rfl, n.taken run, ?_, rfl, rfl⟩
    exact (Graph.node?_modify_self _ _ _).trans (by rw [hn, Option.map_some])
  | list id run rest => exact .inl ⟨_, rfl, h⟩
  | pull id run u todo rest => exact .inr (.inl ⟨u, run, todo, rfl, rfl, rfl⟩)
  | block id run rest n d events hn hrun hd hinputs =>
    rw [hreg] at hd
    have hstale : e.graph.isFresh id = false := ht.isFresh_of_blocked hn hd hinputs
    refine .inl ⟨_, rfl, .of_blocked (Engine.isFresh_turn hnext (fun k epoch d context c heq => ?_)
      hstale)⟩
    cases heq
  | begin id run rest n d inputs hn hrun hd hinputs =>
    rw [hreg] at hd
    obtain ⟨result, hresult, hagrees⟩ := ht.agrees_of_begun hr hn hd hinputs
    obtain ⟨n', hn', hclaimed, -⟩ := h
    rw [hn] at hn'
    cases hn'
    refine .inl ⟨_, rfl, ⟨n.started, ?_, hclaimed, hrun, rfl⟩, result, hresult, hagrees⟩
    exact (Graph.node?_modify_self _ _ _).trans (by rw [hn, Option.map_some])
  | finish id run epoch rest n d context outputs hn hrun hclaimed =>
    obtain ⟨⟨n', hn', -, -, rfl⟩, result, hresult, hagrees⟩ := h
    rw [hn] at hn'
    cases hn'
    cases hresult
    refine .inl ⟨_, rfl, .of_completed hagrees ?_⟩
    rw [(Engine.commitOutputs_spec e id n n.epoch d outputs).2.2.1, beq_self_eq_true]
    exact Graph.isFresh_complete ht.whole.wiring hn _ _ _
  | fail id run epoch rest d context cause n hn hrun hclaimed =>
    obtain ⟨-, result, hresult, hagrees⟩ := h
    cases hresult
    exact .inl ⟨_, rfl, .of_error hagrees⟩
  | release id run ending rest =>
    refine .inl ⟨_, rfl, Graph.Ended.of_isFresh h (Graph.isFresh_modify _ _ (fun n => ?_) _)⟩
    unfold Node.released
    split <;> rfl
  | pass top rest e' new hpass =>
    rw [hpass.same.graph]
    cases hpass with
    | absent id run rest hn =>
      refine .inl ⟨_, rfl, .of_error ?_⟩
      rw [ht.value_of_absent hn]
      exact .refl _
    | busy id run rest n hn hclaimed =>
      exact absurd ⟨n.run, n, hn, hclaimed, rfl⟩ (hfree trivial)
    | quit id run phase rest e' ending hsame hbeat hphase hend hlost =>
      have hclaim : e.graph.ClaimedBy id run := by
        rcases hphase with rfl | ⟨epoch, d, context, result, rfl⟩
        · exact h
        · obtain ⟨⟨n, hn, hclaimed, hrun, -⟩, -⟩ := h
          exact ⟨n, hn, hclaimed, hrun⟩
      rw [hreg] at hlost
      exact (ht.whole.not_lost hclaim hlost).elim
    | announce | leave | part => exact .inl ⟨_, rfl, h⟩
    | await id outer phase rest => exact absurd rfl h.free
    | drop id ending rest hrest => exact .inr (.inr ⟨rfl, hrest, rfl⟩)

/-! ## Steps of the task -/

/-- A run further down keeps its node: no step touches the claim of another node. -/
theorem Frame.Pulls.turn {f : Frame σ} (h : f.Pulls e.graph)
    (hturn : Turn e (.run id phase) rest e' new) (hf : f.node? ≠ some id) : f.Pulls e'.graph := by
  obtain ⟨m, run, todo, rfl, n, hn, hclaimed, hrun⟩ := h
  have hm : m ≠ id := fun heq => hf (congrArg some heq)
  have hrel := Engine.rel_turn (m := m) Node.robust_abides hturn fun id' phase' heq => by
    cases heq
    exact hm
  obtain ⟨n', hn', habides⟩ := Graph.exists_of_rel hrel hn
  exact ⟨m, run, todo, rfl, n', hn', habides.claimed.trans hclaimed, habides.run.trans hrun⟩

namespace Stack.Solo

omit [NodeState σ] in
theorem exists_run {s : Stack σ} (h : s.Solo v g) :
    ∃ id phase rest, s = .run id phase :: rest ∧ phase.Solo v g id ∧ ∀ f ∈ rest, f.Pulls g := by
  unfold Solo at h
  split at h
  · exact ⟨_, _, _, rfl, h⟩
  · exact h.elim

omit [NodeState σ] in
theorem of_pulls {s : Stack σ} (h : ∀ f ∈ s, f.Pulls g) (hne : s ≠ []) : s.Solo v g := by
  cases s with
  | nil => exact absurd rfl hne
  | cons f rest =>
    obtain ⟨id, run, todo, rfl, hclaim⟩ := h f List.mem_cons_self
    exact ⟨hclaim, fun f hf => h f (List.mem_cons_of_mem _ hf)⟩

/-- Every step of the task keeps what holds of its levels, and its outermost node. -/
theorem turn {base : NodeId} (h : Stack.Solo v e.graph (.run id phase :: rest))
    (hr : r.Functional) (hreg : e.registry = r) (ht : e.graph.Tends r v)
    (hlinked : Stack.Linked e.graph.wiring (.run id phase :: rest))
    (hfree : phase.IsEarly → ¬ e.graph.IsClaimed id)
    (hbase : ∃ above out, Frame.run id phase :: rest = above ++ [.run base out])
    (hturn : Turn e (.run id phase) rest e' new) :
    Stack.Solo v e'.graph (new ++ rest) ∧
      ∃ above out, new ++ rest = above ++ [.run base out] := by
  obtain ⟨hphase, hpulls⟩ := h
  have hrest : ∀ f ∈ rest, f.Pulls e'.graph := by
    intro f hf
    -- Its node is downstream of that of the run, so it is another one.
    refine (hpulls f hf).turn hturn fun hnode => ?_
    have hcircle := (List.pairwise_cons.1 hlinked.above).1 f hf id id rfl hnode
    exact ht.whole.wiring.acyclic.transGen.irrefl.irrefl id hcircle
  obtain ⟨hsolo, hout⟩ : Stack.Solo v e'.graph (new ++ rest) ∧
      (rest = [] → ∃ above out, new = above ++ [.run id out]) := by
    rcases hphase.turn hr hreg ht hfree hturn with ⟨phase', rfl, hphase'⟩ |
      ⟨u, run, todo, rfl, hgraph, rfl⟩ | ⟨rfl, hne, hgraph⟩
    · exact ⟨⟨hphase', hrest⟩, fun _ => ⟨[], phase', rfl⟩⟩
    · refine ⟨⟨trivial, List.forall_mem_cons.2 ⟨?_, hrest⟩⟩, fun _ => ⟨[_], _, rfl⟩⟩
      exact ⟨id, run, todo, rfl, hgraph ▸ hphase⟩
    · exact ⟨of_pulls hrest hne, fun heq => absurd heq hne⟩
  refine ⟨hsolo, ?_⟩
  obtain ⟨above, out, hstack⟩ := hbase
  cases above with
  | nil =>
    obtain ⟨heq, rfl⟩ := List.cons.inj hstack
    cases heq
    obtain ⟨above, out, rfl⟩ := hout rfl
    exact ⟨above, out, List.append_nil _⟩
  | cons f above =>
    obtain ⟨-, rfl⟩ := List.cons.inj hstack
    exact ⟨new ++ above, out, (List.append_assoc _ _ _).symm⟩

end Stack.Solo

/-! ## The world around it -/

namespace World

variable {p : Policy} {w : World σ} {task : Nat} {base : NodeId}

/-- The world after some steps of an execution of the base, the task of this number and the last
one. All tasks before it are over. -/
structure Lone (r : Registry σ) (p : Policy) (v : NodeId → Ending) (task : Nat) (base : NodeId)
    (w : World σ) : Prop where
  regular : w.Regular r p
  value : ∀ h, w.engine.graph.evaluate r h = v
  before : ∀ j s, j < task → w.tasks[j]? = some s → s.IsOver
  last : w.tasks.length = task + 1
  levels : ∃ s, w.tasks[task]? = some s ∧ s.Solo v w.engine.graph ∧
    s.Linked w.engine.graph.wiring ∧ ∃ above phase, s = above ++ [.run base phase]

namespace Lone

theorem start (hr : r.Steady) (h : w.Regular r p) (hquiet : w.Quiet)
    (hv : ∀ h, w.engine.graph.evaluate r h = v) (base : NodeId) :
    (w.next (.start base)).Lone r p v w.tasks.length base where
  regular := regular_next hr h rfl rfl
  value := hv
  before j s hj hs := by
    rw [next, List.getElem?_append_left hj] at hs
    exact hquiet s (List.mem_of_getElem? hs)
  last := by rw [next, List.length_append, List.length_singleton]
  levels := by
    refine ⟨.execution base, ?_, ⟨trivial, List.forall_mem_nil _⟩, .execution base, [], _, rfl⟩
    rw [next, List.getElem?_append_right (Nat.le_refl _), Nat.sub_self]
    rfl

/-- A node that is claimed is that of a level, so the innermost one is not before it is. -/
theorem not_isClaimed (h : w.Lone r p v task base)
    (hs : w.tasks[task]? = some (.run id phase :: rest))
    (hlinked : Stack.Linked w.engine.graph.wiring (.run id phase :: rest))
    (hearly : phase.IsEarly) : ¬ w.engine.graph.IsClaimed id := by
  rintro ⟨k, n, hn, hclaimed, -⟩
  obtain ⟨f, hf, hclaim⟩ := h.regular.held id n hn hclaimed
  obtain ⟨s, hs', hfs⟩ := List.mem_flatten.1 hf
  obtain ⟨j, hj⟩ := List.mem_iff_getElem?.1 hs'
  have hlast := h.last
  have hlt := (List.getElem?_eq_some_iff.1 hj).1
  by_cases hjt : j < task
  · rw [(h.before j s hjt hj).claim? hfs] at hclaim
    cases hclaim
  · obtain rfl : j = task := by omega
    rw [hs] at hj
    cases hj
    -- An early run has claimed nothing, and a level below is not about a node upstream of its own.
    rcases List.mem_cons.1 hfs with rfl | hfs
    · cases phase <;> first
        | exact hearly
        | cases hclaim
    · have hnode := Frame.node?_of_holds (.inl ⟨n.run, hclaim⟩)
      have hcircle := (List.pairwise_cons.1 hlinked.above).1 f hfs id id rfl hnode
      exact h.regular.sound.whole.wiring.acyclic.transGen.irrefl.irrefl id hcircle

/-- A step changes no states: the results of a functional registry do not. -/
theorem congruent_turn (h : w.Lone r p v task base) (hr : r.Functional)
    (hs : w.tasks[task]? = some (.run id phase :: rest)) (hphase : phase.Solo v w.engine.graph id)
    (hturn : Turn w.engine (.run id phase) rest e new) :
    Graph.Congruent w.engine.graph e.graph := by
  refine ⟨Engine.wiring_turn hturn, funext fun m => ?_⟩
  have hrel := Engine.rel_turn_of_writes (m := m) Node.robust_state hturn fun n n' hn hwrites => by
    cases hwrites with
    | completed _ run epoch d context outputs _ hrun =>
      obtain ⟨⟨n', hn', hclaimed, -, -⟩, -⟩ := hphase
      rw [hn] at hn'
      cases hn'
      have hmem := World.mem_frames hs List.mem_cons_self
      obtain ⟨-, hd⟩ := h.regular.sound.valid hmem hn hrun hclaimed
      exact hr.result d n.state outputs hd
    | released _ run _ n =>
      unfold Node.released
      split <;> rfl
    | _ => rfl
  exact Graph.map_eq_of_rel hrel fun _ _ hstate => hstate

theorem stepTask (hr : r.Functional) (hmanual : p.cascade = .manual)
    (h : w.Lone r p v task base) (j : Nat) : (w.stepTask j).Lone r p v task base := by
  rcases w.stepTask_eq j with heq | ⟨top, rest, e, new, hs, hturn, heq⟩
  · rw [heq]
    exact h
  by_cases hj : j < task
  · rw [stepTask_of_isOver hs (h.before j _ hj hs)]
    exact h
  obtain rfl : j = task := by
    have hlt := (List.getElem?_eq_some_iff.1 hs).1
    have hlast := h.last
    omega
  obtain ⟨s, hs', hsolo, hlinked, hbase⟩ := h.levels
  rw [hs] at hs'
  cases hs'
  obtain ⟨id, phase, rest, hstack, hphase, -⟩ := hsolo.exists_run
  cases hstack
  have hscheduled : e.scheduled = [] := by
    rw [Engine.scheduled_turn (by rw [h.regular.policy, hmanual]) hturn, h.regular.collected]
  have ht := h.regular.tends hr h.value
  have hcong := h.congruent_turn hr hs hphase hturn
  have hregular := regular_next hr.steady h.regular (m := .step j) rfl rfl
  obtain ⟨hsolo', hbase'⟩ := hsolo.turn hr h.regular.sound.registry ht hlinked
    (h.not_isClaimed hs hlinked) hbase hturn
  have hlinked' := hlinked.turn hturn
  rw [← hcong.wiring] at hlinked'
  rw [next, heq] at hregular
  rw [heq]
  refine ⟨hregular, fun hwf => ?_, fun k s hk hs' => ?_, ?_, new ++ rest,
    getElem?_collect_self hs, hsolo', hlinked', hbase'⟩
  · rw [← h.value ht.whole.wiring.acyclic]
    exact Graph.evaluate_congr hcong.wiring hcong.states _ _
  · have hlt := (List.getElem?_eq_some_iff.1 hs).1
    rcases getElem?_collect hs hs' with ⟨rfl, -⟩ | ⟨-, hs'⟩ | ⟨hlen, -⟩
    · exact absurd hk (Nat.lt_irrefl _)
    · exact h.before k s hk hs'
    · omega
  · rw [collect, hscheduled, List.map_nil, List.append_nil, List.length_set, h.last]

theorem steps (hr : r.Functional) (hmanual : p.cascade = .manual) (js : List Nat)
    (h : w.Lone r p v task base) : (js.foldl World.stepTask w).Lone r p v task base := by
  induction js generalizing w with
  | nil => exact h
  | cons j rest ih => exact ih (h.stepTask hr hmanual j)

/-! ## The end of the execution -/

theorem enabled (h : w.Lone r p v task base)
    (hnot : ∀ ending, w.tasks[task]? ≠ some [.run base (.ended ending)]) : w.Enabled task := by
  obtain ⟨s, hs, hsolo, hlinked, above, out, hbase⟩ := h.levels
  obtain ⟨id, phase, rest, rfl, hphase, hpulls⟩ := hsolo.exists_run
  refine ⟨_, hs, fun c hc => ?_, fun hnone => ?_⟩
  · cases hc
    obtain ⟨m, run, todo, heq, -⟩ := hpulls _ List.mem_cons_self
    cases heq
  · have hdone : ∀ m run epoch d context c,
        Frame.run id phase = .run m (.computing run epoch d context c) →
          ∃ result, c = .done result := by
      intro m run epoch d context c heq
      cases heq
      obtain ⟨-, result, hresult, -⟩ := hphase
      exact ⟨result, hresult⟩
    rcases Engine.step_eq_none hlinked hdone hnone with hover | ⟨m, hwait⟩
    · rcases hover with hnil | ⟨m, ending, heq⟩
      · cases hnil
      · obtain ⟨heq, rfl⟩ := List.cons.inj heq
        cases heq
        obtain ⟨rfl, -⟩ := Stack.eq_of_singleton hbase
        exact hnot ending hs
    · cases hwait

theorem exists_ended (hr : r.Functional) (hmanual : p.cascade = .manual)
    (h : w.Lone r p v task base) : ∃ (js : List Nat) (ending : Ending),
      (js.foldl World.stepTask w).tasks[task]? = some [.run base (.ended ending)] := by
  obtain ⟨js, hjs⟩ := exists_steps (fun w j (h : w.Lone r p v task base) =>
      h.stepTask hr hmanual j) h.regular.sound.whole.wiring.acyclic h
    (fun w => ∃ ending, w.tasks[task]? = some [.run base (.ended ending)]) fun w h hnot =>
      ⟨task, h.enabled fun ending hend => hnot ⟨ending, hend⟩⟩
  exact ⟨js, hjs⟩

/-- When the execution ends, it says what the recursion says or that its node is blocked; and the
node is fresh exactly if it completed. -/
theorem ended (hr : r.Functional) (h : w.Lone r p v task base) {ending : Ending}
    (hend : w.tasks[task]?.bind Stack.ending? = some ending) :
    (Ending.Agrees ending (v base) ∨ ending = .ok .blocked) ∧
      (w.engine.graph.isFresh base = true ↔ ∃ outputs, ending = .ok (.completed outputs)) := by
  obtain ⟨s, hs, hsolo, -, above, out, hbase⟩ := h.levels
  rw [hs, Option.bind_some] at hend
  obtain ⟨m, rfl⟩ := Stack.ending?_eq_some.1 hend
  obtain ⟨rfl, -⟩ := Stack.eq_of_singleton hbase
  have hended : w.engine.graph.Ended v m ending := hsolo.1
  refine ⟨hended.agrees.imp_right And.left, fun hfresh => ?_, hended.fresh⟩
  rcases hended.agrees with hagrees | ⟨-, hstale⟩
  · exact hagrees.symm.isCompleted ((h.regular.tends hr h.value).isCompleted m hfresh)
  · rw [hstale] at hfresh
    cases hfresh

end Lone

end World

end Patchbay
