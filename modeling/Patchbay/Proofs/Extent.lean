import Patchbay.Proofs.Blocking
import Patchbay.Proofs.Independence

/-!
# How far an execution reaches

An execution runs its node, and before that the stale reactive nodes that feed it, each of which
does the same again. Some of these runs complete, others fail or are blocked, and each of them
tells the nodes below its own. If no other run is going on, all that is written to are nodes that
were stale and reactive in the beginning, and the node itself: what was fresh above it stays as it
is, because nothing above a fresh node is stale. The other nodes are told only, so they keep their
states, and their outputs are at most stopped.

What is proved here:
  1. `Confined.turn`: the invariant of the levels of the task, and of what they have made of the
     graph.
  2. `World.Launched.next`: the same for the world, and what is known of the node while it
     computes.
  3. `World.execution_extent`: what an execution has left of the graph, in its end and at any time
     before, and what it has left of its node if the computation failed.
-/

namespace Patchbay

open Relation

variable {σ : Type}

namespace Node

/-- The node has its state, and on each port what it had or the stop sign in its place. -/
structure Retains (n n' : Node σ) : Prop where
  state : n'.state = n.state
  outputs : ∀ port, n'.outputs.get? port = n.outputs.get? port ∨
    n'.outputs.get? port = (n.outputs.get? port).map fun _ => .stop

theorem Retains.refl (n : Node σ) : n.Retains n := ⟨rfl, fun _ => .inl rfl⟩

theorem Retains.trans {a b c : Node σ} (h : a.Retains b) (h' : b.Retains c) : a.Retains c := by
  refine ⟨h'.state.trans h.state, fun port => ?_⟩
  rcases h'.outputs port with hc | hc
  · rw [hc]
    exact h.outputs port
  · right
    rw [hc]
    rcases h.outputs port with hb | hb
    · rw [hb]
    · rw [hb, Option.map_map]
      rfl

theorem robust_retains : Robust (Retains (σ := σ)) where
  refl := .refl
  trans _ _ _ h h' := h.trans h'
  touched _ := ⟨rfl, fun _ => .inl rfl⟩
  invalidated _ := ⟨rfl, fun _ => .inl rfl⟩
  stopped n := ⟨rfl, fun port => .inr (Outputs.get?_allStopped n.outputs port)⟩

/-- What holds under a condition survives traversals if it does without one. -/
theorem Robust.imp {R : Node σ → Node σ → Prop} (hR : Robust R) (P : Prop) :
    Robust fun n n' => P → R n n' where
  refl n _ := hR.refl n
  trans a b c h h' hP := hR.trans a b c (h hP) (h' hP)
  touched n _ := hR.touched n
  invalidated n _ := hR.invalidated n
  stopped n _ := hR.stopped n

/-- One node before and after a computation that failed with this message: it has kept its state and
its outputs, and it says that it failed. -/
structure FailedSince (n : Node σ) (message : String) (n' : Node σ) : Prop where
  state : n'.state = n.state
  outputs : n'.outputs = n.outputs
  status : n'.status = .failed
  lastError : n'.lastError = some message
  stale : n'.stale = true
  claimed : n'.claimed = false

end Node

variable [NodeState σ]

/-- The node, and those of the nodes that feed it, directly or through others, that are stale and
reactive. -/
def Graph.executed (r : Registry σ) (g : Graph σ) (base : NodeId) : Set NodeId :=
  {m | m = base ∨ TransGen g.wiring.Feeds m base ∧
    ∃ n, g.node? m = some n ∧ n.stale = true ∧ r.isReactive n.typeName = true}

/-! ## The levels of the task -/

/-- What holds of an execution of the base and its engine if nothing else goes on since the graph
was this one: its levels are runs of nodes that may be executed, and no other node is written to. -/
structure Confined (r : Registry σ) (g : Graph σ) (base : NodeId) (x : Engine σ × Stack σ) :
    Prop where
  alone : Alone g base x
  runs : ∀ f ∈ x.2, ∀ u, f.runs? = some u ∨ u ∈ f.listed → u ∈ g.executed r base
  outer : ∀ f ∈ x.2.tail, f.IsPulling
  claims : ∀ f ∈ x.2, ∀ id run, f.reading? = some (id, run) → x.1.graph.ClaimedBy id run
  nodes : ∀ m, Option.Rel (fun n n' => m ∉ g.executed r base → n.Retains n') (g.node? m)
    (x.1.graph.node? m)
  types : ∀ m n', x.1.graph.node? m = some n' →
    ∃ n, g.node? m = some n ∧ n'.typeName = n.typeName

section

variable {r : Registry σ} {g : Graph σ} {base : NodeId} {e e' : Engine σ} {s : Stack σ}
  {top : Frame σ} {rest new : Stack σ}

omit [NodeState σ] in
theorem Alone.of_graph (h : Alone g base (e, s)) (hgraph : e'.graph = e.graph) :
    Alone g base (e', s) :=
  ⟨hgraph ▸ h.wiring, hgraph ▸ h.outside, h.levels, h.listed,
    ⟨hgraph ▸ h.firm.linked, hgraph ▸ h.firm.owned⟩, h.unhindered, hgraph ▸ h.held⟩

omit [NodeState σ] in
/-- Nothing that is stale feeds a fresh node, so nothing that is above the base and fresh is
affected. -/
theorem Graph.notMem_affected (hw : g.wiring.Sound) (hclosed : g.Closed) {u : NodeId}
    (hu : TransGen g.wiring.Feeds u base) (hfresh : g.isFresh u = true) : u ∉ g.affected base := by
  rintro ⟨v, rfl | ⟨-, n, hn, hstale⟩, hpath⟩
  · exact hw.acyclic.transGen.irrefl.irrefl v (TransGen.trans_right hpath hu)
  · have hv : g.isFresh v = true := by
      rcases reflTransGen_iff_eq_or_transGen.1 hpath with rfl | hpath
      · exact hfresh
      · exact hclosed.transGen hpath hfresh
    obtain ⟨n', hn', hs⟩ := Graph.isFresh_iff.1 hv
    rw [hn] at hn'
    cases hn'
    exact Bool.false_ne_true (hs.symm.trans hstale)

namespace Confined

theorem start (r : Registry σ) (e : Engine σ)
    (hfree : ∀ id n, e.graph.node? id = some n → n.claimed = false) (base : NodeId) :
    Confined r e.graph base (e, .execution base) where
  alone := .start e hfree base
  runs := List.forall_mem_singleton.2 fun u hu => by
    rcases hu with hu | hu
    · cases hu
      exact .inl rfl
    · cases hu
  outer := nofun
  claims := List.forall_mem_singleton.2 nofun
  nodes m := Graph.rel_refl (fun n _ => .refl n) _
  types m n' hn' := ⟨n', hn', rfl⟩

theorem of_graph (h : Confined r g base (e, s)) (hgraph : e'.graph = e.graph) :
    Confined r g base (e', s) :=
  ⟨h.alone.of_graph hgraph, h.runs, h.outer, hgraph ▸ h.claims, hgraph ▸ h.nodes,
    hgraph ▸ h.types⟩

theorem proceed (h : Confined r g base (e, s)) (hw : g.wiring.Sound) (c : Computation) :
    Confined r g base (e, s.proceed c) := by
  unfold Stack.proceed
  split
  · rename_i id run epoch d context c₀ rest
    have hgo : Engine.Onward (fun _ _ _ => c)
        (e, .run id (.computing run epoch d context c₀) :: rest)
        (e, .run id (.computing run epoch d context c) :: rest) :=
      .resumed e id run epoch d context c₀ rest
    obtain ⟨hruns, hrest⟩ := List.forall_mem_cons.1 h.runs
    obtain ⟨-, hclaims⟩ := List.forall_mem_cons.1 h.claims
    exact ⟨h.alone.onward hw hgo, List.forall_mem_cons.2 ⟨hruns, hrest⟩, h.outer,
      List.forall_mem_cons.2 ⟨nofun, hclaims⟩, h.nodes, h.types⟩
  · exact h

/-- What a level comes to pull was stale and reactive in the beginning. -/
theorem executed_of_toPull (h : Confined r g base (e, s)) (hr : e.registry = r)
    (hw : g.wiring.Sound) (hclosed : g.Closed) {id u : NodeId} (hid : id ∈ g.needed base)
    (hu : u ∈ e.toPull id) : u ∈ g.executed r base := by
  obtain ⟨hfeeds, hstale⟩ := List.mem_filter.1 hu
  rw [Option.any_eq_true] at hstale
  obtain ⟨n', hn', hstale⟩ := hstale
  rw [Bool.and_eq_true, hr] at hstale
  have hwiring : e.graph.wiring = g.wiring := h.alone.wiring
  have hpath : TransGen g.wiring.Feeds u base := .head' (hwiring ▸ Wiring.mem_feeders.1 hfeeds) hid
  obtain ⟨n, hn, htype⟩ := h.types u n' hn'
  refine .inr ⟨hpath, n, hn, ?_, htype ▸ hstale.2⟩
  -- A fresh node above the base is what it was.
  by_contra hfresh
  have hout := h.alone.outside u (Graph.notMem_affected hw hclosed hpath
    (Graph.isFresh_iff.2 ⟨n, hn, Bool.eq_false_iff.2 hfresh⟩))
  rw [hn'] at hout
  rw [← hout] at hn
  cases hn
  exact hfresh hstale.1

/-- Under the innermost level of a task there are runs that pull, if there were before. -/
theorem isPulling_turn (h : ∀ f ∈ rest, f.IsPulling) (hturn : Turn e top rest e' new) :
    ∀ f ∈ (new ++ rest).tail, f.IsPulling := by
  have hone : ∀ f : Frame σ, new = [f] → ∀ f ∈ (new ++ rest).tail, f.IsPulling := by
    rintro f rfl
    exact h
  cases hturn with
  | pull id run p todo rest => exact List.forall_mem_cons.2 ⟨⟨id, run, todo, rfl⟩, h⟩
  | pass top rest e' new hpass =>
    rcases hpass.new_cases with rfl | ⟨f, rfl, -⟩
    · exact fun f hf => h f (List.mem_of_mem_tail hf)
    · exact hone f rfl
  | _ => exact hone _ rfl

/-- A level that has claimed its node, and has not read its inputs, comes from one that had, or has
just claimed it. -/
theorem claims_turn {f : Frame σ} {id : NodeId} {run : Nat} (hturn : Turn e top rest e' new)
    (htop : ∀ id run, top.reading? = some (id, run) → e.graph.ClaimedBy id run) (hf : f ∈ new)
    (hreading : f.reading? = some (id, run)) : e'.graph.ClaimedBy id run := by
  cases hturn with
  | claim id run rest n hn hfree =>
    obtain rfl := List.mem_singleton.1 hf
    cases hreading
    exact ⟨n.taken run, by rw [Engine.graph_withGraph, Graph.node?_modify_self, hn]; rfl, rfl, rfl⟩
  | list id run rest =>
    obtain rfl := List.mem_singleton.1 hf
    cases hreading
    exact htop _ _ rfl
  | pull id run p todo rest =>
    rcases List.mem_cons.1 hf with rfl | hf
    · cases hreading
    · obtain rfl := List.mem_singleton.1 hf
      cases hreading
      exact htop _ _ rfl
  | pass top rest e' new hpass =>
    exfalso
    rcases hpass.new_cases with rfl | ⟨f', rfl, hnone⟩
    · cases hf
    · obtain rfl := List.mem_singleton.1 hf
      have hrun := Frame.run?_of_reading? hreading
      rcases hnone with hnone | ⟨_, _, _, rfl, -⟩
      · rw [hnone] at hrun
        cases hrun
      · cases hreading
  | _ =>
    obtain rfl := List.mem_singleton.1 hf
    cases hreading

theorem turn (h : Confined r g base (e, top :: rest)) (hr : e.registry = r) (hw : g.wiring.Sound)
    (hclosed : g.Closed) (hturn : Turn e top rest e' new)
    (htypes : ∀ m n', e'.graph.node? m = some n' →
      ∃ n, e.graph.node? m = some n ∧ n'.typeName = n.typeName) :
    Confined r g base (e', new ++ rest) := by
  obtain ⟨⟨id, phase, rfl, hneeded, -⟩, -⟩ := List.forall_mem_cons.1 h.alone.levels
  obtain ⟨hfree, -⟩ := List.forall_mem_cons.1 h.alone.unhindered
  obtain ⟨htop, hrest⟩ := List.forall_mem_cons.1 h.runs
  obtain ⟨hclaim, hclaims⟩ := List.forall_mem_cons.1 h.claims
  have hsound : e.graph.wiring.Sound := h.alone.wiring.symm ▸ hw
  refine ⟨h.alone.turn hw hturn, List.forall_mem_append.2 ⟨fun f hf u hu => ?_, hrest⟩,
    isPulling_turn h.outer hturn, List.forall_mem_append.2
      ⟨fun f hf _ _ => claims_turn hturn hclaim hf, fun f hf m run hreading => ?_⟩,
    fun m => ?_, fun m n' hn' => ?_⟩
  · -- A new level is about a node that was listed; what it lists itself was stale all along.
    obtain ⟨v, phase', rfl, hv, hlisted⟩ := Frame.runs_of_turn hfree hturn f hf
    rcases hu with hu | hu
    · cases hu
      exact hv.elim (fun heq => htop u (.inl (congrArg some heq.symm))) fun hv => htop u (.inr hv)
    · exact (hlisted u hu).elim (fun hu => htop u (.inr hu))
        fun hu => h.executed_of_toPull hr hw hclosed hneeded hu
  · -- The node of a level further down is below that of the run, so it is another one.
    have hne : m ≠ id := by
      rintro rfl
      have hcircle := (List.pairwise_cons.1 h.alone.firm.linked.above).1 f hf m m rfl
        (Frame.node?_of_holds (.inl ⟨run, ?_⟩))
      · exact hsound.acyclic.transGen.irrefl.irrefl m hcircle
      · obtain ⟨id', k, todo, rfl⟩ := h.outer f hf
        cases hreading
        rfl
    have hrel := Engine.rel_turn (m := m) Node.robust_abides hturn fun id' phase' heq => by
      cases heq
      exact hne
    obtain ⟨n, hn, hclaimed, hrun⟩ := hclaims f hf m run hreading
    obtain ⟨n', hn', habides⟩ := Graph.exists_of_rel hrel hn
    exact ⟨n', hn', habides.claimed.trans hclaimed, habides.run.trans hrun⟩
  · have hrobust : Node.Robust fun n n' : Node σ => m ∉ g.executed r base → n.Retains n' :=
      Node.robust_retains.imp _
    refine Graph.rel_trans hrobust.trans (h.nodes m) ?_
    refine Engine.rel_turn_of_writes hrobust hturn fun n n' _ hwrites hm => ?_
    have hid : id = m := by cases hwrites <;> rfl
    exact absurd (hid ▸ htop id (.inl rfl)) hm
  · obtain ⟨n₁, hn₁, htype⟩ := htypes m n' hn'
    obtain ⟨n, hn, htype'⟩ := h.types m n₁ hn₁
    exact ⟨n, hn, htype.trans htype'⟩

end Confined

end

/-! ## The world around it -/

/-- The move is one of this task: its computation goes on, or it takes a step. -/
def Move.IsOf (task : Nat) (m : Move σ) : Prop := m = .step task ∨ ∃ c, m = .deliver task c

/-- The failure of a task on one level whose computation has failed, with the node. -/
def Stack.failure? : Stack σ → Option (NodeId × Failure)
  | [.run id (.computing _ _ _ _ (.done (.error cause)))] => some (id, cause)
  | _ => none

omit [NodeState σ] in
theorem Stack.eq_of_failure? {s : Stack σ} {id : NodeId} {cause : Failure}
    (h : s.failure? = some (id, cause)) : ∃ run epoch d context,
      s = [.run id (.computing run epoch d context (.done (.error cause)))] := by
  unfold failure? at h
  split at h
  · cases h
    exact ⟨_, _, _, _, rfl⟩
  · cases h

omit [NodeState σ] in
theorem Stack.eq_of_proceed {s : Stack σ} {id : NodeId} {run epoch : Nat} {d : Definition σ}
    {context : Context σ} {c c' : Computation}
    (h : s.proceed c = [.run id (.computing run epoch d context c')]) :
    ∃ c₀, s = [.run id (.computing run epoch d context c₀)] := by
  unfold proceed at h
  split at h
  · cases h
    exact ⟨_, rfl⟩
  · exact ⟨c', h⟩

/-- The outermost run of a task computes since it has read its inputs. -/
theorem Engine.begun_of_turn {e e' : Engine σ} {top : Frame σ} {rest new : Stack σ} {id : NodeId}
    {run epoch : Nat} {d : Definition σ} {context : Context σ} {c : Computation}
    (hturn : Turn e top rest e' new) (houter : ∀ f ∈ rest, f.IsPulling)
    (h : new ++ rest = [.run id (.computing run epoch d context c)]) :
    top = .run id (.pulling run []) ∧ rest = [] ∧ ∃ n, e.graph.node? id = some n ∧ n.run = run ∧
      e'.graph.node? id = some n.started := by
  cases hturn with
  | begin id run rest n d inputs hn hrun hd hinputs =>
    obtain ⟨heq, rfl⟩ := List.cons.inj h
    cases heq
    refine ⟨rfl, rfl, n, hn, hrun, ?_⟩
    exact (Graph.node?_modify_self _ _ _).trans (by rw [hn, Option.map_some])
  | pass top rest e' new hpass =>
    exfalso
    rcases hpass.new_cases with rfl | ⟨f, rfl, hf⟩
    · obtain ⟨_, _, _, heq⟩ := houter _ (h ▸ List.mem_singleton_self _)
      cases heq
    · obtain ⟨rfl, -⟩ := List.cons.inj h
      rcases hf with hf | ⟨_, _, _, heq, -⟩
      · cases hf
      · cases heq
  | _ => cases (List.cons.inj h).1

namespace World

variable {r : Registry σ} {p : Policy} {w : World σ} {task : Nat} {base : NodeId}

/-- Among these moves is the step with which the execution that the task is about reads the inputs
of its node; this is the node at that time. -/
def ReadsAt (w : World σ) (task : Nat) (id : NodeId) (moves : List (Move σ)) (n : Node σ) : Prop :=
  ∃ earlier later run, moves = earlier ++ .step task :: later ∧
    (earlier.foldl next w).tasks[task]? = some [.run id (.pulling run [])] ∧
    (earlier.foldl next w).engine.graph.node? id = some n

omit [NodeState σ] in
/-- The failure that the execution has come to that the task is about, with its node. -/
def failure? (w : World σ) (task : Nat) : Option (NodeId × Failure) :=
  w.tasks[task]?.bind Stack.failure?

theorem ReadsAt.append {moves : List (Move σ)} {n : Node σ} (h : w.ReadsAt task base moves n)
    (more : List (Move σ)) : w.ReadsAt task base (moves ++ more) n := by
  obtain ⟨earlier, later, run, rfl, h⟩ := h
  exact ⟨earlier, later ++ more, run, by rw [List.append_assoc, List.cons_append], h⟩

theorem next_of_isOf {s : Stack σ} (hs : w.tasks[task]? = some s) {m : Move σ} (hm : m.IsOf task) :
    (w.next m).engine.graph = w.engine.graph ∧
        ((w.next m).tasks[task]? = some s ∨ ∃ c, (w.next m).tasks[task]? = some (s.proceed c)) ∨
      m = .step task ∧ ∃ top rest new e, s = top :: rest ∧ Turn w.engine top rest e new ∧
        (w.next m).engine.graph = e.graph ∧ (w.next m).tasks[task]? = some (new ++ rest) := by
  rcases hm with rfl | ⟨c, rfl⟩
  · cases hstep : w.engine.step s with
    | none =>
      have hstuck : w.next (.step task) = w := by
        show w.stepTask task = w
        simp only [stepTask, hs, hstep]
      rw [hstuck]
      exact .inl ⟨rfl, .inl hs⟩
    | some x =>
      obtain ⟨e, s'⟩ := x
      obtain ⟨hgraph, -, htask⟩ := next_step hs hstep
      obtain ⟨top, rest, new, rfl, rfl, hturn⟩ := Engine.turn_of_step hstep
      exact .inr ⟨rfl, top, rest, new, e, rfl, hturn, hgraph, htask⟩
  · refine .inl ⟨rfl, .inr ⟨c, ?_⟩⟩
    show (w.tasks.modify task _)[task]? = _
    rw [List.getElem?_modify_eq, hs]
    rfl

/-- What is known of an execution of the base, the task of this number, that has been alone with
its engine since the world was this one. -/
structure Launched (r : Registry σ) (w : World σ) (task : Nat) (base : NodeId)
    (moves : List (Move σ)) : Prop where
  confined : ∃ s, (moves.foldl next w).tasks[task]? = some s ∧
    Confined r w.engine.graph base ((moves.foldl next w).engine, s)
  computing : ∀ run epoch d context c, (moves.foldl next w).tasks[task]? =
    some [.run base (.computing run epoch d context c)] → ∃ n, w.ReadsAt task base moves n ∧
      (moves.foldl next w).engine.graph.node? base = some n.started ∧ n.claimed = true ∧ n.run = run

namespace Launched

variable {moves : List (Move σ)} {m : Move σ}

theorem start {r : Registry σ} {p : Policy} {before : List (Move σ)}
    (hidle : (after r p before).engine.isIdle = true) (base : NodeId) :
    ((after r p before).next (.start base)).Launched r (after r p before).tasks.length base [] where
  confined := by
    refine ⟨.execution base, List.getElem?_concat_length, ?_⟩
    exact (Confined.start r (after r p before).engine (not_claimed_of_isIdle hidle) base)
  computing run epoch d context c h := by
    have hstart : ((after r p before).next (.start base)).tasks[(after r p before).tasks.length]? =
      some (Stack.execution base) := List.getElem?_concat_length
    rw [List.foldl_nil, hstart] at h
    cases h

theorem next (h : w.Launched r task base moves) (hr : r.Steady) (hw : w.engine.graph.wiring.Sound)
    (hclosed : w.engine.graph.Closed)
    (hsound : Sound r (moves.foldl World.next w).engine (moves.foldl World.next w).frames)
    (hm : m.IsOf task) : w.Launched r task base (moves ++ [m]) := by
  obtain ⟨s, hs, hconfined⟩ := h.confined
  have hnext : (moves ++ [m]).foldl World.next w = (moves.foldl World.next w).next m :=
    List.foldl_concat ..
  rcases next_of_isOf hs hm with ⟨hgraph, hsame | ⟨c, hproceed⟩⟩ |
    ⟨rfl, top, rest, new, e, rfl, hturn, hgraph, htask⟩
  · refine ⟨⟨s, hnext ▸ hsame, hnext ▸ hconfined.of_graph hgraph⟩,
      fun run epoch d context c hc => ?_⟩
    rw [hnext, hsame, ← hs] at hc
    obtain ⟨n, hreads, hn⟩ := h.computing run epoch d context c hc
    exact ⟨n, hreads.append _, by rwa [hnext, hgraph]⟩
  · refine ⟨⟨_, hnext ▸ hproceed, hnext ▸ (hconfined.proceed hw c).of_graph hgraph⟩,
      fun run epoch d context c' hc => ?_⟩
    rw [hnext, hproceed] at hc
    obtain ⟨c₀, rfl⟩ := Stack.eq_of_proceed (Option.some.inj hc)
    obtain ⟨n, hreads, hn⟩ := h.computing run epoch d context c₀ hs
    exact ⟨n, hreads.append _, by rwa [hnext, hgraph]⟩
  · obtain ⟨pre, post, hframes, -⟩ := frames_of_getElem? hs
    have hsound' : Sound r (moves.foldl World.next w).engine (pre ++ top :: (rest ++ post)) := by
      rw [hframes, List.append_assoc] at hsound
      exact hsound
    have hafter := hconfined.turn hsound.registry hw hclosed hturn fun _ _ hn' =>
      Engine.typeName_turn hr hsound' hturn hn'
    refine ⟨⟨_, hnext ▸ htask, hnext ▸ hafter.of_graph hgraph⟩, fun run epoch d context c hc => ?_⟩
    rw [hnext, htask] at hc
    -- The step that left the outermost run computing is the one with which it read its inputs.
    obtain ⟨rfl, rfl, n, hn, hrun, hn'⟩ :=
      Engine.begun_of_turn hturn hconfined.outer (Option.some.inj hc)
    obtain ⟨n₁, hn₁, hclaimed, -⟩ := hconfined.claims _ List.mem_cons_self base run rfl
    rw [hn] at hn₁
    cases hn₁
    refine ⟨n, ⟨moves, [], run, rfl, hs, hn⟩, ?_, hclaimed, hrun⟩
    rw [hnext, hgraph]
    exact hn'

end Launched

/-- Nobody else is started, unless results cascade. -/
theorem length_tasks_next (hmanual : w.engine.policy.cascade = .manual)
    (hscheduled : w.engine.scheduled = []) {m : Move σ} (hm : m.IsOf task) :
    (w.next m).tasks.length = w.tasks.length := by
  rcases hm with rfl | ⟨c, rfl⟩
  · show (w.stepTask task).tasks.length = _
    rcases w.stepTask_eq task with heq | ⟨top, rest, e, new, -, hturn, heq⟩
    · rw [heq]
    · have hnone : e.scheduled = [] := (Engine.scheduled_turn hmanual hturn).trans hscheduled
      rw [heq, collect, hnone, List.map_nil, List.append_nil, List.length_set]
  · exact List.length_modify _ _ _

theorem length_tasks_foldl (r : Registry σ) (hmanual : p.cascade = .manual)
    (before : List (Move σ)) {moves : List (Move σ)} (hmoves : ∀ m ∈ moves, m.IsOf task) :
    (moves.foldl next (after r p before)).tasks.length = (after r p before).tasks.length := by
  induction moves using List.reverseRecOn with
  | nil => rfl
  | append_singleton earlier m ih =>
    rw [List.forall_mem_append, List.forall_mem_singleton] at hmoves
    have hpolicy := policy_after r p (before ++ earlier)
    have hcollected := collected_after r p (before ++ earlier)
    rw [after, List.foldl_append] at hpolicy hcollected
    rw [List.foldl_concat]
    exact (length_tasks_next (hpolicy.symm ▸ hmanual) hcollected hmoves.2).trans (ih hmoves.1)

/-- When the outermost run of a task is over, nothing more happens to its node. -/
theorem over_next {phase : Phase σ} {ending : Ending} {n : Node σ}
    (hs : w.tasks[task]? = some [.run base phase]) (hphase : phase.ending? = some ending)
    (hn : w.engine.graph.node? base = some n) (hclaimed : n.claimed = false) {m : Move σ}
    (hm : m.IsOf task) : ∃ phase', (w.next m).tasks[task]? = some [.run base phase'] ∧
      phase'.ending? = some ending ∧ (w.next m).engine.graph.node? base = some n := by
  rcases next_of_isOf hs hm with ⟨hgraph, hsame | ⟨c, hproceed⟩⟩ |
    ⟨rfl, top, rest, new, e, heq, hturn, hgraph, htask⟩
  · exact ⟨phase, hsame, hphase, hgraph ▸ hn⟩
  · refine ⟨phase, hproceed.trans ?_, hphase, hgraph ▸ hn⟩
    cases phase with
    | computing => cases hphase
    | _ => rfl
  · cases heq
    rw [htask, hgraph]
    cases hturn with
    | release id run ending rest =>
      -- The claim went when the ending was written, so its release changes nothing.
      refine ⟨.announcing ending, rfl, hphase, ?_⟩
      have hkept : n.released run = n := by
        rw [Node.released, hclaimed, Bool.and_false, if_neg Bool.false_ne_true]
      exact (Graph.node?_modify_self _ _ _).trans (by rw [hn, Option.map_some, hkept])
    | pass top rest e' new hpass =>
      rw [hpass.same.graph]
      cases hpass with
      | announce | leave | part => exact ⟨_, rfl, hphase, hn⟩
      | drop id ending rest hrest => exact absurd rfl hrest
      | quit id run phase rest e' ending hsame hbeat hquits =>
        rcases hquits with rfl | ⟨_, _, _, _, rfl⟩ <;> cases hphase
      | _ => cases hphase
    | _ => cases hphase

theorem over_foldl {phase : Phase σ} {ending : Ending} {n : Node σ}
    (hs : w.tasks[task]? = some [.run base phase]) (hphase : phase.ending? = some ending)
    (hn : w.engine.graph.node? base = some n) (hclaimed : n.claimed = false) {moves : List (Move σ)}
    (hmoves : ∀ m ∈ moves, m.IsOf task) : ∃ phase',
      (moves.foldl next w).tasks[task]? = some [.run base phase'] ∧
        phase'.ending? = some ending ∧ (moves.foldl next w).engine.graph.node? base = some n := by
  induction moves generalizing w phase with
  | nil => exact ⟨phase, hs, hphase, hn⟩
  | cons m rest ih =>
    obtain ⟨hm, hrest⟩ := List.forall_mem_cons.1 hmoves
    obtain ⟨phase', hs', hphase', hn'⟩ := over_next hs hphase hn hclaimed hm
    exact ih hs' hphase' hn' hrest

theorem failed_next {run epoch : Nat} {d : Definition σ} {context : Context σ} {cause : Failure}
    {n : Node σ} (hs : w.tasks[task]? =
      some [.run base (.computing run epoch d context (.done (.error cause)))])
    (hw : w.engine.graph.wiring.Sound) (hn : w.engine.graph.node? base = some n)
    (hclaimed : n.claimed = true) (hrun : n.run = run) :
    ∃ n', (w.next (.step task)).engine.graph.node? base = some n' ∧
      n.FailedSince (Error.executionFailed base cause).message n' ∧
      (w.next (.step task)).tasks[task]? =
        some [.run base (.releasing run (.error (.executionFailed base cause)))] := by
  have hstep : w.engine.step [.run base (.computing run epoch d context (.done (.error cause)))] =
      some (w.engine.commitFailure base (.executionFailed base cause),
        [.run base (.releasing run (.error (.executionFailed base cause)))]) := by
    have howned : (w.engine.graph.ownedNode? base run).filter (·.claimed) = some n := by
      rw [Option.filter_eq_some_iff, Engine.ownedNode?_eq_some]
      exact ⟨⟨hn, hrun⟩, hclaimed⟩
    simp only [Engine.step, Engine.stepRun, Engine.commit, howned, Option.map_some,
      List.append_nil]
  obtain ⟨hgraph, -, htask⟩ := next_step hs hstep
  obtain ⟨visits, hv⟩ := Graph.visited_invalidate
    (w.engine.graph.modify base (·.failed (Error.executionFailed base cause).message)) hw base
  have hpos := hv.starts base List.mem_cons_self
  refine ⟨(n.failed (Error.executionFailed base cause).message).aged (visits base), ?_, ?_, htask⟩
  · rw [hgraph]
    refine (hv.node? base).trans ?_
    rw [Graph.node?_modify_self, hn, Option.map_some, Option.map_some]
  · exact ⟨rfl, rfl, rfl, rfl, Node.stale_aged hpos, rfl⟩

theorem launched_of_isIdle (hr : r.Steady) (p : Policy) {moves : List (Move σ)}
    (hidle : (after r p moves).engine.isIdle = true) (id : NodeId) {more : List (Move σ)}
    (hmore : ∀ m ∈ more, m.IsOf (after r p moves).tasks.length) :
    ((after r p moves).next (.start id)).Launched r (after r p moves).tasks.length id more := by
  induction more using List.reverseRecOn with
  | nil => exact .start hidle id
  | append_singleton earlier m ih =>
    rw [List.forall_mem_append, List.forall_mem_singleton] at hmore
    have hsound := sound_after hr p moves
    have hlater := sound_after hr p (moves ++ .start id :: earlier)
    rw [after, List.foldl_append] at hlater
    exact (ih hmore.1).next hr hsound.whole.wiring hsound.closed hlater hmore.2

/-- How far an execution reaches. Where no run is going on a node is executed, and nothing else
happens; how its computation and those of its producers go on is left open. In the end, and at any
time before, connections and nodes are the same. What cannot be reached from the node, nor from a
stale one of those that feed it, has not changed at all. Nobody's state has changed but that of the
node and of those of its producers, direct or not, that were stale and reactive, and on the outputs
of the others there is at most the stop sign instead of what there was. If the node's own
computation fails, the node has the state and the outputs that it had when its inputs were read, and
it says that it failed. If results do not cascade, nobody else has been started. -/
theorem execution_extent (hr : r.Steady) (p : Policy) (moves : List (Move σ))
    (hidle : (after r p moves).engine.isIdle = true) (id : NodeId) (more : List (Move σ)) :
    let w := after r p moves
    let task := w.tasks.length
    let started := w.next (.start id)
    let w' := more.foldl next started
    let g := w.engine.graph
    let g' := w'.engine.graph
    (∀ m ∈ more, m.IsOf task) →
      g'.wiring = g.wiring ∧ (∀ m, (g'.node? m).isSome = (g.node? m).isSome) ∧
      (∀ m, m ∉ g.affected id → g'.node? m = g.node? m) ∧
      (∀ m n n', m ∉ g.executed r id → g.node? m = some n → g'.node? m = some n' →
        n.Retains n') ∧
      (∀ cause earlier later, more = earlier ++ .step task :: later →
        (earlier.foldl next started).failure? task = some (id, cause) →
        ∃ n n', started.ReadsAt task id earlier n ∧ g'.node? id = some n' ∧
          n.FailedSince (Error.executionFailed id cause).message n' ∧
          ∀ ending, w'.ending? task = some ending →
            ending = .error (.executionFailed id cause)) ∧
      (p.cascade = .manual → w'.tasks.length = task + 1) := by
  intro w task started w' g g' hmore
  have hw : g.wiring.Sound := (sound_after hr p moves).whole.wiring
  obtain ⟨⟨s, -, hconfined⟩, -⟩ := launched_of_isIdle hr p hidle id hmore
  refine ⟨hconfined.alone.wiring, fun m => ?_, hconfined.alone.outside, fun m n n' hm hn hn' => ?_,
    fun cause earlier later heq hfails => ?_, fun hmanual => ?_⟩
  · exact Graph.isSome_of_rel (hconfined.nodes m)
  · obtain ⟨n₁, hn₁, hretains⟩ := Graph.exists_of_rel (hconfined.nodes m) hn
    have hsame : some n' = some n₁ := hn'.symm.trans hn₁
    cases hsame
    exact hretains hm
  · -- The node is as it was read when the failure is written, and nothing happens to it later.
    subst heq
    obtain ⟨hearlier, hrest⟩ := List.forall_mem_append.1 hmore
    obtain ⟨-, hlater⟩ := List.forall_mem_cons.1 hrest
    have hbefore := launched_of_isIdle hr p hidle id hearlier
    obtain ⟨stack, hs, hstack⟩ := Option.bind_eq_some_iff.1 hfails
    obtain ⟨run, epoch, d, context, rfl⟩ := Stack.eq_of_failure? hstack
    obtain ⟨n, hreads, hn, hclaimed, hrun⟩ := hbefore.computing run epoch d context _ hs
    obtain ⟨⟨_, -, hconfined'⟩, -⟩ := hbefore
    have hw' : (earlier.foldl next started).engine.graph.wiring.Sound :=
      hconfined'.alone.wiring.symm ▸ hw
    obtain ⟨n', hn', hfailed, hs'⟩ := failed_next hs hw' hn hclaimed hrun
    obtain ⟨phase, hs'', hphase, hn''⟩ := over_foldl hs' rfl hn' hfailed.claimed hlater
    have hlast : w' = later.foldl next ((earlier.foldl next started).next (.step task)) :=
      List.foldl_append ..
    refine ⟨n, n', hreads, ?_, ⟨hfailed.state, hfailed.outputs, hfailed.status, hfailed.lastError,
      hfailed.stale, hfailed.claimed⟩, fun ending hending => ?_⟩
    · show w'.engine.graph.node? id = _
      rw [hlast]
      exact hn''
    · rw [hlast, ending?, hs'', Option.bind_some] at hending
      obtain ⟨_, heq⟩ := Stack.ending?_eq_some.1 hending
      cases heq
      exact Option.some.inj hphase
  · have hnobody : w'.tasks.length = started.tasks.length := by
      have h := length_tasks_foldl r hmanual (moves ++ [.start id]) hmore
      rwa [after_concat] at h
    rw [hnobody]
    exact List.length_append

end World

namespace Bench

/-- A doubler has been executed. Then its source is edited, and the doubler itself, which is to fail
from now on. Another node has nothing to do with them. -/
def falling : List (Move BenchNode) :=
  [.create "a" "constant", .create "b" "double", .create "z" "constant",
    .connect ⟨"a", "output"⟩ ⟨"b", "input"⟩, .start "b"] ++ List.replicate 20 (.step 0) ++
    [.update "a" fun _ => .constant 2, .update "b" fun _ => .double true]

/-- The doubler is executed again. Its source is executed before, and then it fails. -/
theorem execution_extent_falling :
    let w := World.after (registry {}) {} falling
    let started := w.next (.start "b")
    let w' := (List.replicate 20 (.step 1)).foldl World.next started
    w.engine.isIdle = true ∧ w.tasks.length = 1 ∧
      w'.engine.graph.node? "z" = w.engine.graph.node? "z" ∧
      ∃ cause n n', started.ReadsAt 1 "b" (List.replicate 15 (.step 1)) n ∧
        w'.engine.graph.node? "b" = some n' ∧
        n.FailedSince (Error.executionFailed "b" cause).message n' ∧ w'.tasks.length = 2 := by
  have hidle : (World.after (registry {}) {} falling).engine.isIdle = true := by decide +kernel
  have hlength : (World.after (registry {}) {} falling).tasks.length = 1 := by decide +kernel
  have hfailure? : (((List.replicate 15 (.step 1)).foldl World.next ((World.after (registry {}) {}
      falling).next (.start "b"))).failure? 1).map (·.1) = some "b" := by decide +kernel
  obtain ⟨⟨id, cause⟩, hfails, rfl⟩ := Option.map_eq_some_iff.1 hfailure?
  have haffects : (World.after (registry {}) {} falling).engine.graph.affects "b" "z" = false := by
    decide +kernel
  have houtside : "z" ∉ (World.after (registry {}) {} falling).engine.graph.affected "b" := by
    rw [← Graph.affects_iff (World.sound_wiring_after (registry {}) {} falling), haffects]
    exact Bool.false_ne_true
  have hmore : ∀ m ∈ List.replicate 20 (Move.step 1 : Move BenchNode),
      m.IsOf (World.after (registry {}) {} falling).tasks.length :=
    fun m hm => .inl (by rw [List.eq_of_mem_replicate hm, hlength])
  have h := World.execution_extent (steady_registry {}) {} falling hidle "b" _ hmore
  obtain ⟨-, -, hsame, -, hfailure, hnobody⟩ := h
  rw [hlength] at hfailure hnobody
  obtain ⟨n, n', hreads, hn', hfailed, -⟩ := hfailure cause (List.replicate 15 (.step 1))
    (List.replicate 4 (.step 1)) rfl hfails
  exact ⟨hidle, hlength, hsame "z" houtside, cause, n, n', hreads, hn', hfailed, hnobody rfl⟩

end Bench

end Patchbay
