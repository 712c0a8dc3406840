import Patchbay.Proofs.Claims

/-!
# Passive engines

An engine does something on its own account if results cascade, or if a new connection makes its
sink run. With a policy that asks for neither, runs are started only by those who execute a node
and by the pulls of such runs. `Alters` lists what a move can do to the nodes and to the tasks of
such an engine.

What is proved here:
  1. `Engine.Performed.scheduled`, `Engine.scheduled_turn`: a passive engine schedules nothing.
  2. `Engine.descends_turn`: no step of a task gives a node another type.
  3. `World.alters_next`: every move on a passive engine is one of those listed.
-/

namespace Patchbay

variable {σ : Type}

/-- The nodes that the move brings, with the names of their types, if it succeeds. -/
def Move.brought [NodeState σ] (r : Registry σ) : Move σ → List (NodeId × String)
  | .create id type =>
    match r.defaultState type with
    | .ok state => [(id, NodeState.typeName state)]
    | .error _ => []
  | .createWith id state => [(id, NodeState.typeName state)]
  | .restore s => s.nodes.map fun n => (n.id, n.typeName)
  | _ => []

namespace Graph

variable [NodeState σ]

/-- Every node of the second graph is one of the first, of the same type, and was last claimed by
the same run. -/
def Descends (g g' : Graph σ) : Prop :=
  ∀ m n', g'.node? m = some n' → ∃ n, g.node? m = some n ∧ n'.typeName = n.typeName ∧ n'.run = n.run

theorem Descends.refl (g : Graph σ) : Descends g g := fun _ n hn => ⟨n, hn, rfl, rfl⟩

theorem Drift.descends {P : Set NodeId} {g g' : Graph σ} (h : Drift P g g') (hg : g.Inherits g') :
    Descends g g' := by
  intro m n' hn'
  obtain ⟨n, hn, hkin, -⟩ := h m n' hn'
  obtain ⟨n₁, hn₁, hlast⟩ := hg m n' hn'
  rw [hn] at hn₁
  cases hn₁
  exact ⟨n, hn, hkin.type, hlast.run⟩

end Graph

namespace Engine

variable [NodeState σ] {e e' : Engine σ}

/-- Nothing happens on the engine's own account. -/
structure Passive (p : Policy) : Prop where
  cascade : p.cascade = .manual
  autoRunOnConnect : p.autoRunOnConnect = false

theorem Performed.scheduled (hp : Passive e.policy) {m : Move σ} (h : e.Performed m e') :
    e'.scheduled = e.scheduled := by
  cases h with
  | nothing m => rfl
  | created m e' id state h =>
    obtain ⟨-, -, rfl⟩ := createWith_eq_ok h
    rfl
  | removed e' id cs h =>
    obtain ⟨-, rfl⟩ := remove_accounts h
    rfl
  | updated e' id edit ids h =>
    obtain ⟨n, d, -, -, ⟨-, rfl⟩ | ⟨-, hreplace⟩⟩ := update_eq_ok h
    · rfl
    · obtain ⟨g, changed, others, -, -, rfl⟩ := replaceState_accounts hreplace
      rfl
  | marked e' id ids h =>
    obtain ⟨-, rfl⟩ := markStale_accounts h
    rfl
  | connected e' source sink c h =>
    obtain ⟨-, -, w, -, rfl⟩ := connect_eq_ok h
    rw [hp.autoRunOnConnect]
    rfl
  | disconnected e' source sink c h =>
    obtain ⟨-, w, -, rfl⟩ := disconnect_eq_ok h
    rfl
  | restored e' s h =>
    obtain ⟨g, -, rfl⟩ := exists_graph_of_restore h
    rfl

/-- A step of a task schedules no run, unless the policy is to go on with the consumers. -/
theorem scheduled_turn (hmanual : e.policy.cascade = .manual) {top : Frame σ}
    {rest new : List (Frame σ)} (hturn : Turn e top rest e' new) :
    e'.scheduled = e.scheduled := by
  cases hturn with
  | finish id run epoch rest n d context outputs hn hrun hclaimed =>
    have hcascade : (decide (e.policy.cascade = .auto) && (n.epoch == epoch)) = false := by
      rw [hmanual]
      rfl
    simp only [commitOutputs, hcascade]
    rfl
  | pass top rest e' new hpass =>
    cases hpass with
    | quit id run phase rest e' ending hsame hbeat hphase hend hlost htally => exact htally.2
    | _ => rfl
  | _ => rfl

/-! ## What happens to the nodes -/

theorem create_eq_defaultState {id : NodeId} {type : String} (h : e.create id type = .ok e') :
    ∃ state, e.registry.defaultState type = .ok state ∧ e.createWith id state = .ok e' := by
  unfold create at h
  cases hs : e.registry.defaultState type with
  | error err =>
    rw [hs] at h
    cases h
  | ok state =>
    rw [hs] at h
    exact ⟨state, rfl, h⟩

theorem restore_types {s : Snapshot σ} (h : e.restore s = .ok e') {id : NodeId} {n : Node σ}
    (hn : e'.graph.node? id = some n) : ∃ n₀ ∈ s.nodes, n₀.id = id ∧ n₀.typeName = n.typeName := by
  obtain ⟨g, hg, rfl⟩ := exists_graph_of_restore h
  obtain ⟨hsound, hnodes, -⟩ := Snapshot.graph_eq_ok hg
  obtain ⟨visits, hvisited⟩ :=
    Graph.visited_invalidateAll g hsound (g.staleNodes.flatMap g.wiring.downstream)
  obtain ⟨n₁, hn₁, hkin, -⟩ := Graph.Drift.of_visited hvisited id n hn
  obtain ⟨n₀, hn₀, hid, rfl⟩ := (hnodes id n₁).1 hn₁
  exact ⟨n₀, hn₀, hid, hkin.type.symm⟩

/-- A step of a task leaves every node its type and its last run, but for the claim of one. -/
theorem descends_turn {r : Registry σ} (hr : r.Steady) {top : Frame σ}
    {rest new pre post : List (Frame σ)} (h : Sound r e (pre ++ top :: post))
    (hturn : Turn e top rest e' new) :
    e.graph.Descends e'.graph ∨ ∃ id run n, top = .run id (.claiming run) ∧
      e.graph.node? id = some n ∧ e'.graph = e.graph.modify id (·.taken run) := by
  have hr' : e.registry.Steady := h.registry ▸ hr
  have hw : e.graph.Whole e.registry := h.registry ▸ h.whole
  have hdescends : ∀ {P : Set NodeId}, Graph.Drift P e.graph e'.graph →
      e.graph.Inherits e'.graph → e.graph.Descends e'.graph := fun hdrift hg => hdrift.descends hg
  cases hturn with
  | enter id rest => exact .inl (.refl _)
  | claim id run rest n hn hfree => exact .inr ⟨id, run, n, rfl, hn, rfl⟩
  | list id run rest => exact .inl (.refl _)
  | pull id run p todo rest => exact .inl (.refl _)
  | block id run rest n d events hn hrun hd hinputs =>
    exact .inl (hdescends (edited_block hr' hw id _ events).drift
      (Graph.keeps_block e.graph id _).nodes)
  | begin id run rest n d inputs hn hrun hd hinputs =>
    exact .inl (hdescends (edited_begin hr' hw id []).drift (e.inherits_begin id []).nodes)
  | finish id run epoch rest n d context outputs hn hrun hclaimed =>
    obtain ⟨-, hd⟩ := h.valid (List.mem_append_right _ List.mem_cons_self) hn hrun hclaimed
    have hfin := Graph.finished_complete hr h.whole hn (hr.result d n.state outputs hd) e.policy
      outputs (n.epoch == epoch)
    obtain ⟨-, -, hgraph, -⟩ := commitOutputs_spec e id n epoch d outputs
    rw [← hgraph] at hfin
    exact .inl (hdescends hfin.drift (e.inherits_commitOutputs id n epoch d outputs).nodes)
  | fail id run epoch rest d context cause n hn hrun hclaimed =>
    exact .inl (hdescends (edited_fail hr' hw id _).drift (e.inherits_commitFailure id _).nodes)
  | release id run ending rest =>
    exact .inl (hdescends (edited_release hr' hw id run).drift (e.inherits_release id run).nodes)
  | pass top rest e' new hpass =>
    rw [hpass.same.graph]
    exact .inl (.refl _)

theorem typeName_turn {r : Registry σ} (hr : r.Steady) {top : Frame σ}
    {rest new pre post : List (Frame σ)} (h : Sound r e (pre ++ top :: post))
    (hturn : Turn e top rest e' new) {id : NodeId} {n' : Node σ}
    (hn' : e'.graph.node? id = some n') :
    ∃ n, e.graph.node? id = some n ∧ n'.typeName = n.typeName := by
  rcases descends_turn hr h hturn with hdescends | ⟨m, run, -, -, -, hgraph⟩
  · obtain ⟨n, hn, htype, -⟩ := hdescends id n' hn'
    exact ⟨n, hn, htype⟩
  · rw [hgraph, Graph.node?_modify] at hn'
    split at hn'
    · obtain ⟨n, hn, rfl⟩ := Option.map_eq_some_iff.1 hn'
      exact ⟨n, hn, rfl⟩
    · exact ⟨n', hn', rfl⟩

end Engine

namespace World

variable [NodeState σ] {r : Registry σ} {w : World σ}

/-- What a move does to the nodes and to the tasks if the engine is passive. -/
inductive Alters (w : World σ) : Move σ → World σ → Prop
  | edited (m : Move σ) (w' : World σ) (hgraph : w.engine.graph.Descends w'.engine.graph)
    (htasks : w'.tasks = w.tasks) : Alters w m w'
  | created (m : Move σ) (w' : World σ) (id : NodeId) (state : σ)
    (hbrought : (id, NodeState.typeName state) ∈ m.brought w.engine.registry)
    (hgraph : w'.engine.graph = w.engine.graph.inserted id state)
    (hkind : m.isRestore = false) (htasks : w'.tasks = w.tasks) : Alters w m w'
  | restored (s : Snapshot σ) (w' : World σ)
    (hnodes : ∀ id n, w'.engine.graph.node? id = some n →
      (id, n.typeName) ∈ (Move.restore s).brought w.engine.registry)
    (htasks : w'.tasks = w.tasks) : Alters w (.restore s) w'
  | started (id : NodeId) (w' : World σ) (hgraph : w'.engine.graph = w.engine.graph)
    (htasks : w'.tasks = w.tasks ++ [.execution id]) : Alters w (.start id) w'
  | waited (t : Target) (w' : World σ) (hgraph : w'.engine.graph = w.engine.graph)
    (htasks : w'.tasks = w.tasks ++ [.waiting t]) : Alters w (.wait t) w'
  | delivered (task : Nat) (c : Computation) (w' : World σ)
    (hgraph : w'.engine.graph = w.engine.graph)
    (htasks : w'.tasks = w.tasks.modify task (Stack.proceed c)) : Alters w (.deliver task c) w'
  | stepped (task : Nat) (top : Frame σ) (rest new : List (Frame σ)) (e : Engine σ) (w' : World σ)
    (hbefore : w.tasks[task]? = some (top :: rest)) (hturn : Turn w.engine top rest e new)
    (hgraph : w'.engine.graph = e.graph) (htasks : w'.tasks = w.tasks.set task (new ++ rest)) :
    Alters w (.step task) w'

theorem alters_edit {m : Move σ} {result : Except Error (Engine σ)}
    (hp : Engine.Passive w.engine.policy) (hs : w.engine.scheduled = [])
    (hperformed : ∀ e, result = .ok e → w.engine.Performed m e)
    (h : ∀ e w', result = .ok e → w'.engine.graph = e.graph → w'.tasks = w.tasks → w.Alters m w') :
    w.Alters m (w.edit result) := by
  cases result with
  | error err => exact .edited m w (.refl _) rfl
  | ok e =>
    refine h e _ rfl rfl ?_
    have hnone : e.scheduled = [] := ((hperformed e rfl).scheduled hp).trans hs
    show w.tasks ++ e.scheduled.map Stack.background = w.tasks
    rw [hnone, List.map_nil, List.append_nil]

theorem alters_step (hp : Engine.Passive w.engine.policy) (hs : w.engine.scheduled = [])
    (task : Nat) : w.Alters (.step task) (w.next (.step task)) := by
  rcases w.stepTask_eq task with heq | ⟨top, rest, e, new, hbefore, hturn, heq⟩
  · rw [next, heq]
    exact .edited _ w (.refl _) rfl
  · rw [next, heq]
    refine .stepped task top rest new e _ hbefore hturn rfl ?_
    have hnone : e.scheduled = [] := (Engine.scheduled_turn hp.cascade hturn).trans hs
    show w.tasks.set task (new ++ rest) ++ e.scheduled.map Stack.background = _
    rw [hnone, List.map_nil, List.append_nil]

theorem alters_next (hr : r.Steady) (h : Sound r w.engine w.frames)
    (hp : Engine.Passive w.engine.policy) (hs : w.engine.scheduled = []) (m : Move σ) :
    w.Alters m (w.next m) := by
  have hr' : w.engine.registry.Steady := h.registry ▸ hr
  have hw : w.engine.graph.Whole w.engine.registry := h.registry ▸ h.whole
  have hedited : ∀ {m : Move σ} {e : Engine σ} {w' : World σ}, w.engine.Edited e →
      w.engine.Inherits e → w'.engine.graph = e.graph → w'.tasks = w.tasks → w.Alters m w' :=
    fun hedit hinherits hgraph htasks =>
      .edited _ _ (hgraph ▸ hedit.drift.descends hinherits.nodes) htasks
  have hcreated : ∀ {m : Move σ} {e : Engine σ} {id : NodeId} {state : σ} {w' : World σ},
      w.engine.createWith id state = .ok e →
      (id, NodeState.typeName state) ∈ m.brought w.engine.registry → m.isRestore = false →
      w'.engine.graph = e.graph → w'.tasks = w.tasks → w.Alters m w' := by
    intro m e id state w' hcreate hbrought hkind hgraph htasks
    obtain ⟨-, -, rfl⟩ := Engine.createWith_eq_ok hcreate
    exact .created m w' id state hbrought hgraph hkind htasks
  cases m with
  | create id type =>
    refine alters_edit hp hs (fun e he => ?_) fun e w' he hgraph htasks => ?_
    · obtain ⟨state, -, he⟩ := Engine.create_eq_defaultState he
      exact .created _ e id state he
    · obtain ⟨state, hstate, he⟩ := Engine.create_eq_defaultState he
      refine hcreated he ?_ rfl hgraph htasks
      simp only [Move.brought, hstate, List.mem_singleton]
  | createWith id state =>
    exact alters_edit hp hs (fun e he => .created _ e id state he) fun e w' he =>
      hcreated he (List.mem_singleton.2 rfl) rfl
  | remove id =>
    refine alters_edit hp hs (fun e he => ?_) fun e w' he => ?_ <;> obtain ⟨cs, he⟩ := map_eq_ok he
    · exact .removed e id cs he
    · exact hedited (Engine.edited_remove hr' hw he) (Engine.inherits_remove he)
  | update id edit =>
    refine alters_edit hp hs (fun e he => ?_) fun e w' he => ?_ <;> obtain ⟨ids, he⟩ := map_eq_ok he
    · exact .updated e id edit ids he
    · exact hedited (Engine.edited_update hr' hw he) (Engine.inherits_update he)
  | markStale id =>
    refine alters_edit hp hs (fun e he => ?_) fun e w' he => ?_ <;> obtain ⟨ids, he⟩ := map_eq_ok he
    · exact .marked e id ids he
    · exact hedited (Engine.edited_markStale hr' hw he) (Engine.inherits_markStale he)
  | connect source sink =>
    refine alters_edit hp hs (fun e he => ?_) fun e w' he => ?_ <;> obtain ⟨c, he⟩ := map_eq_ok he
    · exact .connected e source sink c he
    · exact hedited (Engine.edited_connect hr' hw he) (Engine.inherits_connect he)
  | disconnect source sink =>
    refine alters_edit hp hs (fun e he => ?_) fun e w' he => ?_ <;> obtain ⟨c, he⟩ := map_eq_ok he
    · exact .disconnected e source sink c he
    · exact hedited (Engine.edited_disconnect hr' hw he) (Engine.inherits_disconnect he)
  | restore s =>
    refine alters_edit hp hs (fun e he => .restored e s he) fun e w' he hgraph htasks => ?_
    refine .restored s w' (fun id n hn => ?_) htasks
    rw [hgraph] at hn
    obtain ⟨n₀, hn₀, rfl, htype⟩ := Engine.restore_types he hn
    exact List.mem_map.2 ⟨n₀, hn₀, by rw [htype]⟩
  | start id => exact .started id _ rfl rfl
  | wait t => exact .waited t _ rfl rfl
  | deliver task c => exact .delivered task c _ rfl rfl
  | step task => exact alters_step hp hs task

end World

end Patchbay
