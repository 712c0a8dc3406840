import Patchbay.Proofs.Discards
import Patchbay.Proofs.Footprint
import Patchbay.Proofs.Pulls
import Patchbay.Proofs.Recomputation

/-!
# What blocking does

A run that finds one of its inputs stopped computes nothing. It writes the stop sign to its node,
invalidates what is below, and carries the stop sign on to all of it. The first of the two
traversals stops at nodes that are stale already, the second one stops at nothing; so it is the
second one that tells what becomes of the nodes below. Nothing is assumed of the node types here.

What is proved here:
  1. `World.anchored_after`: in every world that can be reached connections lead from nodes to
     nodes, so a traversal comes to everything below.
  2. `Graph.stops_block`, `Graph.listed_blockBelow`: what blocking makes of the graph, and which
     nodes it lists.
  3. `Frame.stage_turn`: a run never goes back, so one that is over without a computation has
     never had one.
  4. `World.blocks_exactly`: all of it for a run in a world that can be reached.
-/

namespace Patchbay

open Relation

variable {σ : Type}

/-! ## Both ends of a connection -/

namespace Graph

variable {g g' : Graph σ}

theorem Anchored.within (h : g.Anchored) (hwiring : g'.wiring.Within g.wiring)
    (hnodes : ∀ m, (g'.node? m).isSome = (g.node? m).isSome) : g'.Anchored := by
  intro u v huv
  rw [hnodes, hnodes]
  exact h u v (hwiring.feeds huv)

theorem Anchored.transGen (h : g.Anchored) {u v : NodeId} (huv : TransGen g.wiring.Feeds u v) :
    (g.node? v).isSome = true := by
  cases huv with
  | single hfeeds => exact (h u v hfeeds).2
  | tail _ hfeeds => exact (h _ v hfeeds).2

theorem isSome_of_rel {R : Node σ → Node σ → Prop} {x y : Option (Node σ)}
    (h : Option.Rel R x y) : y.isSome = x.isSome := by
  cases h <;> rfl

end Graph

section

variable [NodeState σ] {e e' : Engine σ}

namespace Engine

open Patchbay.Graph

/-- What an operation keeps of the nodes at all, it keeps of their being there. -/
theorem reactive_any (r : Registry σ) : Node.Reactive r fun _ _ : Node σ => True :=
  ⟨Node.robust_any, fun _ _ _ _ _ => trivial⟩

theorem anchored_remove (h : e.graph.Anchored) (hw : e.graph.wiring.Sound) {id : NodeId}
    {cs : List Connection} (hremove : e.remove id = .ok (e', cs)) : e'.graph.Anchored := by
  have hnodes : ∀ m, m ≠ id → (e'.graph.node? m).isSome = (e.graph.node? m).isSome :=
    fun m hm => isSome_of_rel (rel_remove (reactive_any e.registry) hremove hm)
  intro u v huv
  rw [(remove_eq_ok hremove).1.wiring] at huv
  obtain ⟨c, hc, rfl, rfl⟩ := huv
  obtain ⟨hc, hsource, hsink⟩ := ((hw.removeNode id).2 c).1 hc
  rw [hnodes _ hsource, hnodes _ hsink]
  exact h _ _ ⟨c, hc, rfl, rfl⟩

/-- A connection is made between ports, and so between nodes. -/
theorem anchored_connect (h : e.graph.Anchored) {source sink : PortRef} {c : Connection}
    (hconnect : e.connect source sink = .ok (e', c)) : e'.graph.Anchored := by
  have hnodes : ∀ m, (e'.graph.node? m).isSome = (e.graph.node? m).isSome :=
    fun m => isSome_of_rel (rel_connect (reactive_any e.registry) hconnect m)
  obtain ⟨hc, ⟨p, q, hp, hq, -⟩, -⟩ := connect_eq_ok hconnect
  intro u v huv
  rw [link_connect hconnect] at huv
  rw [hnodes, hnodes]
  rcases Wiring.feeds_link huv with ⟨rfl, rfl⟩ | huv
  · subst hc
    exact ⟨isSome_of_hasPort hp, isSome_of_hasPort hq⟩
  · exact h u v huv

theorem anchored_restore {s : Snapshot σ} (hrestore : e.restore s = .ok e') :
    e'.graph.Anchored := by
  have hdefects := defects_of_restore hrestore
  obtain ⟨g, hg, rfl⟩ := exists_graph_of_restore hrestore
  have heach := each_invalidateAll Node.robust_any g (g.staleNodes.flatMap g.wiring.downstream)
  exact (Snapshot.whole_graph hdefects hg).anchored.within (fun c hc => heach.wiring ▸ hc)
    fun m => isSome_of_rel (heach.nodes m)

theorem anchored_performed (h : e.graph.Anchored) (hw : e.graph.wiring.Sound) {m : Move σ}
    (hperformed : e.Performed m e') : e'.graph.Anchored := by
  have hany := reactive_any e.registry
  cases hperformed with
  | nothing m => exact h
  | created m e' id state hcreate =>
    obtain ⟨-, -, rfl⟩ := createWith_eq_ok hcreate
    intro u v huv
    have hkept : ∀ m, (e.graph.node? m).isSome = true →
        ((e.graph.inserted id state).node? m).isSome = true := by
      intro m hm
      rw [inserted, node?_insert]
      split
      · rfl
      · exact hm
    exact ⟨hkept u (h u v huv).1, hkept v (h u v huv).2⟩
  | removed e' id cs hremove => exact anchored_remove h hw hremove
  | updated e' id edit ids hupdate =>
    exact h.within (within_update hupdate) fun m =>
      isSome_of_rel (rel_update ⟨hany, fun _ _ _ _ => trivial⟩ hupdate m)
  | marked e' id ids hmark =>
    obtain ⟨-, rfl⟩ := markStale_accounts hmark
    have heach := each_invalidate Node.robust_any e.graph id
    exact h.within (fun c hc => heach.wiring ▸ hc) fun m => isSome_of_rel (heach.nodes m)
  | connected e' source sink c hconnect => exact anchored_connect h hconnect
  | disconnected e' source sink c hdisconnect =>
    refine h.within (within_disconnect hdisconnect) fun m => ?_
    obtain ⟨-, w, -, rfl⟩ := disconnect_eq_ok hdisconnect
    exact isSome_of_rel (rel_rewire hany false w c m)
  | restored e' s hrestore => exact anchored_restore hrestore

theorem anchored_turn {top : Frame σ} {rest new : List (Frame σ)} (h : e.graph.Anchored)
    (hturn : Turn e top rest e' new) : e'.graph.Anchored := by
  have hnodes : ∀ m, Option.Rel (fun _ _ => True) (e.graph.node? m) (e'.graph.node? m) :=
    fun _ => rel_turn_of_writes Node.robust_any hturn fun _ _ _ _ => trivial
  exact h.within (fun c hc => wiring_turn hturn ▸ hc) fun m => isSome_of_rel (hnodes m)

end Engine

theorem Graph.anchored_invariant (r : Registry σ) (p : Policy) :
    Invariant r p fun e _ => e.graph.wiring.Sound ∧ e.graph.Anchored where
  start := ⟨.empty, fun _ _ hfeeds => absurd hfeeds Wiring.not_feeds_empty⟩
  same h hsame := hsame.graph.symm ▸ h
  idle h _ := h
  performed h hperformed :=
    ⟨hperformed.stays.wiring h.1, Engine.anchored_performed h.2 h.1 hperformed⟩
  turn h hturn := ⟨Engine.sound_wiring_turn hturn h.1, Engine.anchored_turn h.2 hturn⟩
  progress _ h := h

theorem Engine.registry_invariant (r : Registry σ) (p : Policy) :
    Invariant r p fun e _ => e.registry = r where
  start := rfl
  same h hsame := hsame.registry.trans h
  idle h _ := h
  performed h hperformed := hperformed.stays.registry.trans h
  turn h hturn := (Engine.registry_turn hturn).1.trans h
  progress _ h := h

theorem World.registry_after (r : Registry σ) (p : Policy) (moves : List (Move σ)) :
    (after r p moves).engine.registry = r :=
  (Engine.registry_invariant r p).after moves

/-- In every world that can be reached both ends of a connection are there. -/
theorem World.anchored_after (r : Registry σ) (p : Policy) (moves : List (Move σ)) :
    (after r p moves).engine.graph.Anchored :=
  ((Graph.anchored_invariant r p).after moves).2

end

/-! ## The graph -/

namespace Dict

variable {κ ν ξ : Type} [Ord κ]

theorem get?_mapValues (d : Dict κ ν) (f : ν → ξ) (k : κ) :
    (d.mapValues f).get? k = (d.get? k).map f := by
  have hfind : ∀ l : List (κ × ν), find k (l.map fun e => (e.1, f e.2)) = (find k l).map f := by
    intro l
    induction l with
    | nil => rfl
    | cons e rest ih =>
      simp only [List.map_cons, find]
      split
      · rfl
      · exact ih
  exact hfind d.entries

end Dict

namespace Outputs

theorem get?_stopped (ports : List PortId) (port : PortId) :
    (stopped ports).get? port = if port ∈ ports then some .stop else none := by
  split
  · rename_i hport
    have hsome : ((stopped ports).get? port).isSome = true :=
      Dict.isSome_ofList (by simpa using hport)
    obtain ⟨v, hv⟩ := Option.isSome_iff_exists.1 hsome
    obtain ⟨port', -, heq⟩ := List.mem_map.1 (Dict.mem_of_ofList hv)
    cases heq
    exact hv
  · rename_i hport
    rw [Option.eq_none_iff_forall_ne_some]
    intro v hv
    obtain ⟨port', hport', heq⟩ := List.mem_map.1 (Dict.mem_of_ofList hv)
    cases heq
    exact hport hport'

theorem get?_allStopped (o : Outputs) (port : PortId) :
    o.allStopped.get? port = (o.get? port).map fun _ => .stop :=
  Dict.get?_mapValues o _ port

end Outputs

namespace Node

/-- One node before and after the step with which its run blocks it: it has the stop sign on these
sources and nothing else. -/
structure Barred (ports : List Port) (n n' : Node σ) : Prop where
  state : n'.state = n.state
  outputs : ∀ port, n'.outputs.get? port =
    if port ∈ (ports.filter Port.isSource).map (·.id) then some .stop else none
  stale : n'.stale = true
  claimed : n'.claimed = false
  status : n'.status = .blocked
  lastError : n'.lastError = n.lastError

/-- One node before and after a node above it is blocked: it has the stop sign wherever it had
anything. Whoever has claimed it keeps it. -/
structure Starved (n n' : Node σ) : Prop where
  state : n'.state = n.state
  outputs : ∀ port, n'.outputs.get? port = (n.outputs.get? port).map fun _ => .stop
  stale : n'.stale = true
  claimed : n'.claimed = n.claimed
  status : n'.status = if n.claimed then n.status else .blocked
  lastError : n'.lastError = n.lastError

theorem barred_aged {k : Nat} (hk : 0 < k) (n : Node σ) (ports : List Port) :
    n.Barred ports ((n.blocked ports).aged k) where
  state := rfl
  outputs := Outputs.get?_stopped _
  stale := stale_aged hk
  claimed := rfl
  status := rfl
  lastError := rfl

theorem starved_aged (k : Nat) (n : Node σ) : n.Starved (n.aged k).stopped where
  state := rfl
  outputs := n.outputs.get?_allStopped
  stale := rfl
  claimed := rfl
  status := rfl
  lastError := rfl

end Node

namespace Graph

/-- The second graph is the first one with this node blocked, which has these ports. -/
structure Stops (g : Graph σ) (id : NodeId) (ports : List Port) (g' : Graph σ) : Prop where
  wiring : g'.wiring = g.wiring
  self : ∃ n n', g.node? id = some n ∧ g'.node? id = some n' ∧ n.Barred ports n'
  below : ∀ m, TransGen g.wiring.Feeds id m →
    ∃ n n', g.node? m = some n ∧ g'.node? m = some n' ∧ n.Starved n'
  apart : ∀ m, ¬ ReflTransGen g.wiring.Feeds id m → g'.node? m = g.node? m

variable {g : Graph σ}

/-- The stop sign is carried to everything below, once to each node. -/
theorem listed_blockBelow (hw : g.wiring.Sound) (hanchored : g.Anchored) (id : NodeId) :
    (g.blockBelow id).2.Nodup ∧ (∀ m, m ∈ (g.blockBelow id).2 ↔ TransGen g.wiring.Feeds id m) ∧
      (g.blockBelow id).1.wiring = g.wiring ∧
      ∀ m, (g.blockBelow id).1.node? m =
        if m ∈ (g.blockBelow id).2 then (g.node? m).map Node.stopped else g.node? m := by
  obtain ⟨S, h, hlist⟩ := met_stopAll g hw [] (g.wiring.downstream id)
  have hbelow : ∀ m ∈ S, TransGen g.wiring.Feeds id m := by
    intro m hm
    obtain ⟨u, hu, hpath⟩ := h.reach m hm
    exact TransGen.head' (hw.mem_downstream.1 hu) hpath
  have hmet : ∀ m, TransGen g.wiring.Feeds id m → m ∈ S := by
    intro m hm
    induction hm with
    | single hfeeds =>
      exact (h.starts _ (hw.mem_downstream.2 hfeeds)).resolve_left List.not_mem_nil
    | tail _ hfeeds ih =>
      exact (h.onward _ ih (hanchored _ _ hfeeds).1 _ hfeeds).resolve_left List.not_mem_nil
  -- Everything that was met is there, so all of it is listed.
  have hall : (g.blockBelow id).2 = S :=
    hlist.trans (List.filter_eq_self.2 fun m hm => hanchored.transGen (hbelow m hm))
  rw [hall]
  exact ⟨h.once, fun m => ⟨hbelow m, hmet m⟩, h.wiring, h.node?⟩

/-- What blocking makes of the graph, and which nodes it lists. -/
theorem stops_block (hw : g.wiring.Sound) (hanchored : g.Anchored) {id : NodeId} {n : Node σ}
    (hn : g.node? id = some n) (ports : List Port) :
    g.Stops id ports (g.block id ports).1 ∧ ∃ flipped below,
      (g.block id ports).2 = Event.invalidated flipped ++ [.nodesBlocked (id :: below)] ∧
      below.Nodup ∧ ∀ m, m ∈ below ↔ TransGen g.wiring.Feeds id m := by
  obtain ⟨visits, hv⟩ := visited_invalidate (g.modify id (·.blocked ports)) hw id
  have hanchored' : ((g.modify id (·.blocked ports)).invalidate id).1.Anchored := by
    refine hanchored.within (fun c hc => hv.wiring ▸ hc) fun m => ?_
    rw [hv.node?, Option.isSome_map, isSome_modify]
  obtain ⟨honce, hmem, hwiring, hnode⟩ :=
    listed_blockBelow (hv.wiring.symm ▸ hw) hanchored' id
  rw [hv.wiring] at hmem hwiring
  have hself : ¬ TransGen g.wiring.Feeds id id := hw.acyclic.transGen.irrefl.irrefl id
  refine ⟨⟨hwiring, ?_, fun m hm => ?_, (within_block g hw id ports).node?⟩,
    _, _, rfl, honce, hmem⟩
  · have hpos := hv.starts id List.mem_cons_self
    refine ⟨n, (n.blocked ports).aged (visits id), hn, ?_, n.barred_aged hpos ports⟩
    refine (hnode id).trans ?_
    rw [if_neg fun h => hself ((hmem id).1 h), hv.node?, node?_modify_self, hn]
    rfl
  · have hne : id ≠ m := fun heq => hself (heq ▸ hm)
    obtain ⟨n', hn'⟩ := Option.isSome_iff_exists.1 (hanchored.transGen hm)
    refine ⟨n', (n'.aged (visits m)).stopped, hn', ?_, n'.starved_aged (visits m)⟩
    refine (hnode m).trans ?_
    rw [if_pos ((hmem m).2 hm), hv.node?, node?_modify, if_neg hne, hn']
    rfl

end Graph

/-! ## Stages -/

def Phase.stage : Phase σ → Nat
  | .entering => 0
  | .claiming _ => 1
  | .listing _ => 2
  | .pulling _ _ => 3
  | .computing _ _ _ _ _ => 4
  | .releasing _ _ => 5
  | .announcing _ | .leaving _ | .parting _ | .ended _ => 6

def Frame.stage : Frame σ → Nat
  | .run _ phase => phase.stage
  | .wait _ _ | .errand _ => 0

variable [NodeState σ]

omit [NodeState σ] in
theorem Frame.stage_le {f : Frame σ} {run : Nat} (h : f.run? = some run) : f.stage ≤ 5 := by
  cases f with
  | run id phase =>
    cases phase with
    | claiming k | listing k | pulling k todo | computing k epoch d context c
    | releasing k ending => simp [Frame.stage, Phase.stage]
    | _ => cases h
  | _ => cases h

omit [NodeState σ] in
/-- A task that is on one level, and is about to read the inputs of its node there. -/
theorem Stack.eq_pulling {s : Stack σ} {id : NodeId} {run : Nat}
    (h : s.map (fun f => (f.listed, f.reading?, f.stage)) = [([], some (id, run), 3)]) :
    s = [.run id (.pulling run [])] := by
  obtain ⟨f, rfl, hf⟩ := List.map_eq_singleton_iff.1 h
  simp only [Prod.mk.injEq] at hf
  obtain ⟨hlisted, hreading, hstage⟩ := hf
  unfold Frame.reading? at hreading
  split at hreading
  · cases hstage
  · cases hreading
    cases hlisted
    rfl
  · cases hreading

theorem Frame.stage_turn {e e' : Engine σ} {top f : Frame σ} {rest new : List (Frame σ)} {run : Nat}
    (hturn : Turn e top rest e' new) (hrun : run < e.nextRun) (hf : f ∈ new)
    (hnumber : f.run? = some run) : top.run? = some run ∧ top.stage ≤ f.stage := by
  cases hturn with
  | enter id rest =>
    obtain rfl := List.mem_singleton.1 hf
    cases hnumber
    exact absurd hrun (Nat.lt_irrefl _)
  | pull id k p todo rest =>
    rcases List.mem_cons.1 hf with rfl | hf
    · cases hnumber
    · obtain rfl := List.mem_singleton.1 hf
      exact ⟨hnumber, Nat.le_refl _⟩
  | pass top rest e' new hpass =>
    rcases hpass.new_cases with rfl | ⟨f', rfl, hidle | ⟨id, k, ending, rfl, htop⟩⟩
    · cases hf
    · obtain rfl := List.mem_singleton.1 hf
      rw [hidle] at hnumber
      cases hnumber
    · obtain rfl := List.mem_singleton.1 hf
      exact ⟨htop.trans hnumber, Frame.stage_le htop⟩
  | release id k ending rest =>
    obtain rfl := List.mem_singleton.1 hf
    cases hnumber
  | claim | list | block | begin | finish | fail =>
    obtain rfl := List.mem_singleton.1 hf
    exact ⟨hnumber, by simp [Frame.stage, Phase.stage]⟩

namespace World

variable {w : World σ} {run stage : Nat}

/-- The run with this number has come at least this far, if it is going on at all. -/
structure Past (w : World σ) (run stage : Nat) : Prop where
  begun : run < w.engine.nextRun
  levels : ∀ f ∈ w.frames, f.run? = some run → stage ≤ f.stage

omit [NodeState σ] in
theorem past_of_mem (hnumbered : Numbered w.engine w.frames) {f : Frame σ} (hf : f ∈ w.frames)
    (hrun : f.run? = some run) : w.Past run f.stage := by
  refine ⟨hnumbered.below run (List.mem_filterMap.2 ⟨f, hf, hrun⟩), fun f' hf' hrun' => ?_⟩
  rw [eq_of_run? hnumbered.distinct hf hf' hrun hrun']

theorem Past.next (h : w.Past run stage) (m : Move σ) : (w.next m).Past run stage := by
  have hidle : ∀ {f : Frame σ}, f.run? = none → f.run? = some run → stage ≤ f.stage :=
    fun hnone hsome => absurd (hnone.symm.trans hsome) nofun
  rcases w.move_cases m with hperforms | ⟨task, top, rest, e, new, rfl, htakes⟩ | ⟨task, c, rfl⟩
  · obtain ⟨e, hperformed, hsame⟩ := hperforms.engine
    obtain ⟨idle, hnone, hframes⟩ := hperforms.frames
    refine ⟨?_, fun f hf hrun => ?_⟩
    · rw [hsame.nextRun, hperformed.stays.nextRun]
      exact h.begun
    · rw [hframes] at hf
      rcases List.mem_append.1 hf with hf | hf
      · exact h.levels f hf hrun
      · exact hidle (hnone f hf) hrun
  · obtain ⟨pre, post, hsteps⟩ := htakes.steps
    obtain ⟨idle, hnone, hframes⟩ := hsteps.after
    refine ⟨?_, fun f hf hrun => ?_⟩
    · rw [htakes.engine.nextRun]
      exact Nat.lt_of_lt_of_le h.begun (nextRun_turn htakes.turn)
    · have hcases : f ∈ new ∨ f ∈ pre ++ top :: post ∨ f ∈ idle := by
        simp only [hframes, List.mem_append, List.mem_cons] at hf ⊢
        tauto
      rcases hcases with hf | hf | hf
      · -- The level with this number goes on from where the run was.
        obtain ⟨htop, hle⟩ := Frame.stage_turn htakes.turn h.begun hf hrun
        refine Nat.le_trans (h.levels top ?_ htop) hle
        rw [hsteps.before]
        exact List.mem_append_right _ List.mem_cons_self
      · exact h.levels f (hsteps.before ▸ hf) hrun
      · exact hidle (hnone f hf) hrun
  · refine ⟨h.begun, fun f hf hrun => ?_⟩
    rcases mem_frames_deliver hf with hf | ⟨id, k, epoch, d, context, c₀, hbefore, rfl⟩
    · exact h.levels f hf hrun
    · exact h.levels (.run id (.computing k epoch d context c₀)) hbefore hrun

theorem Past.foldl (h : w.Past run stage) (moves : List (Move σ)) :
    (moves.foldl World.next w).Past run stage := by
  induction moves generalizing w with
  | nil => exact h
  | cons m moves ih => exact ih (h.next m)

/-- The computation of the run with this number is going on. -/
def Invokes (w : World σ) (run : Nat) : Prop :=
  ∃ id epoch d context c, Frame.run id (.computing run epoch d context c) ∈ w.frames

omit [NodeState σ] in
theorem Past.not_computes (h : w.Past run 5) : ¬ w.Invokes run := by
  intro hex
  obtain ⟨id, epoch, d, context, c, hmem⟩ := hex
  have hle := h.levels _ hmem rfl
  simp [Frame.stage, Phase.stage] at hle

theorem not_computes_before (r : Registry σ) (p : Policy) {earlier moves : List (Move σ)}
    (hearlier : earlier <+: moves) {f : Frame σ} (hf : f ∈ (after r p moves).frames)
    (hrun : f.run? = some run) (hstage : f.stage < 4) : ¬ (after r p earlier).Invokes run := by
  intro hex
  obtain ⟨id, epoch, d, context, c, hmem⟩ := hex
  obtain ⟨later, rfl⟩ := hearlier
  have hpast := (past_of_mem (numbered_after r p earlier) hmem rfl).foldl later
  rw [after, List.foldl_append] at hf
  have hle := hpast.levels f hf hrun
  exact absurd hstage (Nat.not_lt.2 hle)

/-! ## Endings -/

/-- Whatever the moves, a run of this task ends like this: it is on its way out, or it has ended
at some time. -/
def Ends (w : World σ) (moves : List (Move σ)) (task : Nat) (outer : List (Frame σ)) (id : NodeId)
    (ending : Ending) : Prop :=
  (∃ phase, (moves.foldl next w).tasks[task]? = some (.run id phase :: outer) ∧
      phase.ending? = some ending) ∨
    ∃ earlier, earlier <+: moves ∧
      (earlier.foldl next w).tasks[task]? = some (.run id (.ended ending) :: outer)

variable {task : Nat} {id : NodeId} {outer : List (Frame σ)} {phase : Phase σ} {ending : Ending}

/-- A run that is on its way out goes on, until it has ended. -/
theorem ending_next (hplace : w.tasks[task]? = some (.run id phase :: outer))
    (hphase : phase.ending? = some ending) (m : Move σ) :
    (∃ phase', (w.next m).tasks[task]? = some (.run id phase' :: outer) ∧
      phase'.ending? = some ending) ∨ phase = .ended ending := by
  obtain ⟨s, hs, hfollows⟩ := follows_next hplace m
  cases hfollows with
  | same m => exact .inl ⟨phase, hs, hphase⟩
  | delivered c =>
    cases phase with
    | computing k epoch d context c₀ => cases hphase
    | _ => exact .inl ⟨_, hs, hphase⟩
  | stepped top rest new e htop hstep hturn =>
    cases phase with
    | releasing k ending' => exact .inl ⟨_, (next_step hplace rfl).2.2, hphase⟩
    | announcing ending' => exact .inl ⟨_, (next_step hplace rfl).2.2, hphase⟩
    | leaving ending' => exact .inl ⟨_, (next_step hplace rfl).2.2, hphase⟩
    | parting ending' => exact .inl ⟨_, (next_step hplace rfl).2.2, hphase⟩
    | ended ending' =>
      cases hphase
      exact .inr rfl
    | _ => cases hphase

theorem ends_of_ending (hplace : w.tasks[task]? = some (.run id phase :: outer))
    (hphase : phase.ending? = some ending) (moves : List (Move σ)) :
    w.Ends moves task outer id ending := by
  induction moves generalizing w phase with
  | nil => exact .inl ⟨phase, hplace, hphase⟩
  | cons m moves ih =>
    rcases ending_next hplace hphase m with ⟨phase', hplace', hphase'⟩ | rfl
    · rcases ih hplace' hphase' with hon | ⟨earlier, hearlier, hended⟩
      · exact .inl hon
      · exact .inr ⟨m :: earlier, List.cons_prefix_cons.2 ⟨rfl, hearlier⟩, hended⟩
    · exact .inr ⟨[], List.nil_prefix, hplace⟩

/-! ## The step -/

end World

theorem Engine.resolve_eq_block {e : Engine σ} {id : NodeId} {run : Nat} {n : Node σ}
    {d : Definition σ} (hn : e.graph.node? id = some n) (hrun : n.run = run)
    (hd : e.registry.of? n.state = some d) (hinputs : e.graph.resolve id (d.ports n.state) = none) :
    e.resolve id run =
      ((e.withGraph (e.graph.block id (d.ports n.state)).1).emit
        (e.graph.block id (d.ports n.state)).2, .releasing run (.ok .blocked)) := by
  have howned := ownedNode?_eq_some.2 ⟨hn, hrun⟩
  have hget : e.registry.get n.typeName = .ok d := Registry.get_of_of? hd
  simp only [Engine.resolve, howned, hget, hinputs]

namespace World

/-- In every world that can be reached, of the step of a run that is about to read its inputs, has
its node still, and finds an input stopped:
  1. the node has the stop sign on its sources, and so has everything below it wherever there was
     anything; both are stale, and blocked unless someone has claimed them; nothing else changes;
  2. it is announced that the node was blocked and with it all that is below, each node once;
  3. the run is over, and ends as blocked, four steps later if nothing comes between, and whatever
     comes between;
  4. the run has not computed and will not compute. -/
theorem blocks_exactly (r : Registry σ) (p : Policy) (moves : List (Move σ)) {task run : Nat}
    {id : NodeId} {rest : List (Frame σ)} {n : Node σ} {d : Definition σ}
    (htask : (after r p moves).tasks[task]? = some (.run id (.pulling run []) :: rest))
    (hn : (after r p moves).engine.graph.node? id = some n) (hrun : n.run = run)
    (hd : r.of? n.state = some d)
    (hinputs : (after r p moves).engine.graph.resolve id (d.ports n.state) = none) :
    let w := after r p moves
    let w' := w.next (.step task)
    w.engine.graph.Stops id (d.ports n.state) w'.engine.graph ∧
    (∃ flipped below, w'.engine.log = w.engine.log ++
        (Event.invalidated flipped ++ [.nodesBlocked (id :: below)]) ∧
      below.Nodup ∧ ∀ m, m ∈ below ↔ TransGen w.engine.graph.wiring.Feeds id m) ∧
    (w'.tasks[task]? = some (.run id (.releasing run (.ok .blocked)) :: rest) ∧
      ((List.replicate 4 (.step task)).foldl next w').tasks[task]? =
        some (.run id (.ended (.ok .blocked)) :: rest) ∧
      ∀ more, w'.Ends more task rest id (.ok .blocked)) ∧
    (∀ earlier, earlier <+: moves → ¬ (after r p earlier).Invokes run) ∧
    ∀ more : List (Move σ), ¬ (more.foldl next w').Invokes run := by
  intro w w'
  rw [← registry_after r p moves] at hd
  have hstep : w.engine.step (.run id (.pulling run []) :: rest) =
      some ((w.engine.withGraph (w.engine.graph.block id (d.ports n.state)).1).emit
        (w.engine.graph.block id (d.ports n.state)).2,
        .run id (.releasing run (.ok .blocked)) :: rest) := by
    show some ((w.engine.resolve id run).1, [.run id (w.engine.resolve id run).2] ++ rest) = _
    rw [Engine.resolve_eq_block hn hrun hd hinputs]
    rfl
  obtain ⟨hgraph, hlog, hplace⟩ := next_step htask hstep
  have hgraph : w'.engine.graph = (w.engine.graph.block id (d.ports n.state)).1 := hgraph
  have hlog : w'.engine.log = w.engine.log ++ (w.engine.graph.block id (d.ports n.state)).2 := hlog
  obtain ⟨hstops, flipped, below, hevents, honce, hmem⟩ :=
    Graph.stops_block (sound_wiring_after r p moves) (anchored_after r p moves) hn (d.ports n.state)
  have hbefore : Frame.run id (.pulling run []) ∈ w.frames :=
    mem_frames htask List.mem_cons_self
  have hpast : w'.Past run 5 := by
    have hmem' : Frame.run id (.releasing run (.ok .blocked)) ∈ w'.frames :=
      mem_frames hplace List.mem_cons_self
    have hnumbered := numbered_after r p (moves ++ [.step task])
    rw [after_concat] at hnumbered
    exact past_of_mem hnumbered hmem' rfl
  refine ⟨hgraph ▸ hstops, ⟨flipped, below, ?_, honce, hmem⟩, ⟨hplace, ?_, fun more => ?_⟩,
    fun earlier hearlier => ?_, fun more => ?_⟩
  · rw [hlog, hevents]
  · exact ended_of_releasing hplace
  · exact ends_of_ending hplace rfl more
  · exact not_computes_before r p hearlier hbefore rfl (by simp [Frame.stage, Phase.stage])
  · exact (hpast.foldl more).not_computes

end World

namespace Bench

/-- A doubler whose source was never executed, with another doubler below it, is about to read its
inputs. -/
def halting : List (Move BenchNode) :=
  [.create "a" "source", .create "b" "double", .create "c" "double",
    .connect ⟨"a", "output"⟩ ⟨"b", "input"⟩, .connect ⟨"b", "output"⟩ ⟨"c", "input"⟩,
    .start "b"] ++ List.replicate 3 (.step 0)

/-- It is blocked, and with it the other one. -/
theorem blocks_exactly_halting :
    let w := World.after (registry {}) {} halting
    let w' := w.next (.step 0)
    ∃ n, w.engine.graph.node? "b" = some n ∧ n.run = 1 ∧
      w.engine.graph.Stops "b" ((definitionOf {} n.state).ports n.state) w'.engine.graph ∧
      w'.Ends (List.replicate 4 (.step 0)) 0 [] "b" (.ok .blocked) ∧ ¬ w'.Invokes 1 := by
  intro w w'
  obtain ⟨n, hn, hfacts⟩ : ∃ n, w.engine.graph.node? "b" = some n ∧
      (n.run, (w.engine.graph.resolve "b" ((definitionOf {} n.state).ports n.state)).isNone) =
        (1, true) := Option.map_eq_some_iff.1 (by decide +kernel)
  obtain ⟨hrun, hnone⟩ := Prod.mk.inj hfacts
  obtain ⟨s, hs, hlevels⟩ : ∃ s, w.tasks[0]? = some s ∧
      s.map (fun f => (f.listed, f.reading?, f.stage)) = [([], some ("b", 1), 3)] :=
    Option.map_eq_some_iff.1 (by decide +kernel)
  obtain rfl := Stack.eq_pulling hlevels
  have h := World.blocks_exactly (registry {}) {} halting hs hn hrun (of?_registry {} n.state)
    (Option.isNone_iff_eq_none.1 hnone)
  exact ⟨n, hn, hrun, h.1, h.2.2.1.2.2 _, h.2.2.2.2 []⟩

end Bench

end Patchbay
