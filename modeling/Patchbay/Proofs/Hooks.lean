import Patchbay.Proofs.Blocking
import Patchbay.Proofs.Losses
import Patchbay.Proofs.Passive

/-!
# Calls mirror the connections

A connection comes in one way and goes in three: it is taken away, it goes with the node at its
other end, or its port goes when a state is edited. Whichever it is, the node types at the ends
that are left are called, each once, and what is announced tells which calls these were. Nobody is
called on any other occasion: not by an operation that is refused, and not by a step of a run, which
writes its result to the state as it is by then.

What is proved here:
  1. `Engine.mirrors_connect`, `Engine.mirrors_disconnect`, `Engine.mirrors_remove`,
     `Engine.mirrors_update`: the calls of each operation.
  2. `Engine.state_turn_eq`, `Engine.silent_step`: a step writes its result and calls nobody.
  3. `World.mirrors_next`: the calls of every move.
  4. `World.new_next`: a node that a move adds comes without connections.
-/

namespace Patchbay

variable {σ : Type}

/-- The calls that an announcement tells of. -/
def Event.calls : Event → List Call
  | .connected c => callsOf true [c]
  | .disconnected c => callsOf false [c]
  | .nodeRemoved node cs => cs.map fun c => ⟨false, c.otherEnd node⟩
  | _ => []

namespace Event

theorem flatMap_calls_filter (events : List Event) :
    (events.filter isRewiring).flatMap calls = events.flatMap calls := by
  induction events with
  | nil => rfl
  | cons event rest ih =>
    rw [List.filter_cons]
    cases event <;> simp [isRewiring, calls, ih]

theorem calls_stateChanges (ids : List NodeId) : (stateChanges ids).flatMap calls = [] := by
  simp [stateChanges, List.flatMap_map, calls]

theorem calls_invalidated (ids : List NodeId) : (invalidated ids).flatMap calls = [] := by
  cases ids <;> rfl

theorem calls_disconnected (cs : List Connection) :
    (cs.map Event.disconnected).flatMap calls = callsOf false cs := by
  simp [List.flatMap_map, calls, callsOf, Graph.bothEnds, List.map_flatMap]

end Event

namespace Wiring

variable {w w' : Wiring} {cs : List Connection} {port : PortRef}

/-- The connections at a port that the first wiring has and the second does not have. -/
def beyond (w w' : Wiring) (port : PortRef) : Finset Connection :=
  {c ∈ w.edges \ w'.edges | c.Touches port}

/-- The second wiring is the first one without these connections. -/
structure Less (w : Wiring) (cs : List Connection) (w' : Wiring) : Prop where
  once : cs.Nodup
  there : cs.toFinset ⊆ w.edges
  rest : w'.edges = w.edges \ cs.toFinset

theorem Less.card_beyond (h : w.Less cs w') (port : PortRef) :
    (w.beyond w' port).card = cs.countP (·.Touches port) := by
  rw [beyond, h.rest, Finset.sdiff_sdiff_eq_self h.there, List.countP_eq_length_filter,
    ← List.toFinset_card_of_nodup (h.once.filter _), List.toFinset_filter]
  simp only [decide_eq_true_eq]

theorem beyond_of_subset (h : w.edges ⊆ w'.edges) (port : PortRef) : w.beyond w' port = ∅ := by
  rw [beyond, Finset.sdiff_eq_empty_iff_subset.2 h, Finset.filter_empty]

theorem Less.beyond_eq_empty (h : w.Less cs w') (port : PortRef) : w'.beyond w port = ∅ :=
  beyond_of_subset (h.rest ▸ Finset.sdiff_subset) port

theorem Sound.less_removeNode (hw : w.Sound) (id : NodeId) :
    w.Less (w.removeNode id).2 (w.removeNode id).1 := by
  obtain ⟨-, hrest⟩ := hw.removeNode id
  refine ⟨hw.nodup_around id, fun c hc => ?_, Finset.ext fun c => ?_⟩
  · exact mem_edges.2 ((mem_removed hw).1 (List.mem_toFinset.1 hc)).1
  · rw [Finset.mem_sdiff, mem_edges, mem_edges, List.mem_toFinset, mem_removed hw, hrest]
    tauto

/-- A connection of a removed node has its other end on another node. -/
theorem Sound.ends_of_removed (hw : w.Sound) {id : NodeId} {c : Connection}
    (hc : c ∈ (w.removeNode id).2) : c.source.node = id ∧ c.sink.node ≠ id ∨
      c.sink.node = id ∧ c.source.node ≠ id := by
  obtain ⟨hconnected, hends⟩ := (mem_removed hw).1 hc
  have hself : ¬ (c.source.node = id ∧ c.sink.node = id) := fun hboth =>
    hw.not_feeds_self id ⟨c, hconnected, hboth.1, hboth.2⟩
  tauto

theorem Sound.source_ne_sink (hw : w.Sound) {c : Connection} (hc : c ∈ w.edges) :
    c.source ≠ c.sink :=
  fun h => hw.not_feeds_self c.sink.node ⟨c, mem_edges.1 hc, congrArg PortRef.node h, rfl⟩

end Wiring

namespace Engine

open Patchbay.Graph

variable [NodeState σ] {write : NodeId → σ → σ} {e e' : Engine σ} {cs : List Connection}

/-- Between the two engines there were these calls, and they are what was announced. Besides what
was written, nothing but them changed a state. Each of them is at a node that is still there, and
each port of such a node was called once for each connection at it that came, or that went. -/
structure Mirrors (write : NodeId → σ → σ) (e : Engine σ) (calls : List Call) (e' : Engine σ) :
    Prop where
  announced : ∃ events, e'.log = e.log ++ events ∧ events.flatMap Event.calls = calls
  states : ∀ m n n', e.graph.node? m = some n → e'.graph.node? m = some n' →
    n'.state = e.registry.calls m (write m n.state) calls
  alike : ∃ connected, ∀ call ∈ calls, call.connected = connected
  live : ∀ call ∈ calls, ∃ n', e'.graph.node? call.port.node = some n'
  connects : ∀ port, calls.count ⟨true, port⟩ =
    (e'.graph.wiring.beyond e.graph.wiring port).card
  disconnects : ∀ port n', e'.graph.node? port.node = some n' → calls.count ⟨false, port⟩ =
    (e.graph.wiring.beyond e'.graph.wiring port).card

theorem Mirrors.mem_connects {calls : List Call} (h : e.Mirrors write calls e') (port : PortRef) :
    ⟨true, port⟩ ∈ calls ↔
      ∃ c ∈ e'.graph.wiring.edges, c ∉ e.graph.wiring.edges ∧ c.Touches port := by
  rw [← List.count_pos_iff, h.connects, Finset.card_pos, Wiring.beyond]
  simp only [Finset.Nonempty, Finset.mem_filter, Finset.mem_sdiff, and_assoc]

theorem Mirrors.mem_disconnects {calls : List Call} (h : e.Mirrors write calls e')
    {port : PortRef} {n' : Node σ} (hn' : e'.graph.node? port.node = some n') :
    ⟨false, port⟩ ∈ calls ↔
      ∃ c ∈ e.graph.wiring.edges, c ∉ e'.graph.wiring.edges ∧ c.Touches port := by
  rw [← List.count_pos_iff, h.disconnects port n' hn', Finset.card_pos, Wiring.beyond]
  simp only [Finset.Nonempty, Finset.mem_filter, Finset.mem_sdiff, and_assoc]

/-- As long as a port is not called, the connections at it are the same. -/
theorem Mirrors.mem_edges_iff {calls : List Call} (h : e.Mirrors write calls e')
    {port : PortRef} {n' : Node σ} (hn' : e'.graph.node? port.node = some n')
    (hcalls : ∀ connected, ⟨connected, port⟩ ∉ calls) {c : Connection} (hc : c.Touches port) :
    c ∈ e'.graph.wiring.edges ↔ c ∈ e.graph.wiring.edges := by
  refine ⟨fun hmem => ?_, fun hmem => ?_⟩
  · by_contra hnew
    exact hcalls true ((h.mem_connects port).2 ⟨c, hmem, hnew, hc⟩)
  · by_contra hgone
    exact hcalls false ((h.mem_disconnects hn').2 ⟨c, hmem, hgone, hc⟩)

theorem Mirrors.unique {write' : NodeId → σ → σ} {calls calls' : List Call}
    (h : e.Mirrors write calls e') (h' : e.Mirrors write' calls' e') : calls = calls' := by
  obtain ⟨events, hlog, rfl⟩ := h.announced
  obtain ⟨events', hlog', rfl⟩ := h'.announced
  rw [List.append_cancel_left (hlog.symm.trans hlog')]

theorem mirrors_of_quiet (hwiring : e'.graph.wiring = e.graph.wiring)
    (hlog : ∃ events, e'.log = e.log ++ events ∧ events.flatMap Event.calls = [])
    (hstates : ∀ m n n', e.graph.node? m = some n → e'.graph.node? m = some n' →
      n'.state = write m n.state) : e.Mirrors write [] e' where
  announced := hlog
  states m n n' hn hn' := hstates m n n' hn hn'
  alike := ⟨true, nofun⟩
  live := nofun
  connects port := by rw [hwiring, Wiring.beyond_of_subset (Finset.Subset.refl _)]; rfl
  disconnects port n' _ := by rw [hwiring, Wiring.beyond_of_subset (Finset.Subset.refl _)]; rfl

theorem exists_node_of_joined {r : Registry σ} {g : Graph σ} {c : Connection}
    {ref : PortRef} (h : g.Joined r c) (href : ref = c.source ∨ ref = c.sink) :
    ∃ n, g.node? ref.node = some n := by
  obtain ⟨p, q, ⟨n, d, hn, -⟩, ⟨m, d', hm, -⟩, -⟩ := h
  rcases href with rfl | rfl
  · exact ⟨n, hn⟩
  · exact ⟨m, hm⟩

omit [NodeState σ] in
theorem exists_node_of_anchored {g : Graph σ} (ha : g.Anchored) {c : Connection}
    (hc : g.wiring.producerOf c.sink = some c.source) {ref : PortRef}
    (href : ref = c.source ∨ ref = c.sink) : ∃ n, g.node? ref.node = some n := by
  obtain ⟨hsource, hsink⟩ := ha _ _ ⟨c, hc, rfl, rfl⟩
  rcases href with rfl | rfl
  · exact Option.isSome_iff_exists.1 hsource
  · exact Option.isSome_iff_exists.1 hsink

omit [NodeState σ] in
theorem of_rel {R : Node σ → Node σ → Prop} {g g' : Graph σ} {m : NodeId} {n n' : Node σ}
    (h : Option.Rel R (g.node? m) (g'.node? m)) (hn : g.node? m = some n)
    (hn' : g'.node? m = some n') : R n n' := by
  rw [hn, hn'] at h
  cases h with
  | some h => exact h

theorem mirrors_of_lost (hw : e.graph.wiring.Sound) (hless : e.graph.wiring.Less cs e'.graph.wiring)
    (hlog : ∃ events, e'.log = e.log ++ events ∧ events.flatMap Event.calls = callsOf false cs)
    (hstates : ∀ m n n', e.graph.node? m = some n → e'.graph.node? m = some n' →
      n'.state = e.registry.calls m (write m n.state) (callsOf false cs))
    (hlive : ∀ c ∈ cs, ∀ ref, ref = c.source ∨ ref = c.sink →
      ∃ n', e'.graph.node? ref.node = some n') :
    e.Mirrors write (callsOf false cs) e' where
  announced := hlog
  states := hstates
  alike := by
    refine ⟨false, fun call hcall => ?_⟩
    obtain ⟨c, -, rfl | rfl⟩ := mem_callsOf.1 hcall <;> rfl
  live call hcall := by
    obtain ⟨c, hc, rfl | rfl⟩ := mem_callsOf.1 hcall
    · exact hlive c hc _ (.inl rfl)
    · exact hlive c hc _ (.inr rfl)
  connects port := by
    rw [hless.beyond_eq_empty, Finset.card_empty]
    exact count_callsOf_not false cs port
  disconnects port n' _ := by
    rw [hless.card_beyond]
    exact count_callsOf fun c hc => hw.source_ne_sink (hless.there (List.mem_toFinset.2 hc))

theorem mirrors_of_gained {c : Connection} (hw : e'.graph.wiring.Sound)
    (hless : e'.graph.wiring.Less [c] e.graph.wiring)
    (hlog : ∃ events, e'.log = e.log ++ events ∧ events.flatMap Event.calls = callsOf true [c])
    (hstates : ∀ m n n', e.graph.node? m = some n → e'.graph.node? m = some n' →
      n'.state = e.registry.calls m (write m n.state) (callsOf true [c]))
    (hlive : ∀ ref, ref = c.source ∨ ref = c.sink → ∃ n', e'.graph.node? ref.node = some n') :
    e.Mirrors write (callsOf true [c]) e' where
  announced := hlog
  states := hstates
  alike := by
    refine ⟨true, fun call hcall => ?_⟩
    obtain ⟨c, -, rfl | rfl⟩ := mem_callsOf.1 hcall <;> rfl
  live call hcall := by
    obtain ⟨c', hc', hend⟩ := mem_callsOf.1 hcall
    rw [List.mem_singleton.1 hc'] at hend
    rcases hend with rfl | rfl
    · exact hlive _ (.inl rfl)
    · exact hlive _ (.inr rfl)
  connects port := by
    rw [hless.card_beyond]
    exact count_callsOf fun c hc => hw.source_ne_sink (hless.there (List.mem_toFinset.2 hc))
  disconnects port n' _ := by
    rw [hless.beyond_eq_empty, Finset.card_empty]
    exact count_callsOf_not true [c] port

/-! ## Operations -/

omit [NodeState σ] in
theorem flatMap_calls_followed (opening : List Event) (changed flips : List NodeId) :
    (opening ++ Event.stateChanges changed ++ Event.invalidated flips).flatMap Event.calls =
      opening.flatMap Event.calls := by
  rw [List.flatMap_append, List.flatMap_append, Event.calls_stateChanges, Event.calls_invalidated,
    List.append_nil, List.append_nil]

theorem mirrors_createWith {id : NodeId} {state : σ} (h : e.createWith id state = .ok e') :
    e.Mirrors (fun _ s => s) [] e' := by
  obtain ⟨-, hnew, rfl⟩ := createWith_eq_ok h
  refine mirrors_of_quiet rfl ⟨_, rfl, rfl⟩ fun m n n' hn hn' => ?_
  have hsame : (e.graph.inserted id state).node? m = some n := node?_inserted hnew hn
  rw [show (e.graph.inserted id state).node? m = some n' from hn'] at hsame
  cases hsame
  rfl

theorem mirrors_markStale {id : NodeId} {ids : List NodeId}
    (h : e.markStale id = .ok (e', ids)) : e.Mirrors (fun _ s => s) [] e' := by
  obtain ⟨rfl, rfl⟩ := markStale_accounts h
  have heach := each_invalidate Node.robust_state e.graph id
  refine mirrors_of_quiet heach.wiring ⟨_, rfl, flatMap_calls_followed [] [] _⟩
    fun m n n' hn hn' => ?_
  obtain ⟨n₁, hn₁, hstate⟩ := exists_of_rel (heach.nodes m) hn
  rw [show (e.graph.invalidate id).1.node? m = some n' from hn'] at hn₁
  cases hn₁
  exact hstate

/-- Both ends of the connection are called, and that is announced. -/
theorem called_rewire (e : Engine σ) (connected : Bool) (w : Wiring) (c : Connection) :
    Called e.registry (callsOf connected [c]) e.graph (e.rewire connected w c).graph ∧
      (e.rewire connected w c).graph.wiring = w ∧
      ∃ events, (e.rewire connected w c).log = e.log ++ events ∧
        events.flatMap Event.calls = callsOf connected [c] := by
  refine ⟨called_afterEdge e.registry connected ⟨e.graph.nodes, w⟩ c,
    (keeps_afterEdge e.registry connected ⟨e.graph.nodes, w⟩ c).wiring, _,
    e.log_rewire connected w c, ?_⟩
  rw [flatMap_calls_followed]
  cases connected <;> exact List.append_nil _

theorem mirrors_connect (hw : e.graph.wiring.Sound) {source sink : PortRef}
    {c : Connection} (h : e.connect source sink = .ok (e', c)) :
    e.Mirrors (fun _ s => s) (callsOf true [c]) e' := by
  obtain ⟨rfl, hjoined, w, hinsert, he⟩ := connect_eq_ok h
  obtain ⟨hcalled, hwiring, hlog⟩ := e.called_rewire true w ⟨source, sink⟩
  -- A run that is scheduled changes neither the graph nor the log.
  have hgraph : e'.graph = (e.rewire true w ⟨source, sink⟩).graph := by
    rw [he]
    split <;> rfl
  have hsame : e'.log = (e.rewire true w ⟨source, sink⟩).log := by
    rw [he]
    split <;> rfl
  rw [← hgraph] at hcalled hwiring
  rw [← hsame] at hlog
  have hsound : e'.graph.wiring.Sound := hwiring.symm ▸ hw.insert hinsert
  obtain ⟨hfree, -, -, rfl⟩ := Wiring.insert_eq_ok hinsert
  refine mirrors_of_gained hsound ⟨List.nodup_singleton _, ?_, ?_⟩ hlog
    (fun m n n' hn hn' => of_rel (hcalled m) hn hn') fun ref href => ?_
  · rw [hwiring, Wiring.edges_link hfree]
    exact Finset.subset_union_right
  · have hnew : (⟨source, sink⟩ : Connection) ∉ e.graph.wiring.edges := by
      rw [Wiring.mem_edges, hfree]
      exact nofun
    rw [hwiring, Wiring.edges_link hfree]
    exact (Finset.union_sdiff_cancel_right (Finset.disjoint_singleton_right.2 hnew)).symm
  · obtain ⟨n, hn⟩ := exists_node_of_joined hjoined href
    exact (exists_of_rel (hcalled ref.node) hn).imp fun n' hn' => hn'.1

/-- A connection that is taken away has both of its ends called. -/
theorem mirrors_disconnect (hw : e.graph.wiring.Sound) (ha : e.graph.Anchored)
    {source sink : PortRef} {c : Connection} (h : e.disconnect source sink = .ok (e', c)) :
    e.Mirrors (fun _ s => s) (callsOf false [c]) e' := by
  obtain ⟨rfl, w, hremove, rfl⟩ := disconnect_eq_ok h
  obtain ⟨hc, rfl⟩ := Wiring.remove_eq_ok hremove
  obtain ⟨hcalled, hwiring, hlog⟩ := e.called_rewire false _ ⟨source, sink⟩
  refine mirrors_of_lost hw ⟨List.nodup_singleton _, ?_, ?_⟩ hlog
    (fun m n n' hn hn' => of_rel (hcalled m) hn hn') fun c' hc' ref href => ?_
  · simpa [Wiring.mem_edges] using hc
  · rw [hwiring, Wiring.edges_cut hc]
    exact Finset.erase_eq _ _
  · rw [List.mem_singleton.1 hc'] at href
    obtain ⟨n, hn⟩ := exists_node_of_anchored ha hc href
    exact (exists_of_rel (hcalled ref.node) hn).imp fun n' hn' => hn'.1

/-- An edit of a state calls both ends of the connections that it takes away. -/
theorem mirrors_update (hw : e.graph.wiring.Sound) (ha : e.graph.Anchored) {id : NodeId}
    {edit : σ → σ} {ids : List NodeId} (h : e.update id edit = .ok (e', ids)) :
    ∃ calls, e.Mirrors (fun m s => if m = id then edit s else s) calls e' := by
  obtain ⟨cs, hdrops⟩ := drops_update hw h
  obtain ⟨events, hlog, hevents⟩ := hdrops.announced
  refine ⟨callsOf false cs, mirrors_of_lost hw ⟨hdrops.once, fun c hc => ?_, ?_⟩
    ⟨events, hlog, ?_⟩ (fun m n n' hn hn' => of_rel (hdrops.called m) hn hn')
    fun c hc ref href => ?_⟩
  · exact List.mem_toFinset.2 (hdrops.there c (List.mem_toFinset.1 hc))
  · ext c
    rw [Wiring.edges, List.mem_toFinset, Finset.mem_sdiff, List.mem_toFinset]
    exact (hdrops.kept c).trans (and_congr_left' (List.mem_toFinset).symm)
  · rw [← Event.flatMap_calls_filter, hevents, Event.calls_disconnected]
  · have hc := Wiring.mem_connections.1 (hdrops.there c hc)
    obtain ⟨n, hn⟩ := exists_node_of_anchored ha hc href
    exact (exists_of_rel (hdrops.called ref.node) hn).imp fun n' hn' => hn'.1

/-- The removal of a node calls the other ends of its connections. -/
theorem called_remove {id : NodeId} {cs : List Connection} (h : e.remove id = .ok (e', cs))
    {m : NodeId} {n : Node σ} (hm : m ≠ id) (hn : e.graph.node? m = some n) :
    ∃ n', e'.graph.node? m = some n' ∧
      n'.state = e.registry.calls m n.state (cs.map fun c => ⟨false, c.otherEnd id⟩) := by
  obtain ⟨-, he⟩ := remove_accounts h
  have hafter := called_afterRemoval e.registry id
    ⟨e.graph.nodes.erase id, (e.graph.wiring.removeNode id).1⟩ [] cs
  generalize Graph.afterRemoval e.registry id
    ⟨e.graph.nodes.erase id, (e.graph.wiring.removeNode id).1⟩ [] cs = x at he hafter
  have hcalled := hafter.trans (called_invalidateAll e.registry x.1 x.2.1)
  rw [List.append_nil] at hcalled
  rw [he]
  refine exists_of_rel (hcalled m) ?_
  rw [node?_erase, if_neg (Ne.symm hm), hn]

theorem mirrors_remove (hw : e.graph.wiring.Sound) (ha : e.graph.Anchored) {id : NodeId}
    {cs : List Connection} (h : e.remove id = .ok (e', cs)) :
    e.Mirrors (fun _ s => s) (cs.map fun c => ⟨false, c.otherEnd id⟩) e' := by
  have hgone := node?_remove h
  have hwiring : e'.graph.wiring = (e.graph.wiring.removeNode id).1 := (remove_eq_ok h).1.wiring
  obtain ⟨hcs, he⟩ := remove_accounts h
  have hless := hw.less_removeNode id
  rw [← hwiring, ← hcs] at hless
  have hne : ∀ {m n'}, e'.graph.node? m = some n' → m ≠ id := by
    intro m n' hn' heq
    rw [heq, hgone] at hn'
    cases hn'
  refine ⟨⟨_, congrArg Engine.log he, ?_⟩, fun m n n' hn hn' => ?_,
    ⟨false, fun call hcall => ?_⟩, fun call hcall => ?_, fun port => ?_, fun port n' hn' => ?_⟩
  · exact (flatMap_calls_followed [.nodeRemoved id cs] _ _).trans (List.append_nil _)
  · obtain ⟨n₁, hn₁, hstate⟩ := called_remove h (hne hn') hn
    rw [hn'] at hn₁
    cases hn₁
    exact hstate
  · obtain ⟨c, -, rfl⟩ := List.mem_map.1 hcall
    rfl
  · obtain ⟨c, hc, rfl⟩ := List.mem_map.1 hcall
    have hconnected := Wiring.mem_edges.1 (hless.there (List.mem_toFinset.2 hc))
    obtain ⟨n, hn⟩ := exists_node_of_anchored ha hconnected (otherEnd_eq c id)
    obtain ⟨n', hn', -⟩ := called_remove h (node_otherEnd_ne hw (hcs ▸ hc)) hn
    exact ⟨n', hn'⟩
  · rw [hless.beyond_eq_empty, Finset.card_empty]
    refine List.count_eq_zero.2 fun hmem => ?_
    obtain ⟨c, -, hc⟩ := List.mem_map.1 hmem
    cases hc
  · rw [hless.card_beyond]
    exact count_map_otherEnd (hne hn') fun c hc => hw.ends_of_removed (hcs ▸ hc)

end Engine

/-! ## Steps -/

/-- The outputs that a step of this level writes to this node, with the node type that has
computed them. -/
def Frame.result? (g : Graph σ) (id : NodeId) : Frame σ → Option (Definition σ × Outputs)
  | .run node (.computing k _ d _ (.done (.ok outputs))) =>
    if node = id ∧ (g.ownedNode? id k).any (·.claimed) = true then some (d, outputs) else none
  | _ => none

/-- The state of a node after a step of this level. -/
def Frame.write (g : Graph σ) (id : NodeId) (s : σ) (f : Frame σ) : σ :=
  (f.result? g id).elim s fun x => x.1.applyResult s x.2

variable [NodeState σ]

namespace Engine

open Patchbay.Graph

variable {e e' : Engine σ} {id : NodeId} {top : Frame σ} {rest new : List (Frame σ)}

omit [NodeState σ] in
theorem result?_of_completes {g : Graph σ} {run epoch : Nat} {d : Definition σ}
    {context : Context σ} {outputs : Outputs} {n : Node σ} (hn : g.node? id = some n)
    (hrun : n.run = run) (hclaimed : n.claimed = true) :
    (Frame.run id (.computing run epoch d context (.done (.ok outputs)))).result? g id =
      some (d, outputs) := by
  have howned : g.ownedNode? id run = some n := ownedNode?_eq_some.2 ⟨hn, hrun⟩
  simp [Frame.result?, howned, hclaimed]

omit [NodeState σ] in
theorem completes_of_result? {g : Graph σ} {x : Definition σ × Outputs}
    (h : top.result? g id = some x) : top.Completes g id := by
  unfold Frame.result? at h
  split at h
  · rename_i node run epoch d context outputs
    split at h
    · rename_i howned
      obtain ⟨rfl, howned⟩ := howned
      obtain ⟨n, hn, hclaimed⟩ := (Option.any_eq_true _ _).1 howned
      obtain ⟨hn, hrun⟩ := ownedNode?_eq_some.1 hn
      exact ⟨run, epoch, d, context, outputs, n, rfl, hn, hrun, hclaimed⟩
    · cases h
  · cases h

/-- A step writes nothing but its result to a state. -/
theorem state_step_eq (hw : e.graph.wiring.Sound) {s : Stack σ}
    (hstep : e.step (top :: rest) = some (e', s)) (hturn : Turn e top rest e' new)
    {n n' : Node σ} (hn : e.graph.node? id = some n) (hn' : e'.graph.node? id = some n') :
    n'.state = top.write e.graph id n.state := by
  by_cases hcompletes : top.Completes e.graph id
  · obtain ⟨run, epoch, d, context, outputs, n₁, rfl, hn₁, hrun, hclaimed⟩ := hcompletes
    rw [hn] at hn₁
    cases hn₁
    rw [step_finish hn hrun hclaimed] at hstep
    cases hstep
    rw [(commitOutputs_spec e id n epoch d outputs).2.2.1, node?_complete hw hn] at hn'
    cases hn'
    rw [Frame.write, result?_of_completes hn hrun hclaimed]
    rfl
  · have hnone : top.result? e.graph id = none :=
      Option.eq_none_iff_forall_ne_some.2 fun x hx => hcompletes (completes_of_result? hx)
    rw [Frame.write, hnone]
    exact of_rel (rel_state_turn hturn hcompletes) hn hn'

/-- What is announced between the two engines tells of no calls. -/
def Silent (e e' : Engine σ) : Prop :=
  ∃ events, e'.log = e.log ++ events ∧ events.flatMap Event.calls = []

omit [NodeState σ] in
theorem silent_of_log (h : e'.log = e.log) : e.Silent e' := ⟨[], by simp [h], rfl⟩

omit [NodeState σ] in
theorem silent_block (e : Engine σ) (id : NodeId) (ports : List Port) :
    e.Silent ((e.withGraph (e.graph.block id ports).1).emit (e.graph.block id ports).2) := by
  refine ⟨_, rfl, ?_⟩
  unfold Graph.block
  rw [List.flatMap_append, Event.calls_invalidated]
  rfl

omit [NodeState σ] in
theorem silent_claim (e : Engine σ) (id : NodeId) (run : Nat) : e.Silent (e.claim id run).1 := by
  unfold claim
  split
  · exact silent_of_log rfl
  · split <;> exact silent_of_log rfl

theorem silent_resolve (e : Engine σ) (id : NodeId) (run : Nat) :
    e.Silent (e.resolve id run).1 := by
  unfold resolve
  split
  · exact ⟨_, rfl, rfl⟩
  · split
    · exact silent_of_log rfl
    · split
      · exact e.silent_block id _
      · exact ⟨_, rfl, rfl⟩

theorem silent_commit (e : Engine σ) (id : NodeId) (run epoch : Nat) (d : Definition σ)
    (result : Except Failure Outputs) : e.Silent (e.commit id run epoch d result).1 := by
  unfold commit
  split
  · exact ⟨_, rfl, rfl⟩
  · rename_i n hn
    cases result with
    | ok outputs =>
      refine ⟨_, log_commitOutputs e id n epoch d outputs, ?_⟩
      rw [List.flatMap_append, Event.calls_stateChanges, List.flatMap_cons,
        Event.calls_invalidated]
      rfl
    | error cause =>
      refine ⟨_, rfl, ?_⟩
      rw [List.flatMap_cons, Event.calls_invalidated]
      rfl

theorem silent_stepRun {phase : Phase σ} (h : e.stepRun id phase = some (e', new)) :
    e.Silent e' := by
  cases phase with
  | claiming run =>
    cases h
    exact e.silent_claim id run
  | pulling run todo =>
    cases todo with
    | nil =>
      cases h
      exact e.silent_resolve id run
    | cons p todo =>
      cases h
      exact silent_of_log rfl
  | computing run epoch d context c =>
    cases c with
    | done result =>
      cases h
      exact e.silent_commit id run epoch d result
    | awaitPermit c => cases h
    | generate request c => cases h
  | ended ending => cases h
  | _ =>
    cases h
    exact silent_of_log rfl

theorem silent_step {s s' : Stack σ} (h : e.step s = some (e', s')) : e.Silent e' := by
  unfold step at h
  split at h
  · cases h
  · cases h
    exact silent_of_log rfl
  · cases h
    exact silent_of_log rfl
  · obtain ⟨⟨e₁, new⟩, hstep, he⟩ := Option.map_eq_some_iff.1 h
    cases he
    exact silent_stepRun hstep
  · obtain ⟨new, hstep, he⟩ := Option.map_eq_some_iff.1 h
    cases he
    exact silent_of_log rfl
  · cases h
    exact silent_of_log rfl
  · cases h
    exact silent_of_log rfl

end Engine

/-! ## Moves -/

namespace World

open Patchbay.Engine

variable {r : Registry σ} {w : World σ}

/-- What a move makes of the state of a node before anybody is called: an edit that succeeds and the
end of a computation write to their node, and nothing else does. -/
def write (w : World σ) (m : Move σ) (id : NodeId) (s : σ) : σ :=
  match m with
  | .update node edit => if id = node ∧ (w.engine.update node edit).isOk then edit s else s
  | .step task => ((w.tasks[task]?).bind List.head?).elim s (Frame.write w.engine.graph id s)
  | _ => s

omit [NodeState σ] in
theorem mirrors_of_same [NodeState σ] {write : NodeId → σ → σ} {e' : Engine σ}
    (hlog : e'.log = w.engine.log) (hgraph : e'.graph = w.engine.graph)
    (hwrite : ∀ id s, write id s = s) : w.engine.Mirrors write [] e' := by
  refine mirrors_of_quiet (congrArg Graph.wiring hgraph) (silent_of_log hlog)
    fun m n n' hn hn' => ?_
  rw [hgraph, hn] at hn'
  cases hn'
  rw [hwrite]

theorem mirrors_edit {write : NodeId → σ → σ} {result : Except Error (Engine σ)}
    (hok : ∀ e', result = .ok e' → ∃ calls, w.engine.Mirrors write calls e')
    (herror : ∀ err, result = .error err → ∀ id s, write id s = s) :
    ∃ calls, w.engine.Mirrors write calls (w.edit result).engine := by
  cases result with
  | error err => exact ⟨[], mirrors_of_same rfl rfl (herror err rfl)⟩
  | ok e' =>
    -- The runs that are scheduled become tasks, which is no concern of the graph or the log.
    obtain ⟨calls, h⟩ := hok e' rfl
    exact ⟨calls, h.announced, h.states, h.alike, h.live, h.connects, h.disconnects⟩

theorem write_of_stuck {task : Nat} {s : Stack σ} (hs : w.tasks[task]? = some s)
    (hstuck : w.engine.step s = none) (id : NodeId) (state : σ) :
    w.write (.step task) id state = state := by
  rw [write, hs, Option.bind_some]
  cases s with
  | nil => rfl
  | cons top rest =>
    rw [List.head?_cons, Option.elim_some, Frame.write]
    cases hresult : top.result? w.engine.graph id with
    | none => rfl
    | some x =>
      obtain ⟨run, epoch, d, context, outputs, n, rfl, -⟩ := completes_of_result? hresult
      cases hstuck

theorem mirrors_step (hw : w.engine.graph.wiring.Sound) (task : Nat) :
    w.engine.Mirrors (w.write (.step task)) [] (w.next (.step task)).engine := by
  have hnext : w.next (.step task) = w.stepTask task := rfl
  rw [hnext, stepTask]
  cases hs : w.tasks[task]? with
  | none => exact mirrors_of_same rfl rfl fun id s => by simp [write, hs]
  | some s =>
    cases hstep : w.engine.step s with
    | none =>
      simp only [hstep]
      exact mirrors_of_same rfl rfl (write_of_stuck hs hstep)
    | some x =>
      obtain ⟨e, s'⟩ := x
      obtain ⟨top, rest, new, rfl, rfl, hturn⟩ := turn_of_step hstep
      simp only [hstep]
      have hsilent := silent_step hstep
      have hwiring := wiring_turn hturn
      refine mirrors_of_quiet hwiring hsilent fun id n n' hn hn' => ?_
      have hwrite : w.write (.step task) id n.state = top.write w.engine.graph id n.state := by
        rw [write, hs]
        rfl
      rw [hwrite]
      exact state_step_eq hw hstep hturn hn hn'

/-- Whatever the move is, its calls mirror what it does to the connections. -/
theorem mirrors_next (hw : w.engine.graph.wiring.Sound) (ha : w.engine.graph.Anchored)
    {m : Move σ} (hm : m.isRestore = false) :
    ∃ calls, w.engine.Mirrors (w.write m) calls (w.next m).engine := by
  cases m with
  | create id type =>
    refine mirrors_edit (fun e' he => ?_) fun _ _ _ _ => rfl
    obtain ⟨state, he⟩ := create_eq_ok he
    exact ⟨[], mirrors_createWith he⟩
  | createWith id state =>
    exact mirrors_edit (fun e' he => ⟨[], mirrors_createWith he⟩) fun _ _ _ _ => rfl
  | remove id =>
    refine mirrors_edit (fun e' he => ?_) fun _ _ _ _ => rfl
    obtain ⟨cs, he⟩ := map_eq_ok he
    exact ⟨_, mirrors_remove hw ha he⟩
  | update id edit =>
    refine mirrors_edit (fun e' he => ?_) fun err he m s => ?_
    · obtain ⟨ids, he⟩ := map_eq_ok he
      have hwrite : w.write (.update id edit) = fun m s => if m = id then edit s else s := by
        funext m s
        simp [write, he, Except.isOk, Except.toBool]
      rw [hwrite]
      exact mirrors_update hw ha he
    · cases hx : w.engine.update id edit with
      | ok x =>
        rw [hx] at he
        cases he
      | error err => simp [write, hx, Except.isOk, Except.toBool]
  | markStale id =>
    refine mirrors_edit (fun e' he => ?_) fun _ _ _ _ => rfl
    obtain ⟨ids, he⟩ := map_eq_ok he
    exact ⟨[], mirrors_markStale he⟩
  | connect source sink =>
    refine mirrors_edit (fun e' he => ?_) fun _ _ _ _ => rfl
    obtain ⟨c, he⟩ := map_eq_ok he
    exact ⟨_, mirrors_connect hw he⟩
  | disconnect source sink =>
    refine mirrors_edit (fun e' he => ?_) fun _ _ _ _ => rfl
    obtain ⟨c, he⟩ := map_eq_ok he
    exact ⟨_, mirrors_disconnect hw ha he⟩
  | restore s => cases hm
  | start id => exact ⟨[], mirrors_of_same rfl rfl fun _ _ => rfl⟩
  | wait target => exact ⟨[], mirrors_of_same rfl rfl fun _ _ => rfl⟩
  | deliver task c => exact ⟨[], mirrors_of_same rfl rfl fun _ _ => rfl⟩
  | step task => exact ⟨[], mirrors_step hw task⟩

/-- What a step writes to a state is what the node type makes of outputs. -/
theorem write_step_cases (h : Sound r w.engine w.frames) (task : Nat) {id : NodeId} {n : Node σ}
    (hn : w.engine.graph.node? id = some n) :
    w.write (.step task) id n.state = n.state ∨ ∃ d outputs, r.of? n.state = some d ∧
      w.write (.step task) id n.state = d.applyResult n.state outputs := by
  rw [write]
  cases hs : (w.tasks[task]?).bind List.head? with
  | none => exact .inl rfl
  | some f =>
    rw [Option.elim_some, Frame.write]
    cases hresult : f.result? w.engine.graph id with
    | none => exact .inl rfl
    | some x =>
      obtain ⟨run, epoch, d, context, outputs, n₁, rfl, hn₁, hrun, hclaimed⟩ :=
        completes_of_result? hresult
      rw [hn] at hn₁
      cases hn₁
      obtain ⟨levels, hlevels, hhead⟩ := Option.bind_eq_some_iff.1 hs
      have hmem := mem_frames hlevels (List.mem_of_mem_head? hhead)
      -- The run still has the node, so it is of the type that has computed.
      obtain ⟨-, hd⟩ := h.valid hmem hn hrun hclaimed
      rw [result?_of_completes hn hrun hclaimed] at hresult
      cases hresult
      exact .inr ⟨d, outputs, hd, rfl⟩

/-- What a move writes to a state is another state of its type: the result of the edit, or what the
node type makes of outputs. -/
theorem write_cases (hr : r.Steady) (h : Sound r w.engine w.frames) (m : Move σ) {id : NodeId}
    {n : Node σ} (hn : w.engine.graph.node? id = some n) :
    w.write m id n.state = n.state ∨
      (∃ edit, m = .update id edit ∧ NodeState.typeName (edit n.state) = n.typeName ∧
        w.write m id n.state = edit n.state) ∨
      ∃ d outputs, r.of? n.state = some d ∧
        w.write m id n.state = d.applyResult n.state outputs := by
  cases m with
  | update node edit =>
    rw [write]
    split
    · rename_i hcond
      obtain ⟨rfl, hok⟩ := hcond
      cases he : w.engine.update id edit with
      | error err =>
        rw [he] at hok
        cases hok
      | ok x =>
        obtain ⟨n₁, d, hn₁, -, hcase⟩ := update_eq_ok he
        rw [hn] at hn₁
        cases hn₁
        have htype := hcase.elim (fun h => (hr.equal _ _ h.1).type.symm) (·.1)
        exact .inr (.inl ⟨edit, rfl, htype, rfl⟩)
    · exact .inl rfl
  | step task => exact (write_step_cases h task hn).imp_right .inr
  | _ => exact .inl rfl

/-- A node that is there after the creation of one, and was not there before, is that one. -/
theorem new_createWith {e e' : Engine σ} {k id : NodeId} {state : σ} {n' : Node σ}
    (h : e.createWith k state = .ok e') (hnew : e.graph.node? id = none)
    (hn' : e'.graph.node? id = some n') :
    e'.graph.wiring = e.graph.wiring ∧ id = k ∧ n'.state = state := by
  obtain ⟨-, -, rfl⟩ := createWith_eq_ok h
  rcases Graph.node?_of_inserted hn' with ⟨rfl, rfl⟩ | hn
  · exact ⟨rfl, rfl, rfl⟩
  · rw [hnew] at hn
    cases hn

omit [NodeState σ] in
theorem node?_edit_of_inherits {result : Except Error (Engine σ)} {id : NodeId}
    (h : ∀ e', result = .ok e' → w.engine.Inherits e') (hnew : w.engine.graph.node? id = none)
    (n' : Node σ) : (w.edit result).engine.graph.node? id ≠ some n' := by
  intro hn'
  cases result with
  | error err =>
    rw [show w.engine.graph.node? id = some n' from hn'] at hnew
    cases hnew
  | ok e' =>
    obtain ⟨n, hn, -⟩ := (h e' rfl).nodes id n' hn'
    rw [hnew] at hn
    cases hn

theorem node?_step {id : NodeId} (hnew : w.engine.graph.node? id = none) (task : Nat)
    (n' : Node σ) : (w.next (.step task)).engine.graph.node? id ≠ some n' := by
  intro hn'
  rcases w.takes_step task with heq | ⟨top, rest, e, new, htakes⟩
  · rw [heq, hnew] at hn'
    cases hn'
  · rw [htakes.engine.graph] at hn'
    obtain ⟨n, hn, -⟩ := Graph.exists_of_rel' (rel_turn_of_writes Node.robust_any htakes.turn
      fun _ _ _ _ => trivial) hn'
    rw [hnew] at hn
    cases hn

/-- A node that was not there before is one that the move creates, and nothing else happens. -/
theorem new_next {m : Move σ} (hm : m.isRestore = false) {id : NodeId} {n' : Node σ}
    (hnew : w.engine.graph.node? id = none)
    (hn' : (w.next m).engine.graph.node? id = some n') :
    (w.next m).engine.graph.wiring = w.engine.graph.wiring ∧
      ((∃ type, m = .create id type ∧ w.engine.registry.defaultState type = .ok n'.state) ∨
        m = .createWith id n'.state) := by
  have hsame : w.engine.graph.node? id ≠ some n' := fun hn => by
    rw [hnew] at hn
    cases hn
  cases m with
  | create k type =>
    cases he : w.engine.create k type with
    | error err =>
      rw [next, he] at hn'
      exact absurd hn' hsame
    | ok e' =>
      rw [next, he] at hn' ⊢
      obtain ⟨state, hstate, he⟩ := create_eq_defaultState he
      obtain ⟨hwiring, rfl, rfl⟩ := new_createWith he hnew hn'
      exact ⟨hwiring, .inl ⟨type, rfl, hstate⟩⟩
  | createWith k state =>
    cases he : w.engine.createWith k state with
    | error err =>
      rw [next, he] at hn'
      exact absurd hn' hsame
    | ok e' =>
      rw [next, he] at hn' ⊢
      obtain ⟨hwiring, rfl, rfl⟩ := new_createWith he hnew hn'
      exact ⟨hwiring, .inr rfl⟩
  | remove k =>
    refine absurd hn' (node?_edit_of_inherits (fun e' he => ?_) hnew n')
    obtain ⟨cs, he⟩ := map_eq_ok he
    exact inherits_remove he
  | update k edit =>
    refine absurd hn' (node?_edit_of_inherits (fun e' he => ?_) hnew n')
    obtain ⟨ids, he⟩ := map_eq_ok he
    exact inherits_update he
  | markStale k =>
    refine absurd hn' (node?_edit_of_inherits (fun e' he => ?_) hnew n')
    obtain ⟨ids, he⟩ := map_eq_ok he
    exact inherits_markStale he
  | connect source sink =>
    refine absurd hn' (node?_edit_of_inherits (fun e' he => ?_) hnew n')
    obtain ⟨c, he⟩ := map_eq_ok he
    exact inherits_connect he
  | disconnect source sink =>
    refine absurd hn' (node?_edit_of_inherits (fun e' he => ?_) hnew n')
    obtain ⟨c, he⟩ := map_eq_ok he
    exact inherits_disconnect he
  | restore s => cases hm
  | start k => exact absurd hn' hsame
  | wait target => exact absurd hn' hsame
  | deliver task c => exact absurd hn' hsame
  | step task => exact absurd hn' (node?_step hnew task n')

end World

end Patchbay
