import Mathlib.Data.List.Induction
import Patchbay.Proofs.Invariants
import Patchbay.Proofs.Ownership
import Patchbay.Proofs.Reports

/-!
# The log is a faithful account

`Announced` says what a list of announcements has to be for a host that follows them to know what
happened between two graphs. Every operation on a graph and every step of a run announces just
that, so a mirror of the log shows the graph as it is.

What is proved here:
  1. `announced_remove`, `announced_update`, `announced_rewire` and so on: what each operation
     announces.
  2. `announced_step`: what each step of a task announces.
  3. `World.log_faithful`: as long as nothing is restored, the log tells the graph.
-/

namespace Patchbay

open Relation

variable {σ : Type} [NodeState σ]

/-- The connections that an announcement reports gone. -/
def Event.lost : Event → List Connection
  | .nodeRemoved _ cs => cs
  | .disconnected c => [c]
  | _ => []

def Event.flipped : Event → List NodeId
  | .nodesInvalidated ids => ids
  | _ => []

/-- The mirror has the nodes of the graph with their types and flags, and its connections. -/
structure Mirror.Shows (M : Mirror) (g : Graph σ) : Prop where
  nodes : ∀ id, M.nodes.get? id = g.face? id
  connections : ∀ c, c ∈ M.connections ↔ c ∈ g.wiring.connections

/-- Announcements that tell what happened between two graphs. -/
structure Graph.Announced (g : Graph σ) (events : List Event) (g' : Graph σ) : Prop where
  /-- A mirror of the first graph becomes one of the second. -/
  mirror : ∀ M : Mirror, M.Shows g → (M.applyAll events).Shows g'
  /-- What is reported gone was there, and it is reported once. -/
  lost : ∀ c ∈ events.flatMap Event.lost, c ∈ g.wiring.connections
  lost_once : (events.flatMap Event.lost).Nodup
  /-- What is reported stale was fresh and is stale now, and it is reported once. -/
  flipped : ∀ id ∈ events.flatMap Event.flipped, g.isFresh id = true ∧
    ∃ n', g'.node? id = some n' ∧ n'.stale = true
  flipped_once : (events.flatMap Event.flipped).Nodup
  /-- A state that was exchanged for one that does not equal it is reported. -/
  states : ∀ id n n', g.node? id = some n → g'.node? id = some n' →
    Alike n.state n'.state ∨ .nodeStateChanged id ∈ events

namespace Event

theorem lost_stateChanges (ids : List NodeId) : (stateChanges ids).flatMap lost = [] := by
  simp [stateChanges, List.flatMap_map, lost]

theorem flipped_stateChanges (ids : List NodeId) : (stateChanges ids).flatMap flipped = [] := by
  simp [stateChanges, List.flatMap_map, flipped]

theorem lost_invalidated (ids : List NodeId) : (invalidated ids).flatMap lost = [] := by
  cases ids <;> rfl

theorem flipped_invalidated (ids : List NodeId) : (invalidated ids).flatMap flipped = ids := by
  cases ids <;> simp [invalidated, flipped]

theorem lost_disconnected (cs : List Connection) :
    (cs.map Event.disconnected).flatMap lost = cs := by
  simp [List.flatMap_map, lost]

theorem flipped_disconnected (cs : List Connection) :
    (cs.map Event.disconnected).flatMap flipped = [] := by
  simp [List.flatMap_map, flipped]

theorem mem_stateChanges {ids : List NodeId} {id : NodeId} :
    .nodeStateChanged id ∈ stateChanges ids ↔ id ∈ ids := by
  simp [stateChanges]

end Event

namespace Graph

variable {r : Registry σ} {g g₀ g₁ g' : Graph σ}

/-- Announcements that begin with what was changed outright, with the second graph as the result,
and go on with what followed of the states and the flags. -/
theorem announced_of_told (g₀ : Graph σ) (opening : List Event) (changed : List NodeId)
    {a flips : List NodeId}
    (hmirror : ∀ M : Mirror, M.Shows g → (M.applyAll opening).Shows g₀)
    (hlost : ∀ c ∈ opening.flatMap Event.lost, c ∈ g.wiring.connections)
    (honce : (opening.flatMap Event.lost).Nodup)
    (hquiet : opening.flatMap Event.flipped = [])
    (hstates : ∀ id n n₀, g.node? id = some n → g₀.node? id = some n₀ →
      Alike n.state n₀.state ∨ .nodeStateChanged id ∈ opening)
    (hfresh : ∀ m ∈ flips, g.isFresh m = true)
    (htold : Told a flips g₀ g') (hwiring : g'.wiring = g₀.wiring)
    (ha : ∀ m ∈ a, m ∈ changed ∨ .nodeStateChanged m ∈ opening) :
    g.Announced (opening ++ Event.stateChanges changed ++ Event.invalidated flips) g' where
  mirror M hM := by
    obtain ⟨hnodes, hconns⟩ := hmirror M hM
    rw [Mirror.applyAll_append, Mirror.applyAll_append, Mirror.applyAll_stateChanges,
      Mirror.applyAll_invalidated]
    refine ⟨fun id => ?_, fun c => ?_⟩
    · rw [Mirror.get?_flagAll, hnodes, htold.face]
    · rw [Mirror.connections_flagAll, hconns, hwiring]
  lost := by simpa [Event.lost_stateChanges, Event.lost_invalidated] using hlost
  lost_once := by simpa [Event.lost_stateChanges, Event.lost_invalidated] using honce
  flipped id hid := by
    rw [List.flatMap_append, List.flatMap_append, hquiet, Event.flipped_stateChanges,
      Event.flipped_invalidated] at hid
    obtain ⟨n₀, hn₀, -⟩ := Graph.isFresh_iff.1 (htold.fresh id hid)
    obtain ⟨n', hn'⟩ := htold.exists_node hn₀
    exact ⟨hfresh id hid, n', hn', (htold.stale_iff hn₀ hn').2 (.inr hid)⟩
  flipped_once := by
    rw [List.flatMap_append, List.flatMap_append, hquiet, Event.flipped_stateChanges,
      Event.flipped_invalidated]
    exact htold.nodup
  states id n n' hn hn' := by
    obtain ⟨n₀, hn₀⟩ := htold.exists_before hn'
    have hopening : .nodeStateChanged id ∈ opening → .nodeStateChanged id ∈
        opening ++ Event.stateChanges changed ++ Event.invalidated flips :=
      fun h => List.mem_append_left _ (List.mem_append_left _ h)
    rcases hstates id n n₀ hn hn₀ with hs | hs
    · rcases htold.state id n₀ n' hn₀ hn' with hs' | hm
      · exact .inl (hs.trans hs')
      · rcases ha id hm with hm | hm
        · refine .inr (List.mem_append_left _ (List.mem_append_right _ ?_))
          exact Event.mem_stateChanges.2 hm
        · exact .inr (hopening hm)
    · exact .inr (hopening hs)

theorem announced_of_told_self (changed : List NodeId) {a flips : List NodeId}
    (htold : Told a flips g g')
    (hwiring : g'.wiring = g.wiring) (ha : a ⊆ changed) :
    g.Announced (Event.stateChanges changed ++ Event.invalidated flips) g' :=
  announced_of_told g [] changed (fun _ hM => hM) nofun .nil rfl
    (fun id n n₀ hn hn₀ => by
      rw [hn] at hn₀
      cases hn₀
      exact .inl (.refl _))
    htold.fresh htold hwiring fun m hm => .inl (ha hm)

/-- Nothing is announced of a change that touches neither states nor flags. -/
theorem announced_nil (htold : Told [] [] g g') (hwiring : g'.wiring = g.wiring) :
    g.Announced [] g' :=
  announced_of_told_self [] htold hwiring (List.Subset.refl _)

theorem Announced.refl (g : Graph σ) : g.Announced [] g := announced_nil (.refl g) rfl

/-- One more announcement, which says nothing of nodes, connections, flags or states. -/
theorem Announced.concat {events : List Event} (h : g.Announced events g') (event : Event)
    (hmirror : ∀ M : Mirror, M.apply event = M) (hlost : event.lost = [])
    (hflipped : event.flipped = []) : g.Announced (events ++ [event]) g' where
  mirror M hM := by
    rw [Mirror.applyAll_append]
    show ((M.applyAll events).apply event).Shows g'
    rw [hmirror]
    exact h.mirror M hM
  lost := by simpa [hlost] using h.lost
  lost_once := by simpa [hlost] using h.lost_once
  flipped := by simpa [hflipped] using h.flipped
  flipped_once := by simpa [hflipped] using h.flipped_once
  states id n n' hn hn' := (h.states id n n' hn hn').imp_right (List.mem_append_left _)

end Graph

namespace Engine

open Patchbay.Graph

variable {e e' : Engine σ}

/-- What was appended to the log tells what happened to the graph. -/
def Announces (e e' : Engine σ) : Prop :=
  ∃ events, e'.log = e.log ++ events ∧ e.graph.Announced events e'.graph

theorem announces_of_eq (hlog : e'.log = e.log) (hgraph : e'.graph = e.graph) :
    e.Announces e' := by
  refine ⟨[], by rw [hlog, List.append_nil], ?_⟩
  rw [hgraph]
  exact .refl _

/-- A change of one node that touches neither its face nor its state. -/
theorem announces_modify {id : NodeId} {f : Node σ → Node σ}
    (hface : ∀ n, e.graph.node? id = some n → (f n).face = n.face)
    (hstate : ∀ n, e.graph.node? id = some n → Alike n.state (f n).state) :
    e.Announces (e.withGraph (e.graph.modify id f)) :=
  ⟨[], (List.append_nil _).symm,
    announced_nil (.modify hface fun n hn => .inl (hstate n hn)) rfl⟩

/-! ## Operations -/

theorem announces_createWith {id : NodeId} {state : σ} (h : e.createWith id state = .ok e') :
    e.Announces e' := by
  obtain ⟨-, hnew, rfl⟩ := createWith_eq_ok h
  refine ⟨_, rfl, ?_⟩
  refine announced_of_told (e.graph.inserted id state)
    [.nodeCreated id (NodeState.typeName state)] [] (fun M hM => ?_) nofun .nil rfl
    (fun m n n₀ hn hn₀ => ?_) (List.forall_mem_nil _) (.refl _) rfl nofun
  · refine ⟨fun k => ?_, hM.connections⟩
    show (M.nodes.insert id ⟨NodeState.typeName state, true⟩).get? k = _
    simp only [Dict.get?_insert, Std.compare_eq_iff_eq, inserted, face?, node?_insert]
    split
    · rfl
    · exact hM.nodes k
  · rw [node?_inserted hnew hn] at hn₀
    cases hn₀
    exact .inl (.refl _)

omit [NodeState σ] in
theorem isFresh_of_erase {g : Graph σ} {w : Wiring} {id m : NodeId}
    (h : Graph.isFresh ⟨g.nodes.erase id, w⟩ m = true) : g.isFresh m = true := by
  obtain ⟨n, hn, hs⟩ := Graph.isFresh_iff.1 h
  rw [node?_erase] at hn
  split at hn
  · cases hn
  · exact Graph.isFresh_iff.2 ⟨n, hn, hs⟩

theorem announces_remove (hr : e.registry.Steady) (hw : e.graph.wiring.Sound) {id : NodeId}
    {cs : List Connection} (h : e.remove id = .ok (e', cs)) : e.Announces e' := by
  obtain ⟨rfl, rfl⟩ := remove_accounts h
  obtain ⟨hsound, hmem⟩ := hw.removeNode id
  obtain ⟨hfollows, -⟩ := follows_afterRemoval hr id
    ⟨e.graph.nodes.erase id, (e.graph.wiring.removeNode id).1⟩ hsound []
    (e.graph.wiring.removeNode id).2
  have hall := (told_afterRemoval hr id
    ⟨e.graph.nodes.erase id, (e.graph.wiring.removeNode id).1⟩ hsound []
    (e.graph.wiring.removeNode id).2).trans (told_invalidateAll _
      (Graph.afterRemoval e.registry id
        ⟨e.graph.nodes.erase id, (e.graph.wiring.removeNode id).1⟩ []
        (e.graph.wiring.removeNode id).2).2.1)
  have hsound' : (Graph.afterRemoval e.registry id
      ⟨e.graph.nodes.erase id, (e.graph.wiring.removeNode id).1⟩ []
      (e.graph.wiring.removeNode id).2).1.wiring.Sound := by
    rw [hfollows.wiring]
    exact hsound
  refine ⟨_, rfl, announced_of_told _ [.nodeRemoved id (e.graph.wiring.removeNode id).2] _
    (fun M hM => ⟨fun k => ?_, fun c => ?_⟩) (fun c hc => ?_) ?_ rfl (fun m n n₀ hn hn₀ => ?_)
    (fun m hm => isFresh_of_erase (hall.fresh m hm)) hall ?_ fun m hm => .inl ?_⟩
  · show (M.nodes.erase id).get? k = face? ⟨e.graph.nodes.erase id, _⟩ k
    rw [face?, node?_erase, Dict.get?_erase]
    simp only [Std.compare_eq_iff_eq]
    split
    · rfl
    · exact hM.nodes k
  · show c ∈ M.connections.filter _ ↔ _
    rw [List.mem_filter, hM.connections, Wiring.mem_connections, Wiring.mem_connections, hmem]
    simp only [Bool.not_eq_true', List.contains_eq_mem, decide_eq_false_iff_not,
      Wiring.mem_removed hw]
    tauto
  · rw [List.flatMap_singleton] at hc
    exact Wiring.mem_connections.2 ((Wiring.mem_removed hw).1 hc).1
  · rw [List.flatMap_singleton]
    exact hw.nodup_around id
  · rw [node?_erase] at hn₀
    split at hn₀
    · cases hn₀
    · rw [hn] at hn₀
      cases hn₀
      exact .inl (.refl _)
  · exact (follows_invalidateAll e.registry _ hsound' _).wiring.trans hfollows.wiring
  · exact (List.mem_append.1 hm).resolve_right List.not_mem_nil

theorem announces_markStale (hw : e.graph.wiring.Sound) {id : NodeId} {ids : List NodeId}
    (h : e.markStale id = .ok (e', ids)) : e.Announces e' := by
  obtain ⟨rfl, rfl⟩ := markStale_accounts h
  obtain ⟨visits, hv⟩ := visited_invalidate e.graph hw id
  exact ⟨_, rfl, announced_of_told_self [] (told_invalidate e.graph id) hv.wiring
    (List.nil_subset _)⟩

/-- A change of one connection is reported first, then what followed of it. -/
theorem announces_rewire (hr : e.registry.Steady) (connected : Bool) {w : Wiring}
    {c : Connection} (hw : w.Sound)
    (hmirror : ∀ M : Mirror, M.Shows e.graph →
      (M.apply (if connected then .connected c else .disconnected c)).Shows ⟨e.graph.nodes, w⟩)
    (hlost : connected = false → c ∈ e.graph.wiring.connections) :
    e.Announces (e.rewire connected w c) := by
  have htold := told_afterEdge hr connected ⟨e.graph.nodes, w⟩ c
  have hfollows := follows_afterEdge hr connected ⟨e.graph.nodes, w⟩ hw c
  refine ⟨_, rfl, announced_of_told _
    [if connected then .connected c else .disconnected c] _ hmirror (fun c' hc' => ?_)
    ?_ ?_ (fun m n n₀ hn hn₀ => ?_) htold.fresh htold hfollows.wiring fun m hm => .inl hm⟩
  · cases connected with
    | true => cases hc'
    | false =>
      rw [List.mem_singleton.1 hc']
      exact hlost rfl
  · cases connected <;> simp [Event.lost]
  · cases connected <;> rfl
  · rw [show e.graph.node? m = some n₀ from hn₀] at hn
    cases hn
    exact .inl (.refl _)

theorem announces_connect (hr : e.registry.Steady) (hw : e.graph.wiring.Sound)
    {source sink : PortRef} {c : Connection} (h : e.connect source sink = .ok (e', c)) :
    e.Announces e' := by
  obtain ⟨-, -, w, hinsert, rfl⟩ := connect_eq_ok h
  have hmirror : ∀ M : Mirror, M.Shows e.graph →
      (M.apply (.connected c)).Shows ⟨e.graph.nodes, w⟩ := by
    intro M hM
    obtain ⟨hfree, -, -, rfl⟩ := Wiring.insert_eq_ok hinsert
    refine ⟨hM.nodes, fun c' => ?_⟩
    show c' ∈ c :: M.connections ↔ c' ∈ (e.graph.wiring.link c).connections
    rw [List.mem_cons, hM.connections, Wiring.mem_connections, Wiring.mem_connections,
      Wiring.producerOf_link]
    by_cases hs : c.sink = c'.sink
    · rw [if_pos hs, ← hs, hfree]
      constructor
      · rintro (rfl | hnone)
        · rfl
        · cases hnone
      · exact fun hsource => .inl (Connection.ext (Option.some.inj hsource).symm hs.symm)
    · rw [if_neg hs, or_iff_right]
      exact fun he => hs (by rw [he])
  have hrewire := announces_rewire hr true (hw.insert hinsert) hmirror fun hfalse => by cases hfalse
  split
  · exact hrewire
  · exact hrewire

theorem announces_disconnect (hr : e.registry.Steady) (hw : e.graph.wiring.Sound)
    {source sink : PortRef} {c : Connection} (h : e.disconnect source sink = .ok (e', c)) :
    e.Announces e' := by
  obtain ⟨rfl, w, hremove, rfl⟩ := disconnect_eq_ok h
  obtain ⟨hc, hcut⟩ := Wiring.remove_eq_ok hremove
  refine announces_rewire hr false (hw.remove hremove) (fun M hM => ⟨hM.nodes, fun c' => ?_⟩)
    fun _ => Wiring.mem_connections.2 hc
  show c' ∈ M.connections.filter (· != ⟨source, sink⟩) ↔ c' ∈ w.connections
  rw [List.mem_filter, hM.connections, Wiring.mem_connections, Wiring.mem_connections, hcut,
    Wiring.producerOf_cut_iff hc, bne_iff_ne]

omit [NodeState σ] in
/-- What a node loses by a new state is one of its connections. -/
theorem mem_of_lostEdges {g g' : Graph σ} (hw : g.wiring.Sound) (hsame : g'.wiring = g.wiring)
    {d : Definition σ} {id : NodeId} {old new : σ} {c : Connection}
    (hc : c ∈ g'.lostEdges d id old new) : c ∈ g.wiring.connections := by
  rw [lostEdges, List.mem_filter, List.mem_append, Wiring.mem_incoming, Wiring.mem_outgoing,
    hsame, hw.mirrored] at hc
  exact Wiring.mem_connections.2 (hc.1.elim And.left And.left)

/-- A replaced state is reported first, then the connections that its node lost, then what
followed of both. -/
theorem announces_replaceState (hr : e.registry.Steady) (hw : e.graph.wiring.Sound)
    {id : NodeId} {n : Node σ} {d : Definition σ} {state : σ} {ids : List NodeId}
    (hn : e.graph.node? id = some n) (ht : NodeState.typeName state = n.typeName)
    (h : e.replaceState id n d state = .ok (e', ids)) : e.Announces e' := by
  obtain ⟨g, changed, others, hdrop, rfl, rfl⟩ := replaceState_accounts h
  have hfollow := follows_invalidate e.registry (e.graph.setState id state) hw id
  have hsound : ((e.graph.setState id state).invalidate id).1.wiring.Sound := by
    rw [hfollow.wiring]
    exact hw
  obtain ⟨-, -, -, hmem⟩ := dropEdges_eq_ok hr hsound hdrop
  have hset : Told [id] [] e.graph (e.graph.setState id state) := by
    refine .modify (fun n' hn' => ?_) fun _ _ => .inr List.mem_cons_self
    rw [hn] at hn'
    cases hn'
    exact congrArg (Face.mk · n.stale) ht
  obtain ⟨hdropped, -⟩ := told_dropEdges hr hdrop
  have hall := (hset.trans (told_invalidate _ id)).trans hdropped
  have hnodes : Told _ _ ⟨e.graph.nodes, g.wiring⟩ g :=
    ⟨hall.nodup, hall.fresh, hall.face, hall.state⟩
  have hsame : ((e.graph.setState id state).invalidate id).1.wiring = e.graph.wiring :=
    hfollow.wiring
  refine ⟨_, rfl, announced_of_told ⟨e.graph.nodes, g.wiring⟩
    (.nodeStateChanged id :: List.map Event.disconnected
      (((e.graph.setState id state).invalidate id).1.lostEdges d id n.state state)) _
    (fun M hM => ?_) (fun c hc => ?_) ?_ ?_ (fun m n n₀ hn hn₀ => ?_) hall.fresh hnodes rfl
    fun m hm => ?_⟩
  · obtain ⟨hnodes, hconns⟩ := M.applyAll_disconnected
      (((e.graph.setState id state).invalidate id).1.lostEdges d id n.state state)
    refine ⟨fun k => ?_, fun c => (hconns c).trans ?_⟩
    · exact (congrArg (Dict.get? · k) hnodes).trans (hM.nodes k)
    · rw [hM.connections, Wiring.mem_connections, Wiring.mem_connections, hmem, hsame]
  · rw [List.flatMap_cons, Event.lost_disconnected] at hc
    exact mem_of_lostEdges hw hsame hc
  · rw [List.flatMap_cons, Event.lost_disconnected]
    exact (hsound.nodup_around id).filter _
  · rw [List.flatMap_cons, Event.flipped_disconnected]
    rfl
  · rw [show e.graph.node? m = some n₀ from hn₀] at hn
    cases hn
    exact .inl (.refl _)
  · simp only [List.append_nil, List.mem_append, List.mem_cons, List.not_mem_nil,
      or_false] at hm ⊢
    rcases hm with rfl | rfl | hm
    · exact .inr (.inl rfl)
    · exact .inr (.inl rfl)
    · exact .inl hm

theorem announces_update (hr : e.registry.Steady) (hw : e.graph.wiring.Sound) {id : NodeId}
    {edit : σ → σ} {ids : List NodeId} (h : e.update id edit = .ok (e', ids)) :
    e.Announces e' := by
  obtain ⟨n, d, hnode, -, ⟨hequal, rfl⟩ | ⟨htype, hreplace⟩⟩ := update_eq_ok h
  · refine announces_modify (fun n' hn' => ?_) fun n' hn' => ?_
    all_goals
      rw [hnode] at hn'
      cases hn'
    · exact congrArg (Face.mk · n.stale) (hr.equal _ _ hequal).type.symm
    · exact .inr (BEq.symm hequal)
  · exact announces_replaceState hr hw hnode htype hreplace

/-! ## Steps of a run -/

theorem announces_claim (e : Engine σ) (id : NodeId) (run : Nat) :
    e.Announces (e.claim id run).1 := by
  unfold claim
  split
  · exact announces_of_eq rfl rfl
  · split
    · exact announces_of_eq rfl rfl
    · exact announces_modify (fun _ _ => rfl) fun _ _ => .refl _

theorem announces_release (e : Engine σ) (id : NodeId) (run : Nat) :
    e.Announces (e.release id run) := by
  refine announces_modify (fun n _ => ?_) fun n _ => ?_
  all_goals
    unfold Node.released
    split
  · rfl
  · rfl
  · exact .refl _
  · exact .refl _

/-- An announcement alone, which says nothing of nodes, connections, flags or states. -/
theorem announces_emit {event : Event} {g : Graph σ} (h : e.graph.Announced [] g)
    (hmirror : ∀ M : Mirror, M.apply event = M) (hlost : event.lost = [])
    (hflipped : event.flipped = []) : e.Announces ((e.withGraph g).emit [event]) :=
  ⟨[event], rfl, h.concat event hmirror hlost hflipped⟩

/-- Blocking flips the blocked node and what depends on it, and all that is reported; the nodes
that are stopped afterwards are stale by then. -/
theorem announces_block (hw : e.graph.wiring.Sound) (hclosed : e.graph.Closed) (id : NodeId)
    (ports : List Port) :
    e.Announces ((e.withGraph (e.graph.block id ports).1).emit (e.graph.block id ports).2) := by
  have hset : Told [] [] e.graph (e.graph.modify id (·.blocked ports)) :=
    .modify (fun _ _ => rfl) fun _ _ => .inl (.refl _)
  obtain ⟨visits, hv⟩ := visited_invalidate (e.graph.modify id (·.blocked ports)) hw id
  have hclosed' : (e.graph.modify id (·.blocked ports)).Closed := by
    intro u v huv hfresh
    have hsame := isFresh_modify e.graph id (f := (·.blocked ports)) fun _ => rfl
    rw [hsame] at hfresh ⊢
    exact hclosed u v huv hfresh
  have hsound : ((e.graph.modify id (·.blocked ports)).invalidate id).1.wiring.Sound := by
    rw [hv.wiring]
    exact hw
  obtain ⟨S, hhalted, -, hbelow⟩ := halted_blockBelow _ hsound id
  have hstale : ∀ m ∈ S,
      ((e.graph.modify id (·.blocked ports)).invalidate id).1.isFresh m = false := by
    intro m hm
    have hself := (hclosed'.visited hv).transGen (hbelow m hm)
    cases hfresh : ((e.graph.modify id (·.blocked ports)).invalidate id).1.isFresh m with
    | false => rfl
    | true =>
      obtain ⟨n', hn', hs⟩ := Graph.isFresh_iff.1 (hself hfresh)
      rw [hv.node?, Option.map_eq_some_iff] at hn'
      obtain ⟨n, -, rfl⟩ := hn'
      rw [Node.stale_aged (hv.starts id (by simp))] at hs
      cases hs
  have hall : Told [] ((e.graph.modify id (·.blocked ports)).invalidate id).2 e.graph
      (e.graph.block id ports).1 := by
    have h := (hset.trans (told_invalidate _ id)).trans (told_halted hhalted hstale)
    simp only [List.append_nil, List.nil_append] at h
    exact h
  have hannounced := announced_of_told_self [] hall
    (hhalted.wiring.trans hv.wiring) (List.nil_subset _)
  refine ⟨_, rfl, hannounced.concat (.nodesBlocked _) ?_ rfl rfl⟩
  exact fun _ => rfl

theorem announces_fail (hw : e.graph.wiring.Sound) (id : NodeId) (err : Error) :
    e.Announces (e.commitFailure id err) := by
  have hset : Told [] [] e.graph (e.graph.modify id (·.failed err.message)) :=
    .modify (fun _ _ => rfl) fun _ _ => .inl (.refl _)
  obtain ⟨visits, hv⟩ := visited_invalidate (e.graph.modify id (·.failed err.message)) hw id
  have hall := hset.trans (told_invalidate _ id)
  exact ⟨_, rfl, announced_of_told _ [.nodeFailed id err.message] []
    (fun M hM => hM) nofun .nil rfl (fun m n n₀ hn hn₀ => by
      rw [hn] at hn₀
      cases hn₀
      exact .inl (.refl _))
    hall.fresh hall hv.wiring nofun⟩

omit [NodeState σ] in
theorem log_scheduleAll (e : Engine σ) (ids : List NodeId) :
    (e.scheduleAll ids).log = e.log := by
  induction ids generalizing e with
  | nil => rfl
  | cons id rest ih => exact ih (e.schedule id)

/-- What follows the writing of outputs. The node itself is not concerned, because it does not
depend on itself. -/
theorem told_complete {g : Graph σ} (hw : g.wiring.Sound) (p : Policy) (id : NodeId)
    (n : Node σ) (state : σ) (outputs : Outputs) (upToDate : Bool) :
    Told [] (g.complete p id n state outputs upToDate).2
        (g.modify id (·.completed state outputs upToDate))
        (g.complete p id n state outputs upToDate).1 ∧
      (g.complete p id n state outputs upToDate).1.wiring = g.wiring ∧
      id ∉ (g.complete p id n state outputs upToDate).2 := by
  unfold complete
  split
  · have htold := told_invalidateAll (g.modify id (·.completed state outputs upToDate))
      (g.wiring.downstream id)
    obtain ⟨visits, hv⟩ := visited_invalidateAll
      (g.modify id (·.completed state outputs upToDate)) hw (g.wiring.downstream id)
    refine ⟨htold, hv.wiring, fun hid => ?_⟩
    obtain ⟨u, hu, hpath⟩ := hv.reach id (htold.visits_pos hv hid)
    exact hw.acyclic.transGen.irrefl.irrefl id
      (TransGen.head' (hw.mem_downstream.1 hu) hpath)
  · exact ⟨.refl _, rfl, List.not_mem_nil⟩

theorem log_commitOutputs (e : Engine σ) (id : NodeId) (n : Node σ) (epoch : Nat)
    (d : Definition σ) (outputs : Outputs) :
    (e.commitOutputs id n epoch d outputs).log = e.log ++
      (Event.stateChanges (if d.applyResult n.state outputs == n.state then [] else [id]) ++
        .nodeCompleted id outputs (n.epoch == epoch) ::
        Event.invalidated (e.graph.complete e.policy id n (d.applyResult n.state outputs) outputs
          (n.epoch == epoch)).2) :=
  log_scheduleAll _ _

/-- A result is reported, with the change of state that it brought about, before what followed of
it. -/
theorem announces_finish (hr : e.registry.Steady) (hw : e.graph.wiring.Sound) {id : NodeId}
    {n : Node σ} {epoch : Nat} {d : Definition σ} {outputs : Outputs}
    (hn : e.graph.node? id = some n) (hd : e.registry.of? n.state = some d) :
    e.Announces (e.commitOutputs id n epoch d outputs) := by
  have htype := (hr.result d n.state outputs hd).type
  obtain ⟨htold, hwiring, hid⟩ := told_complete hw e.policy id n (d.applyResult n.state outputs)
    outputs (n.epoch == epoch)
  have hgraph := (commitOutputs_spec e id n epoch d outputs).2.2.1
  refine ⟨_, log_commitOutputs e id n epoch d outputs, ?_⟩
  rw [hgraph]
  have hannounced := announced_of_told _
    (Event.stateChanges (if d.applyResult n.state outputs == n.state then [] else [id]) ++
      [.nodeCompleted id outputs (n.epoch == epoch)]) []
    (fun M (hM : M.Shows e.graph) => ?_) ?_ ?_ ?_ (fun m n' n₀ hn' hn₀ => ?_) (fun m hm => ?_)
    htold hwiring nofun
  · simpa [Event.stateChanges] using hannounced
  · rw [Mirror.applyAll_append, Mirror.applyAll_stateChanges]
    show (if (n.epoch == epoch) = true then M.flag false id else M).Shows _
    refine ⟨fun k => ?_, fun c => ?_⟩
    · rw [face?, node?_modify]
      cases n.epoch == epoch <;> by_cases hk : id = k
      · subst hk
        simp [hM.nodes, face?, hn, Node.face, Node.completed, Node.typeName, htype]
      · simp [hM.nodes, face?, hk]
      · subst hk
        simp [Mirror.get?_flag, hM.nodes, face?, hn, Node.face, Node.completed, Node.typeName,
          htype]
      · simp [Mirror.get?_flag, hM.nodes, face?, hk]
    · cases n.epoch == epoch <;> exact hM.connections c
  · simp [Event.lost_stateChanges, Event.lost]
  · simp [Event.lost_stateChanges, Event.lost]
  · simp [Event.flipped_stateChanges, Event.flipped]
  · rw [node?_modify, hn'] at hn₀
    split at hn₀
    · rename_i hm
      subst hm
      rw [hn] at hn'
      cases hn'
      cases hn₀
      cases hs : d.applyResult n.state outputs == n.state with
      | true => exact .inl (.inr (BEq.symm hs))
      | false => exact .inr (List.mem_append_left _ (Event.mem_stateChanges.2 (by simp)))
    · cases hn₀
      exact .inl (.refl _)
  · have hne : id ≠ m := fun he => hid (he ▸ hm)
    obtain ⟨n₀, hn₀, hs⟩ := Graph.isFresh_iff.1 (htold.fresh m hm)
    rw [node?_modify, if_neg hne] at hn₀
    exact Graph.isFresh_iff.2 ⟨n₀, hn₀, hs⟩

theorem announces_resolve (hw : e.graph.wiring.Sound) (hclosed : e.graph.Closed) (id : NodeId)
    (run : Nat) : e.Announces (e.resolve id run).1 := by
  unfold resolve
  split
  · exact announces_emit (.refl _) (fun _ => rfl) rfl rfl
  · split
    · exact announces_of_eq rfl rfl
    · split
      · exact announces_block hw hclosed id _
      · refine announces_emit (announced_nil (.modify ?_ ?_) rfl) (fun _ => rfl) rfl rfl
        · exact fun _ _ => rfl
        · exact fun _ _ => .inl (.refl _)

theorem announces_commit (hr : e.registry.Steady) (hw : e.graph.wiring.Sound) {id : NodeId}
    {run epoch : Nat} {d : Definition σ} {result : Except Failure Outputs}
    (hd : ∀ n, e.graph.node? id = some n → n.run = run → n.claimed = true →
      e.registry.of? n.state = some d) :
    e.Announces (e.commit id run epoch d result).1 := by
  unfold commit
  split
  · exact announces_emit (.refl _) (fun _ => rfl) rfl rfl
  · rename_i n hn
    rw [Option.filter_eq_some_iff, ownedNode?_eq_some] at hn
    obtain ⟨⟨hn, hrun⟩, hclaimed⟩ := hn
    cases result with
    | ok outputs => exact announces_finish hr hw hn (hd n hn hrun hclaimed)
    | error cause => exact announces_fail hw id _

/-- The run of this level has begun its computation with the definition of its node's type. -/
def Knows (e : Engine σ) : Frame σ → Prop
  | .run id (.computing run _ d _ _) => ∀ n, e.graph.node? id = some n → n.run = run →
    n.claimed = true → e.registry.of? n.state = some d
  | _ => True

theorem announces_stepRun (hr : e.registry.Steady) (hw : e.graph.wiring.Sound)
    (hclosed : e.graph.Closed) {id : NodeId} {phase : Phase σ} {new : List (Frame σ)}
    (hd : e.Knows (.run id phase)) (h : e.stepRun id phase = some (e', new)) :
    e.Announces e' := by
  cases phase with
  | claiming run =>
    cases h
    exact announces_claim e id run
  | pulling run todo =>
    cases todo with
    | nil =>
      cases h
      exact announces_resolve hw hclosed id run
    | cons p todo =>
      cases h
      exact announces_of_eq rfl rfl
  | computing run epoch d context c =>
    cases c with
    | done result =>
      cases h
      exact announces_commit hr hw hd
    | awaitPermit c => cases h
    | generate request c => cases h
  | releasing run ending =>
    cases h
    exact announces_release e id run
  | ended ending => cases h
  | _ =>
    cases h
    exact announces_of_eq rfl rfl

theorem announces_step (hr : e.registry.Steady) (hw : e.graph.wiring.Sound)
    (hclosed : e.graph.Closed) {s s' : Stack σ} (hd : ∀ f ∈ s, e.Knows f)
    (h : e.step s = some (e', s')) : e.Announces e' := by
  unfold step at h
  split at h
  · cases h
  · cases h
    exact announces_of_eq rfl rfl
  · cases h
    exact announces_of_eq rfl rfl
  · obtain ⟨⟨e₁, new⟩, hstep, he⟩ := Option.map_eq_some_iff.1 h
    cases he
    exact announces_stepRun hr hw hclosed (hd _ List.mem_cons_self) hstep
  · obtain ⟨new, hstep, he⟩ := Option.map_eq_some_iff.1 h
    cases he
    exact announces_of_eq rfl rfl
  · cases h
    exact announces_of_eq rfl rfl
  · cases h
    exact announces_of_eq rfl rfl

end Engine

/-! ## Moves -/

namespace World

open Patchbay.Engine

variable {r : Registry σ} {w : World σ}

theorem announces_edit {result : Except Error (Engine σ)}
    (h : ∀ e', result = .ok e' → w.engine.Announces e') :
    w.engine.Announces (w.edit result).engine := by
  cases result with
  | error err => exact announces_of_eq rfl rfl
  | ok e' => exact h e' rfl

/-- Every move but a restoration announces what it does. -/
theorem announces_next (hr : r.Steady) (h : Sound r w.engine w.frames) {m : Move σ}
    (hm : m.isRestore = false) : w.engine.Announces (w.next m).engine := by
  have hr' : w.engine.registry.Steady := h.registry ▸ hr
  have hw := h.whole.wiring
  cases m with
  | create id type =>
    refine announces_edit fun e' he => ?_
    obtain ⟨state, he⟩ := create_eq_ok he
    exact announces_createWith he
  | createWith id state => exact announces_edit fun e' he => announces_createWith he
  | remove id =>
    refine announces_edit fun e' he => ?_
    obtain ⟨cs, he⟩ := map_eq_ok he
    exact announces_remove hr' hw he
  | update id edit =>
    refine announces_edit fun e' he => ?_
    obtain ⟨ids, he⟩ := map_eq_ok he
    exact announces_update hr' hw he
  | markStale id =>
    refine announces_edit fun e' he => ?_
    obtain ⟨ids, he⟩ := map_eq_ok he
    exact announces_markStale hw he
  | connect source sink =>
    refine announces_edit fun e' he => ?_
    obtain ⟨c, he⟩ := map_eq_ok he
    exact announces_connect hr' hw he
  | disconnect source sink =>
    refine announces_edit fun e' he => ?_
    obtain ⟨c, he⟩ := map_eq_ok he
    exact announces_disconnect hr' hw he
  | restore s => cases hm
  | start id => exact announces_of_eq rfl rfl
  | wait target => exact announces_of_eq rfl rfl
  | deliver task c => exact announces_of_eq rfl rfl
  | step task =>
    show w.engine.Announces (w.stepTask task).engine
    unfold stepTask
    split
    · exact announces_of_eq rfl rfl
    · rename_i s hs
      split
      · exact announces_of_eq rfl rfl
      · rename_i e s' hstep
        suffices hknows : ∀ f ∈ s, w.engine.Knows f by
          obtain ⟨events, hlog, hannounced⟩ := announces_step hr' hw h.closed hknows hstep
          exact ⟨events, hlog, hannounced⟩
        intro f hf
        have hmem : f ∈ w.frames := List.mem_flatten.2 ⟨s, List.mem_of_getElem? hs, hf⟩
        cases f with
        | wait target watch => trivial
        | errand left => trivial
        | run id phase =>
          cases phase with
          | computing run epoch d context c =>
            intro n hn hrun hclaimed
            rw [h.registry]
            exact (h.valid hmem hn hrun hclaimed).2
          | _ => trivial

/-- As long as nothing is restored, the log is a faithful account of the graph: a mirror made
from the announcements alone has the nodes with their types and flags and the connections, and
whatever happens next is announced as it happens. -/
theorem log_faithful (hr : r.Steady) (p : Policy) {moves : List (Move σ)}
    (hmoves : ∀ m ∈ moves, m.isRestore = false) :
    (Mirror.ofLog (after r p moves).engine.log).Shows (after r p moves).engine.graph ∧
      ∀ m : Move σ, m.isRestore = false → ∃ events,
        ((after r p moves).next m).engine.log = (after r p moves).engine.log ++ events ∧
        (after r p moves).engine.graph.Announced events ((after r p moves).next m).engine.graph := by
  refine ⟨?_, fun m hm => announces_next hr (sound_after hr p moves) hm⟩
  induction moves using List.reverseRecOn with
  | nil =>
    refine ⟨fun id => rfl, fun c => ?_⟩
    show c ∈ [] ↔ c ∈ Wiring.empty.connections
    rw [Wiring.mem_connections]
    exact ⟨nofun, nofun⟩
  | append_singleton moves m ih =>
    rw [List.forall_mem_append, List.forall_mem_singleton] at hmoves
    obtain ⟨events, hlog, hannounced⟩ := announces_next hr (sound_after hr p moves) hmoves.2
    rw [after_concat, hlog, Mirror.ofLog, Mirror.applyAll_append]
    exact hannounced.mirror _ (ih hmoves.1)

end World

namespace Bench

/-- Two connections to a collector were announced, its execution, and then the loss of one of
them. -/
theorem log_faithful_collecting :
    let w := World.after (registry {}) {} collecting
    (∀ m ∈ collecting, m.isRestore = false) ∧
      (Mirror.ofLog w.engine.log).nodes.entries =
        [("a", ⟨"constant", false⟩), ("m", ⟨"merge", true⟩)] ∧
      (Mirror.ofLog w.engine.log).Shows w.engine.graph := by
  have hmoves : ∀ m ∈ collecting, m.isRestore = false := by
    simp [collecting, Move.isRestore, -List.reduceReplicate]
  exact ⟨hmoves, by decide +kernel, (World.log_faithful (steady_registry {}) {} hmoves).1⟩

/-- The sign of a zero makes another state, but an equal one: the edit is kept and nothing is
announced. -/
theorem zero_unannounced :
    let w := World.after (registry {}) {} [.create "a" "constant"]
    let w' := w.next (.update "a" fun _ => .constant (-0.0))
    ∃ n n', w.engine.graph.node? "a" = some n ∧ w'.engine.graph.node? "a" = some n' ∧
      n.state ≠ n'.state ∧
      ∀ events, w'.engine.log = w.engine.log ++ events → .nodeStateChanged "a" ∉ events := by
  intro w w'
  refine ⟨.new "a" (.constant 0), .new "a" (.constant (-0.0)), rfl, rfl, fun h => ?_, ?_⟩
  · have hbits := congrArg Float.toBits (BenchNode.constant.inj h)
    revert hbits
    decide +kernel
  · intro events hlog
    have hsame : w'.engine.log = w.engine.log := rfl
    have hnone : events = [] := by simpa [hsame] using hlog
    simp [hnone]

end Bench

end Patchbay
