import Patchbay.Proofs.Lossless
import Patchbay.Proofs.Replay
import Patchbay.Proofs.Reports
import Patchbay.Proofs.Soundness

/-!
# Saving and restoring

What is saved of a reachable graph can be restored, and it is the same graph without its
executions. Three invariants carry this. The graph is whole, so nothing is wrong with the
snapshot. Each node is kept under its own identity, so the snapshot describes every node once.
Staleness is closed downstream already, so normalization finds nothing to mark and nothing is
announced.

What is proved here:
  1. `World.labelled_after`: each node is kept under its own identity.
  2. `Describes.flawless`: nothing is wrong with what is saved of a whole graph.
  3. `Describes.graph`: the graph that the snapshot describes.
  4. `Closed.normalize`: normalization of a closed graph marks nothing.
  5. `World.snapshot_restores`: a snapshot brings the graph back, and so does its text.
-/

namespace Patchbay

open Json Lossless Relation

variable {σ : Type} [NodeState σ] {r : Registry σ}

/-! ## Identities -/

def Graph.Labelled (g : Graph σ) : Prop := ∀ m n, g.node? m = some n → n.id = m

namespace Graph.Labelled

variable {g g' : Graph σ}

omit [NodeState σ] in
theorem inherits (h : g.Labelled) (hg : g.Inherits g') : g'.Labelled := by
  intro m n' hn'
  obtain ⟨n, hn, hlast⟩ := hg m n' hn'
  rw [hlast.id, h m n hn]

omit [NodeState σ] in
theorem inserted (h : g.Labelled) {id : NodeId} (hnew : g.node? id = none) (state : σ) :
    (g.inserted id state).Labelled := by
  intro m n hn
  rcases node?_of_inserted hn with ⟨rfl, rfl⟩ | hn
  · rfl
  · exact h m n hn

omit [NodeState σ] in
theorem of_graph {s : Snapshot σ} (h : s.graph = .ok g) : g.Labelled := by
  intro m n hn
  obtain ⟨n₀, -, rfl, rfl⟩ := ((Snapshot.graph_eq_ok h).2.1 m n).1 hn
  rfl

omit [NodeState σ] in
theorem taken (h : g.Labelled) (id : NodeId) (run : Nat) :
    (g.modify id (·.taken run)).Labelled := by
  intro m n' hn'
  rw [node?_modify] at hn'
  split at hn'
  · obtain ⟨n, hn, rfl⟩ := Option.map_eq_some_iff.1 hn'
    exact h m n hn
  · exact h m n' hn'

variable {e e' : Engine σ}

theorem of_restore {s : Snapshot σ} (h : e.restore s = .ok e') : e'.graph.Labelled := by
  obtain ⟨g, hg, rfl⟩ := Engine.exists_graph_of_restore h
  exact (of_graph hg).inherits (Graph.keeps_invalidateAll g _).nodes

theorem turn (h : e.graph.Labelled) {top : Frame σ} {rest new : List (Frame σ)}
    (hturn : Turn e top rest e' new) : e'.graph.Labelled := by
  rcases Engine.inherits_turn hturn with hinherits | ⟨id, -, rfl⟩ | ⟨id, run, n, -, -, -, rfl⟩
  · exact h.inherits hinherits.nodes
  · exact h
  · exact h.taken id run

end Graph.Labelled

theorem Engine.restore_of_graph {e : Engine σ} {s : Snapshot σ} {g : Graph σ}
    (hd : s.defects e.registry = []) (hg : s.graph = .ok g) :
    e.restore s =
      .ok ((e.withGraph g.normalize.1).emit (Event.invalidated g.normalize.2)).notify := by
  rw [restore, hd]
  simp only [hg, bind, Except.bind]
  rfl

/-- In every world that can be reached each node is kept under its own identity. -/
theorem World.labelled_after (r : Registry σ) (p : Policy) (moves : List (Move σ)) :
    (after r p moves).engine.graph.Labelled := by
  have hinvariant : Invariant r p fun e _ => e.graph.Labelled :=
    { start := fun m n hn => by cases hn
      same := fun h hsame => hsame.graph.symm ▸ h
      idle := fun h _ => h
      performed := fun h hperformed => by
        rcases hperformed.inherits with hinherits | ⟨id, state, hcreate⟩ | ⟨s, -, hrestore⟩
        · exact h.inherits hinherits.nodes
        · obtain ⟨-, hnew, rfl⟩ := Engine.createWith_eq_ok hcreate
          exact h.inserted hnew state
        · exact .of_restore hrestore
      turn := fun h hturn => h.turn hturn
      progress := fun _ h => h }
  exact hinvariant.after moves

/-! ## What is saved -/

/-- The second node is what was saved of the first. -/
structure Node.Saved (n n₀ : Node σ) : Prop where
  id : n₀.id = n.id
  state : n₀.state = n.state
  stale : n₀.stale = n.stale
  outputs : n₀.outputs = n.outputs
  status : n₀.status = n.status
  lastError : n₀.lastError = n.lastError

/-- The snapshot has the connections of the graph and what was saved of each node. -/
structure Snapshot.Describes (s : Snapshot σ) (g : Graph σ) : Prop where
  nodes : ∃ f : Node σ → Node σ, (∀ n : Node σ, n.Saved (f n)) ∧ s.nodes = g.nodes.values.map f
  connections : s.connections = g.wiring.connections

namespace Snapshot

variable {s : Snapshot σ} {g g' : Graph σ}

omit [NodeState σ] in
theorem describes_capture (g : Graph σ) : (capture g).Describes g :=
  ⟨⟨Node.unclaimed, fun _ => ⟨rfl, rfl, rfl, rfl, rfl, rfl⟩, rfl⟩, rfl⟩

omit [NodeState σ] in
theorem Describes.written (h : s.Describes g) : s.written.Describes g := by
  obtain ⟨⟨f, hf, hnodes⟩, hconns⟩ := h
  refine ⟨⟨fun n => (f n).written, fun n => ?_, ?_⟩, hconns⟩
  · obtain ⟨hid, hstate, hstale, houtputs, hstatus, herror⟩ := hf n
    exact ⟨hid, hstate, hstale, houtputs, hstatus, herror⟩
  · rw [Snapshot.written, hnodes, List.map_map]
    rfl

omit [NodeState σ] in
theorem Describes.exists_nodes (h : s.Describes g) :
    ∃ f : Node σ → Node σ, (∀ n : Node σ, n.Saved (f n)) ∧
      ∀ n₀, n₀ ∈ s.nodes ↔ ∃ m n, g.node? m = some n ∧ f n = n₀ := by
  obtain ⟨⟨f, hf, hnodes⟩, -⟩ := h
  refine ⟨f, hf, fun n₀ => ?_⟩
  rw [hnodes, List.mem_map, Dict.values]
  constructor
  · rintro ⟨n, hn, rfl⟩
    obtain ⟨⟨m, n⟩, hmem, rfl⟩ := List.mem_map.1 hn
    exact ⟨m, n, Dict.mem_entries.1 hmem, rfl⟩
  · rintro ⟨m, n, hn, rfl⟩
    exact ⟨n, List.mem_map.2 ⟨(m, n), Dict.mem_entries.2 hn, rfl⟩, rfl⟩

omit [NodeState σ] in
theorem Describes.ids (h : s.Describes g) (hlabels : g.Labelled) :
    s.nodes.map (·.id) = g.nodes.keys := by
  obtain ⟨⟨f, hf, hnodes⟩, -⟩ := h
  rw [hnodes, List.map_map, Dict.values, List.map_map, Dict.keys]
  refine List.map_congr_left fun e hmem => ?_
  exact (hf e.2).id.trans (hlabels e.1 e.2 (Dict.mem_entries.1 hmem))

omit [NodeState σ] in
theorem Describes.get?_states (h : s.Describes g) (hlabels : g.Labelled) (id : NodeId) :
    s.states.get? id = (g.node? id).map (·.state) := by
  obtain ⟨f, hf, hnodes⟩ := h.exists_nodes
  have hids : (s.nodes.map (·.id)).Nodup := by
    rw [h.ids hlabels]
    exact Dict.nodup_keys _
  cases hn : g.node? id with
  | some n =>
    have hmem := (hnodes (f n)).2 ⟨id, n, hn, rfl⟩
    have hstate := Snapshot.get?_states hids hmem
    rwa [(hf n).id, hlabels id n hn, (hf n).state] at hstate
  | none =>
    rw [Option.map_none, Option.eq_none_iff_forall_ne_some]
    intro state hstate
    obtain ⟨n₀, hn₀, hid, -⟩ := mem_of_states hstate
    obtain ⟨m, n, hn', rfl⟩ := (hnodes n₀).1 hn₀
    rw [(hf n).id, hlabels m n hn'] at hid
    rw [← hid, hn'] at hn
    cases hn

theorem Describes.flawless (h : s.Describes g) (hlabels : g.Labelled) (hwhole : g.Whole r)
    (hk : r.KindsSteady) : s.Flawless r where
  ids := by
    rw [h.ids hlabels]
    exact Dict.nodup_keys _
  types n₀ hn₀ := by
    obtain ⟨f, hf, hnodes⟩ := h.exists_nodes
    obtain ⟨m, n, hn, rfl⟩ := (hnodes n₀).1 hn₀
    rw [(hf n).state]
    exact hwhole.types m n hn
  admitted c hc := by
    have hsignature : s.signature? r = g.signature? r := by
      funext ref
      rw [Snapshot.signature?, Graph.signature?, h.get?_states hlabels]
      cases g.node? ref.node <;> rfl
    rw [h.connections, Wiring.mem_connections] at hc
    obtain ⟨p, q, hp, hq, hpd, hqd, hfits⟩ := hwhole.joined c hc
    rw [hsignature]
    exact ⟨p.kind, q.kind, Graph.signature?_eq_some.2 ⟨p, hp, hpd, rfl⟩,
      Graph.signature?_eq_some.2 ⟨q, hq, hqd, rfl⟩, hfits hk⟩
  sinks := by
    have hkeys : s.connections.map (·.sink) = g.wiring.producers.keys := by
      rw [h.connections, Wiring.connections, List.map_map]
      rfl
    rw [hkeys]
    exact Dict.nodup_keys _
  acyclic := by
    refine Subrelation.wf (fun {u v} hjoins => ?_) hwhole.wiring.acyclic
    obtain ⟨c, hc, hu, hv⟩ := joins_edges_iff.1 hjoins
    rw [h.connections, Wiring.mem_connections] at hc
    exact ⟨c, hc, hu, hv⟩

omit [NodeState σ] in
/-- The graph that the snapshot describes has the same nodes without their executions, and the
same producer of every sink. -/
theorem Describes.graph (h : s.Describes g) (hlabels : g.Labelled) (hg : s.graph = .ok g') :
    (∃ f : Node σ → Node σ, (∀ n : Node σ, n.Saved (f n)) ∧
      ∀ m, g'.node? m = (g.node? m).map fun n => (f n).restored) ∧
      g'.wiring.producers = g.wiring.producers := by
  obtain ⟨-, hnodes', hmem⟩ := graph_eq_ok hg
  obtain ⟨f, hf, hnodes⟩ := h.exists_nodes
  refine ⟨⟨f, hf, fun m => Option.ext fun n' => ?_⟩,
    Dict.ext_get? fun sink => Option.ext fun source => ?_⟩
  · rw [hnodes', Option.map_eq_some_iff]
    constructor
    · rintro ⟨n₀, hn₀, hid, rfl⟩
      obtain ⟨m', n, hn, rfl⟩ := (hnodes n₀).1 hn₀
      rw [(hf n).id, hlabels m' n hn] at hid
      exact ⟨n, hid ▸ hn, rfl⟩
    · rintro ⟨n, hn, rfl⟩
      exact ⟨f n, (hnodes _).2 ⟨m, n, hn, rfl⟩, (hf n).id.trans (hlabels m n hn), rfl⟩
  · have hsame := hmem ⟨source, sink⟩
    rw [h.connections, Wiring.mem_connections] at hsame
    exact hsame

end Snapshot

/-! ## Normalization -/

namespace Graph

variable {g g' : Graph σ}

omit [NodeState σ] in
/-- Normalization marks nothing in a graph in which staleness is closed downstream. It does count
up the epochs of the nodes that it visits. -/
theorem Closed.normalize (h : g.Closed) (hw : g.wiring.Sound) :
    g.normalize.2 = [] ∧ g.normalize.1.wiring = g.wiring ∧ ∀ m, ∃ k,
      g.normalize.1.node? m = (g.node? m).map fun n => { n with epoch := n.epoch + k } := by
  have hspreads := g.spreads_normalize
  have hnone : g.normalize.2 = [] := by
    refine List.eq_nil_iff_forall_not_mem.2 fun m hm => ?_
    obtain ⟨u, v, hstale, hsupplies, hpath⟩ := mem_normalize.1 hm
    have hfresh := h u v (hw.supplies_iff.1 hsupplies) hpath.left
    exact Bool.false_ne_true ((isStale_iff.1 hstale).2.symm.trans hfresh)
  rw [hnone] at hspreads
  refine ⟨hnone, hspreads.wiring, fun m =>
    ⟨(g.staleNodes.flatMap g.wiring.downstream).count m, ?_⟩⟩
  rw [hspreads.node?_eq]
  simp only [List.not_mem_nil, decide_false, Bool.or_false, List.countP_nil, Nat.add_zero]

end Graph

/-! ## What is restored -/

/-- The second node is the first one with no execution going on. -/
structure Node.Resumes (n n' : Node σ) : Prop where
  id : n'.id = n.id
  state : n'.state = n.state
  stale : n'.stale = n.stale
  outputs : n'.outputs = n.outputs
  lastError : n'.lastError = n.lastError
  claimed : n'.claimed = false
  status : n'.status = n.status.settled

/-- The second graph is the first one with no executions going on. -/
structure Graph.Resumes (g g' : Graph σ) : Prop where
  nodes : ∀ m, Option.Rel Node.Resumes (g.node? m) (g'.node? m)
  connections : g'.wiring.connections = g.wiring.connections

/-- The snapshot is accepted and brings the graph back. -/
structure Snapshot.Restores (r : Registry σ) (g : Graph σ) (s : Snapshot σ) : Prop where
  /-- Nothing is wrong with the snapshot. -/
  accepted : s.defects r = []
  /-- Normalization finds nothing to do. -/
  normal : ∃ g', s.graph = .ok g' ∧ g'.normalize.2 = []
  /-- Whatever an engine holds, the graph comes back, and nothing is announced. -/
  restored : ∀ e : Engine σ, e.registry = r →
    ∃ e', e.restore s = .ok e' ∧ g.Resumes e'.graph ∧ e'.log = e.log

namespace Snapshot.Describes

variable {s : Snapshot σ} {g g' : Graph σ}

omit [NodeState σ] in
/-- Staleness is closed downstream in the graph that the snapshot describes. -/
theorem closed (h : s.Describes g) (hlabels : g.Labelled) (hclosed : g.Closed)
    (hg : s.graph = .ok g') : g'.Closed := by
  obtain ⟨⟨f, hf, hnodes⟩, hproducers⟩ := h.graph hlabels hg
  have hfresh : ∀ m, g'.isFresh m = g.isFresh m := by
    intro m
    rw [Graph.isFresh, Graph.isFresh, hnodes]
    cases g.node? m with
    | none => rfl
    | some n => exact congrArg (! ·) (hf n).stale
  intro u v huv hv
  rw [hfresh] at hv ⊢
  obtain ⟨c, hc, hu, hv'⟩ := huv
  rw [Wiring.producerOf, hproducers] at hc
  exact hclosed u v ⟨c, hc, hu, hv'⟩ hv

omit [NodeState σ] in
/-- The graph that the snapshot describes is, normalized, the graph without its executions. -/
theorem resumes (h : s.Describes g) (hlabels : g.Labelled) (hclosed : g.Closed)
    (hg : s.graph = .ok g') : g'.normalize.2 = [] ∧ g.Resumes g'.normalize.1 := by
  obtain ⟨⟨f, hf, hnodes⟩, hproducers⟩ := h.graph hlabels hg
  obtain ⟨hquiet, hwiring, hnormal⟩ :=
    (h.closed hlabels hclosed hg).normalize (Snapshot.graph_eq_ok hg).1
  refine ⟨hquiet, fun m => ?_, ?_⟩
  · obtain ⟨k, hk⟩ := hnormal m
    rw [hk, hnodes]
    cases g.node? m with
    | none => exact .none
    | some n =>
      obtain ⟨hid, hstate, hstale, houtputs, hstatus, herror⟩ := hf n
      exact .some ⟨hid, hstate, hstale, houtputs, herror, rfl, congrArg Status.settled hstatus⟩
  · rw [hwiring, Wiring.connections, hproducers]
    rfl

theorem restores (h : s.Describes g) (hlabels : g.Labelled) (hwhole : g.Whole r)
    (hclosed : g.Closed) (hk : r.KindsSteady) : s.Restores r g := by
  have hd := Snapshot.defects_eq_nil_iff.2 (h.flawless hlabels hwhole hk)
  obtain ⟨g', hg⟩ := Snapshot.exists_graph hd
  obtain ⟨hquiet, hresumes⟩ := h.resumes hlabels hclosed hg
  refine ⟨hd, ⟨g', hg, hquiet⟩, fun e he => ?_⟩
  refine ⟨_, Engine.restore_of_graph (he ▸ hd) hg, hresumes, ?_⟩
  rw [hquiet]
  exact List.append_nil _

end Snapshot.Describes

/-- Saving and restoring is the identity on every reachable graph, also while executions go on,
but for the executions themselves. The snapshot may be restored as it is, or be written and read
first. -/
theorem World.snapshot_restores [Lossless σ] (hr : r.Steady) (hk : r.KindsSteady) (p : Policy)
    (moves : List (Move σ)) :
    let e := (after r p moves).engine
    e.snapshot.Restores r e.graph ∧
      (e.snapshot.Legible → Snapshot.ofText e.snapshot.text = .ok e.snapshot.written ∧
        e.snapshot.written.Restores r e.graph) := by
  intro e
  have hsound := sound_after hr p moves
  have hlabels := labelled_after r p moves
  have hcapture := Snapshot.describes_capture e.graph
  refine ⟨hcapture.restores hlabels hsound.whole hsound.closed hk, fun hlegible => ?_⟩
  exact ⟨Snapshot.ofText_text hlegible,
    hcapture.written.restores hlabels hsound.whole hsound.closed hk⟩

def Json.Number.isWord : Number → Bool
  | .int z => -2 ^ 63 ≤ z && z < 2 ^ 64
  | .float .. => false

/-- A snapshot without doubles is legible if it passes what can be checked. -/
theorem Snapshot.legible_of_words [Lossless σ] {s : Snapshot σ}
    (hstates : ∀ n ∈ s.nodes, Writable n.state) (houtputs : ∀ n ∈ s.nodes, Writable n.outputs)
    (hnumbers : (encode s).numbers.all Number.isWord = true)
    (hdepth : (encode s).depth ≤ Document.depthLimit) : s.Legible where
  states := hstates
  outputs := houtputs
  numbers x hx := by
    have hword := List.all_eq_true.1 hnumbers x hx
    cases x with
    | int z =>
      obtain ⟨hlow, hhigh⟩ := Bool.and_eq_true_iff.1 hword
      exact Token.legible_int (of_decide_eq_true hlow) (of_decide_eq_true hhigh)
    | float x hfinite => cases hword
  depth := hdepth

/-- The label has been computed, and the collector below it is being computed. -/
def Bench.midway : List (Move BenchNode) :=
  [.createWith "a" (.label "one \"two\""), .create "m" "merge",
    .connect ⟨"a", "output"⟩ ⟨"m", "in0"⟩, .start "a"] ++ List.replicate 6 (.step 0) ++
    [.start "m"] ++ List.replicate 4 (.step 1)

/-- A text has been computed, and another one is being computed. -/
def Studio.midway : List (Move StudioNode) :=
  [.createWith "t" (.textInput ⟨"one", []⟩), .createWith "u" (.textInput ⟨"two", ["image"]⟩),
    .start "t"] ++ List.replicate 6 (.step 0) ++ [.start "u"] ++ List.replicate 4 (.step 1)

theorem World.snapshot_restores_midway :
    let e := (after (Bench.registry {}) {} Bench.midway).engine
    let e' := (after Studio.registry {} Studio.midway).engine
    ((e.graph.node? "m").map (fun n => (n.claimed, n.status)) = some (true, .generating) ∧
      e.snapshot.Legible ∧ e.snapshot.Restores (Bench.registry {}) e.graph ∧
      Snapshot.ofText e.snapshot.text = .ok e.snapshot.written ∧
      e.snapshot.written.Restores (Bench.registry {}) e.graph) ∧
    ((e'.graph.node? "u").map (fun n => (n.claimed, n.status)) = some (true, .generating) ∧
      e'.snapshot.Legible ∧ e'.snapshot.Restores Studio.registry e'.graph ∧
      Snapshot.ofText e'.snapshot.text = .ok e'.snapshot.written ∧
      e'.snapshot.written.Restores Studio.registry e'.graph) := by
  intro e e'
  have hlegible : e.snapshot.Legible := Snapshot.legible_of_words (by decide +kernel)
    (by decide +kernel) (by decide +kernel) (by decide +kernel)
  have hlegible' : e'.snapshot.Legible := Snapshot.legible_of_words (by decide +kernel)
    (by decide +kernel) (by decide +kernel) (by decide +kernel)
  have hbench := snapshot_restores (Bench.steady_registry {}) (Bench.kindsSteady_registry {}) {}
    Bench.midway
  have hstudio := snapshot_restores Studio.steady_registry Studio.kindsSteady_registry {}
    Studio.midway
  exact ⟨⟨by decide +kernel, hlegible, hbench.1, hbench.2 hlegible⟩,
    ⟨by decide +kernel, hlegible', hstudio.1, hstudio.2 hlegible'⟩⟩

end Patchbay
