import Patchbay.Proofs.Calls
import Patchbay.Proofs.Saving

/-!
# What an edit takes away

The ports of a node come from its state, so an edit can take ports away, and the connections at
them with it. Which connections these are is found out by asking the old and the new state for
each port that is in use. Since a connection is always at ports that are there, it comes to the
same to look at the new state alone: a connection is lost if the new state has no port where it
is.

What is proved here:
  1. `Graph.Whole.mem_lostEdges_iff`: which connections an edit takes away.
  2. `Engine.sheds_update`: what an edit does about the connections of a node.
  3. `World.edit_sheds`: the same of every edit in every world that can be reached.
-/

namespace Patchbay

variable {σ : Type} [NodeState σ]

/-- One end of the connection is at a port of this node that the state does not have. -/
def Connection.Lacks (c : Connection) (node : NodeId) (d : Definition σ) (s : σ) : Prop :=
  c.source.node = node ∧ d.hasPort s c.source.port = false ∨
    c.sink.node = node ∧ d.hasPort s c.sink.port = false

/-- Whether the event tells of connections that came or went. -/
def Event.isRewiring : Event → Bool
  | .connected _ | .disconnected _ | .nodeRemoved _ _ => true
  | _ => false

namespace Graph

variable {r : Registry σ} {g : Graph σ}

theorem Whole.hasPort_of_end (h : g.Whole r) {c : Connection} {ref : PortRef} {n : Node σ}
    {d : Definition σ} (hc : g.wiring.producerOf c.sink = some c.source)
    (href : ref = c.source ∨ ref = c.sink) (hn : g.node? ref.node = some n)
    (hd : r.of? n.state = some d) : d.hasPort n.state ref.port = true := by
  have hport : ∃ p, g.HasPort r ref p := by
    obtain ⟨p, q, hp, hq, -⟩ := h.joined c hc
    rcases href with rfl | rfl
    · exact ⟨p, hp⟩
    · exact ⟨q, hq⟩
  obtain ⟨p, n', d', hn', hd', hp⟩ := hport
  rw [hn] at hn'
  cases hn'
  rw [hd] at hd'
  cases hd'
  exact Definition.hasPort_iff.2 ⟨p, hp⟩

omit [NodeState σ] in
theorem producerOf_of_mem_lostEdges (hw : g.wiring.Sound) {d : Definition σ} {id : NodeId}
    {old new : σ} {c : Connection} (hc : c ∈ g.lostEdges d id old new) :
    g.wiring.producerOf c.sink = some c.source := by
  have haround := (List.mem_filter.1 hc).1
  rw [List.mem_append, Wiring.mem_incoming, Wiring.mem_outgoing, hw.mirrored] at haround
  exact haround.elim (·.1) (·.1)

/-- An edit takes away the connections at ports that the new state does not have. -/
theorem Whole.mem_lostEdges_iff (h : g.Whole r) {id : NodeId} {n : Node σ} {d : Definition σ}
    {state : σ} (hn : g.node? id = some n) (hd : r.of? n.state = some d) {c : Connection} :
    c ∈ g.lostEdges d id n.state state ↔
      g.wiring.producerOf c.sink = some c.source ∧ c.Lacks id d state := by
  constructor
  · intro hc
    refine ⟨producerOf_of_mem_lostEdges h.wiring hc, ?_⟩
    rw [lostEdges, List.mem_filter, List.mem_append, Wiring.mem_incoming, Wiring.mem_outgoing] at hc
    obtain ⟨haround, hlost⟩ := hc
    by_cases hsink : c.sink.node = id
    · simp only [hsink, beq_self_eq_true, if_true, Bool.and_eq_true, Bool.not_eq_true'] at hlost
      exact .inr ⟨hsink, hlost.2⟩
    · have hsource := (haround.resolve_left fun hin => hsink hin.2).2
      have hbeq : (c.sink.node == id) = false := by simpa using hsink
      simp only [hbeq, Bool.false_eq_true, if_false, Bool.and_eq_true, Bool.not_eq_true']
        at hlost
      exact .inl ⟨hsource, hlost.2⟩
  · intro hex
    obtain ⟨hc, ⟨hid, hnew⟩ | ⟨hid, hnew⟩⟩ := hex
    · exact Engine.mem_lostEdges h.wiring hc (.inl rfl) hid
        (h.hasPort_of_end hc (.inl rfl) (hid ▸ hn) hd) (by simp [hnew])
    · exact Engine.mem_lostEdges h.wiring hc (.inr rfl) hid
        (h.hasPort_of_end hc (.inr rfl) (hid ▸ hn) hd) (by simp [hnew])

omit [NodeState σ] in
theorem nodup_lostEdges (hw : g.wiring.Sound) (d : Definition σ) (id : NodeId) (old new : σ) :
    (g.lostEdges d id old new).Nodup :=
  (hw.nodup_around id).filter _

end Graph

namespace Engine

open Patchbay.Graph

variable {e e' : Engine σ}

/-- The node was given another state, and these connections were taken away: each of them is
announced once, and both of its ends are called. -/
structure Drops (e : Engine σ) (id : NodeId) (edit : σ → σ) (cs : List Connection)
    (e' : Engine σ) : Prop where
  once : cs.Nodup
  there : ∀ c ∈ cs, c ∈ e.connections
  kept : ∀ c, c ∈ e'.connections ↔ c ∈ e.connections ∧ c ∉ cs
  announced : ∃ events, e'.log = e.log ++ events ∧
    events.filter Event.isRewiring = cs.map .disconnected
  called : ∀ m, Option.Rel (fun n₀ n₁ : Node σ => n₁.state =
      e.registry.calls m (if m = id then edit n₀.state else n₀.state) (callsOf false cs))
    (e.graph.node? m) (e'.graph.node? m)

/-- The node was given another state, and that took away these connections: each of them is at a
port that the state does not have, is announced once, and both of its ends are called. -/
structure Sheds (e : Engine σ) (id : NodeId) (d : Definition σ) (edit : σ → σ) (n : Node σ)
    (cs : List Connection) (e' : Engine σ) : Prop where
  once : cs.Nodup
  lost : ∀ c, c ∈ cs ↔ c ∈ e.connections ∧ c.Lacks id d (edit n.state)
  kept : ∀ c, c ∈ e'.connections ↔ c ∈ e.connections ∧ c ∉ cs
  announced : ∃ events, e'.log = e.log ++ events ∧
    events.filter Event.isRewiring = cs.map .disconnected
  /-- Every node is there as before. Its state is what the calls at both ends of each of these
  connections make of the state that it had, or that it was given. -/
  called : ∀ m, Option.Rel (fun n₀ n₁ : Node σ => n₁.state =
      e.registry.calls m (if m = id then edit n₀.state else n₀.state) (callsOf false cs))
    (e.graph.node? m) (e'.graph.node? m)

theorem filter_isRewiring_replaced (id : NodeId) (cs : List Connection)
    (changed flips : List NodeId) :
    (Event.nodeStateChanged id :: cs.map .disconnected ++ Event.stateChanges changed ++
      Event.invalidated flips).filter Event.isRewiring = cs.map .disconnected := by
  have hstates : (Event.stateChanges changed).filter Event.isRewiring = [] := by
    simp [Event.stateChanges, Event.isRewiring]
  have hflips : (Event.invalidated flips).filter Event.isRewiring = [] := by
    cases flips <;> rfl
  have hlost : (cs.map Event.disconnected).filter Event.isRewiring = cs.map .disconnected :=
    List.filter_eq_self.2 fun event hevent => by
      obtain ⟨c, -, rfl⟩ := List.mem_map.1 hevent
      rfl
  rw [List.filter_append, List.filter_append, hstates, hflips, List.append_nil, List.append_nil]
  exact hlost

theorem drops_of_equal {id : NodeId} {n : Node σ} {edit : σ → σ}
    (hn : e.graph.node? id = some n) : e.Drops id edit []
      (e.withGraph (e.graph.modify id ({ · with state := edit n.state }))) where
  once := .nil
  there := nofun
  kept c := ⟨fun hc => ⟨hc, List.not_mem_nil⟩, And.left⟩
  announced := ⟨[], (List.append_nil _).symm, rfl⟩
  called m := by
    rw [graph_withGraph, node?_modify]
    by_cases hm : id = m
    · subst hm
      rw [if_pos rfl, hn]
      exact .some (by simp [callsOf, bothEnds, Registry.calls])
    · rw [if_neg hm]
      exact rel_refl (fun _ => by simp [callsOf, bothEnds, Registry.calls, Ne.symm hm]) _

theorem drops_replaceState (hw : e.graph.wiring.Sound) {id : NodeId} {n : Node σ}
    {d : Definition σ} {edit : σ → σ} {ids : List NodeId} (hn : e.graph.node? id = some n)
    (h : e.replaceState id n d (edit n.state) = .ok (e', ids)) :
    e.Drops id edit (e.graph.lostEdges d id n.state (edit n.state)) e' := by
  obtain ⟨g, changed, others, hdrop, -, rfl⟩ := replaceState_accounts h
  have heach := each_invalidate Node.robust_state (e.graph.setState id (edit n.state)) id
  have hsame : ((e.graph.setState id (edit n.state)).invalidate id).1.wiring = e.graph.wiring :=
    heach.wiring
  -- What is dropped is looked up after the node got its state and all below it became stale, but
  -- neither touches the connections.
  have hlost : ((e.graph.setState id (edit n.state)).invalidate id).1.lostEdges d id n.state
      (edit n.state) = e.graph.lostEdges d id n.state (edit n.state) := by
    rw [lostEdges, hsame, lostEdges]
  rw [hlost] at hdrop ⊢
  refine ⟨nodup_lostEdges hw d id _ _, fun c hc => ?_, fun c => ?_,
    ⟨_, rfl, filter_isRewiring_replaced id _ _ _⟩, fun m => ?_⟩
  · exact Wiring.mem_connections.2 (producerOf_of_mem_lostEdges hw hc)
  · rw [Engine.connections, Engine.connections, Wiring.mem_connections, Wiring.mem_connections,
      ← hsame]
    exact producerOf_dropEdges hdrop c
  · have hset : Option.Rel (fun n₀ n₁ : Node σ =>
        n₁.state = if m = id then edit n₀.state else n₀.state) (e.graph.node? m)
        ((e.graph.setState id (edit n.state)).node? m) := by
      rw [setState, node?_modify]
      by_cases hm : id = m
      · subst hm
        rw [if_pos rfl, hn]
        exact .some (if_pos rfl).symm
      · rw [if_neg hm]
        exact rel_refl (fun _ => (if_neg (Ne.symm hm)).symm) _
    refine rel_comp (rel_comp hset (heach.nodes m) fun a b c hab hbc => hbc.trans hab)
      (called_dropEdges hdrop m) fun a b c hab hbc => ?_
    rw [hbc, hab]

/-- Every edit of a state drops the connections that it takes away. -/
theorem drops_update (hw : e.graph.wiring.Sound) {id : NodeId} {edit : σ → σ} {ids : List NodeId}
    (h : e.update id edit = .ok (e', ids)) : ∃ cs, e.Drops id edit cs e' := by
  obtain ⟨n, d, hn, -, ⟨-, rfl⟩ | ⟨-, hreplace⟩⟩ := update_eq_ok h
  · exact ⟨[], drops_of_equal hn⟩
  · exact ⟨_, drops_replaceState hw hn hreplace⟩

theorem not_lacks_of_equal (hr : e.registry.Steady) (hw : e.graph.Whole e.registry) {id : NodeId}
    {n : Node σ} {d : Definition σ} {state : σ} (hn : e.graph.node? id = some n)
    (hd : e.registry.of? n.state = some d) (hequal : (state == n.state) = true) {c : Connection}
    (hc : c ∈ e.connections) : ¬ c.Lacks id d state := by
  have hc := Wiring.mem_connections.1 hc
  have hof : e.registry.of? state = some d := (hr.equal _ _ hequal).of?_eq ▸ hd
  have hports := (hr.equal _ _ hequal).ports d hof
  rintro (⟨hid, hport⟩ | ⟨hid, hport⟩)
  · have hhas := hw.hasPort_of_end hc (.inl rfl) (hid ▸ hn) hd
    exact absurd (hhas.symm.trans ((hports _).trans hport)) (by simp)
  · have hhas := hw.hasPort_of_end hc (.inr rfl) (hid ▸ hn) hd
    exact absurd (hhas.symm.trans ((hports _).trans hport)) (by simp)

theorem Drops.sheds {id : NodeId} {n : Node σ} {d : Definition σ} {edit : σ → σ}
    {cs : List Connection} (h : e.Drops id edit cs e')
    (hlost : ∀ c, c ∈ cs ↔ c ∈ e.connections ∧ c.Lacks id d (edit n.state)) :
    e.Sheds id d edit n cs e' :=
  ⟨h.once, hlost, h.kept, h.announced, h.called⟩

/-- Every edit of a state takes away just the connections at ports that are gone. -/
theorem sheds_update (hr : e.registry.Steady) (hw : e.graph.Whole e.registry) {id : NodeId}
    {edit : σ → σ} {ids : List NodeId} (h : e.update id edit = .ok (e', ids)) :
    ∃ n d cs, e.graph.node? id = some n ∧ e.registry.of? n.state = some d ∧
      e.Sheds id d edit n cs e' := by
  obtain ⟨n, d, hn, hd, ⟨hequal, rfl⟩ | ⟨-, hreplace⟩⟩ := update_eq_ok h
  · refine ⟨n, d, [], hn, hd, (drops_of_equal hn).sheds fun c => ⟨nofun, fun hex => ?_⟩⟩
    exact absurd hex.2 (not_lacks_of_equal hr hw hn hd hequal hex.1)
  · refine ⟨n, d, _, hn, hd, (drops_replaceState hw.wiring hn hreplace).sheds fun c => ?_⟩
    rw [hw.mem_lostEdges_iff hn hd, Engine.connections, Wiring.mem_connections]

end Engine

namespace World

variable {r : Registry σ}

/-- The engine after an edit that succeeds is one that can be reached. -/
theorem graph_after_update {p : Policy} {moves : List (Move σ)} {id : NodeId} {edit : σ → σ}
    {e' : Engine σ} {ids : List NodeId}
    (h : (after r p moves).engine.update id edit = .ok (e', ids)) :
    (after r p (moves ++ [.update id edit])).engine.graph = e'.graph := by
  rw [after_concat, next, h]
  rfl

/-- Whatever happened before, an edit that succeeds takes away exactly the connections whose end on
the node is at a port that its new state does not have; each of them is announced once and both of
its ends are called. All other connections stay, and a snapshot of what is left has no defects. -/
theorem edit_sheds (hr : r.Steady) (hk : r.KindsSteady) (p : Policy) (moves : List (Move σ))
    {id : NodeId} {edit : σ → σ} {e' : Engine σ} {ids : List NodeId}
    (h : (after r p moves).engine.update id edit = .ok (e', ids)) :
    (∃ n d cs, (after r p moves).engine.graph.node? id = some n ∧ r.of? n.state = some d ∧
      (after r p moves).engine.Sheds id d edit n cs e') ∧ e'.snapshot.defects r = [] := by
  have hsound := sound_after hr p moves
  have hregistry : (after r p moves).engine.registry = r := hsound.registry
  constructor
  · obtain ⟨n, d, cs, hn, hd, hsheds⟩ := Engine.sheds_update (by rwa [hregistry])
      (by rw [hregistry]; exact hsound.whole) h
    exact ⟨n, d, cs, hn, by rwa [hregistry] at hd, hsheds⟩
  · have hgraph := graph_after_update h
    have hsound' := sound_after hr p (moves ++ [.update id edit])
    have hlabels := labelled_after r p (moves ++ [.update id edit])
    rw [hgraph] at hlabels
    have hwhole := hsound'.whole
    rw [hgraph] at hwhole
    exact Snapshot.defects_eq_nil_iff.2
      ((Snapshot.describes_capture e'.graph).flawless hlabels hwhole hk)

end World

namespace Bench

theorem hasPort_merge (inputs : UInt64) (port : PortId) :
    merge.hasPort (.merge inputs) port = true ↔
      port = "output" ∨ ∃ i < inputs.toNat, port = s!"in{i}" := by
  rw [Definition.hasPort, List.any_eq_true]
  constructor
  · intro hex
    obtain ⟨p, hp, hid⟩ := hex
    obtain rfl : p.id = port := by simpa using hid
    rcases List.mem_append.1 hp with hp | hp
    · obtain ⟨i, hi, rfl⟩ := List.mem_map.1 hp
      exact .inr ⟨i, List.mem_range.1 hi, rfl⟩
    · exact .inl (congrArg Port.id (List.mem_singleton.1 hp))
  · intro hor
    rcases hor with rfl | ⟨i, hi, rfl⟩
    · exact ⟨_, List.mem_append_right _ List.mem_cons_self, beq_self_eq_true _⟩
    · exact ⟨_, List.mem_append_left _ (List.mem_map_of_mem (List.mem_range.2 hi)),
        beq_self_eq_true _⟩

/-- A collector loses the sinks from its new number of inputs on, and keeps its output. -/
theorem lacks_merge {c : Connection} {node : NodeId} {inputs : UInt64} :
    c.Lacks node merge (.merge inputs) ↔
      (c.source.node = node ∧ c.source.port ≠ "output" ∧
        ∀ i < inputs.toNat, c.source.port ≠ s!"in{i}") ∨
      (c.sink.node = node ∧ c.sink.port ≠ "output" ∧
        ∀ i < inputs.toNat, c.sink.port ≠ s!"in{i}") := by
  have hlacks : ∀ port, merge.hasPort (.merge inputs) port = false ↔
      port ≠ "output" ∧ ∀ i < inputs.toNat, port ≠ s!"in{i}" := by
    intro port
    rw [← Bool.not_eq_true, hasPort_merge, not_or]
    simp only [not_exists, not_and, ne_eq]
  rw [Connection.Lacks, hlacks, hlacks]

/-- One constant feeds both sinks of a collector and one of another collector, which the first one
feeds, too. -/
def fanning : List (Move BenchNode) :=
  [.create "a" "constant", .create "m" "merge", .create "x" "merge",
    .connect ⟨"a", "output"⟩ ⟨"m", "in0"⟩, .connect ⟨"a", "output"⟩ ⟨"m", "in1"⟩,
    .connect ⟨"a", "output"⟩ ⟨"x", "in1"⟩, .connect ⟨"m", "output"⟩ ⟨"x", "in0"⟩]

/-- The first collector keeps one sink and its output. -/
theorem edit_sheds_fanning :
    let e := (World.after (registry {}) {} fanning).engine
    ∃ e' ids, e.update "m" (fun _ => .merge 1) = .ok (e', ids) ∧
      e'.connections = [⟨⟨"a", "output"⟩, ⟨"m", "in0"⟩⟩, ⟨⟨"m", "output"⟩, ⟨"x", "in0"⟩⟩,
        ⟨⟨"a", "output"⟩, ⟨"x", "in1"⟩⟩] ∧
      (∃ n d cs, e.graph.node? "m" = some n ∧ (registry {}).of? n.state = some d ∧
        e.Sheds "m" d (fun _ => .merge 1) n cs e') ∧ e'.snapshot.defects (registry {}) = [] := by
  intro e
  have hconnections : (e.update "m" fun _ => .merge 1).toOption.map (·.1.connections) =
      some [⟨⟨"a", "output"⟩, ⟨"m", "in0"⟩⟩, ⟨⟨"m", "output"⟩, ⟨"x", "in0"⟩⟩,
        ⟨⟨"a", "output"⟩, ⟨"x", "in1"⟩⟩] := by decide +kernel
  cases he : e.update "m" fun _ => .merge 1 with
  | error err =>
    rw [he] at hconnections
    cases hconnections
  | ok x =>
    rw [he] at hconnections
    exact ⟨x.1, x.2, rfl, Option.some.inj hconnections,
      World.edit_sheds (steady_registry {}) (kindsSteady_registry {}) {} fanning he⟩

end Bench

end Patchbay
