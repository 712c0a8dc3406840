import Patchbay.Proofs.Restore

/-!
# Flawless snapshots

The check of a snapshot goes through it four times and looks at lists. What it finds out is
simple: the identities differ, the types are registered, each connection leads from a source to a
sink that it fits, no sink is fed twice, and no circle is closed. `Flawless` says just that, and
`defects_eq_nil_iff` says that nothing else can keep a snapshot from being a graph.

Of a port only its direction and its kind count here, its `signature?`.
-/

namespace Patchbay

variable {σ : Type} [NodeState σ]

/-! ## Signatures -/

/-- Which way a port of a node in this state leads, and what it carries. -/
def Registry.signature? (r : Registry σ) (state : σ) (port : PortId) :
    Option (Direction × DataKind) :=
  (r.of? state).bind fun d => (d.port? state port).map fun p => (p.direction, p.kind)

/-- The connection leads from a source to a sink that it fits, if ports are as described. -/
def Connection.Admitted (signature? : PortRef → Option (Direction × DataKind))
    (c : Connection) : Prop :=
  ∃ out into, signature? c.source = some (.source, out) ∧
    signature? c.sink = some (.sink, into) ∧ out.fits into = true

def Graph.signature? (r : Registry σ) (g : Graph σ) (ref : PortRef) :
    Option (Direction × DataKind) :=
  (g.node? ref.node).bind fun n => r.signature? n.state ref.port

theorem Graph.signature?_eq_some {r : Registry σ} {g : Graph σ} {ref : PortRef}
    {dir : Direction} {kind : DataKind} : g.signature? r ref = some (dir, kind) ↔
      ∃ p, g.HasPort r ref p ∧ p.direction = dir ∧ p.kind = kind := by
  simp only [signature?, Registry.signature?, Option.bind_eq_some_iff, Option.map_eq_some_iff,
    Prod.mk.injEq, HasPort]
  constructor
  · rintro ⟨n, hn, d, hd, p, hp, hdir, hkind⟩
    exact ⟨p, ⟨n, d, hn, hd, hp⟩, hdir, hkind⟩
  · rintro ⟨p, ⟨n, d, hn, hd, hp⟩, hdir, hkind⟩
    exact ⟨n, hn, d, hd, p, hp, hdir, hkind⟩

namespace Snapshot

variable {r : Registry σ} {s : Snapshot σ}

/-- The state of each node; of two nodes with one identity, that of the later. -/
def states (s : Snapshot σ) : Dict NodeId σ := Dict.ofList (s.nodes.map fun n => (n.id, n.state))

def signature? (r : Registry σ) (s : Snapshot σ) (ref : PortRef) :
    Option (Direction × DataKind) :=
  (s.states.get? ref.node).bind fun state => r.signature? state ref.port

/-- Nothing keeps the snapshot from being a graph. -/
structure Flawless (r : Registry σ) (s : Snapshot σ) : Prop where
  ids : (s.nodes.map (·.id)).Nodup
  types : ∀ n ∈ s.nodes, ∃ d, r.of? n.state = some d
  admitted : ∀ c ∈ s.connections, c.Admitted (s.signature? r)
  sinks : (s.connections.map (·.sink)).Nodup
  acyclic : WellFounded s.edges.Joins

omit [NodeState σ] in
/-- If identities differ, every node is the one that is meant by its own. -/
theorem get?_states (hids : (s.nodes.map (·.id)).Nodup) {n : Node σ} (hn : n ∈ s.nodes) :
    s.states.get? n.id = some n.state := by
  have hkey : n.id ∈ (s.nodes.map fun n => (n.id, n.state)).map (·.1) := by
    rw [List.map_map]
    exact List.mem_map_of_mem hn
  obtain ⟨state, hstate⟩ := Option.isSome_iff_exists.1 (Dict.isSome_ofList hkey)
  obtain ⟨n', hn', he⟩ := List.mem_map.1 (Dict.mem_of_ofList hstate)
  obtain ⟨hid, rfl⟩ := Prod.mk.inj he
  rw [states, hstate, List.inj_on_of_nodup_map hids hn' hn hid]

omit [NodeState σ] in
theorem mem_of_states {id : NodeId} {state : σ} (h : s.states.get? id = some state) :
    ∃ n ∈ s.nodes, n.id = id ∧ n.state = state := by
  obtain ⟨n, hn, he⟩ := List.mem_map.1 (Dict.mem_of_ofList h)
  exact ⟨n, hn, (Prod.mk.inj he).1, (Prod.mk.inj he).2⟩

/-! ## One connection -/

theorem checkEnd_eq_ok {c : Connection} {ref : PortRef} {dir : Direction} {kind : DataKind} :
    checkEnd r s.states c ref dir = .ok kind ↔ s.signature? r ref = some (dir, kind) := by
  rw [checkEnd, signature?]
  cases s.states.get? ref.node with
  | none => simp
  | some state =>
    rw [Option.bind_some, Registry.signature?, Registry.of?]
    dsimp only
    cases r.definitions.get? (NodeState.typeName state) with
    | none => simp
    | some d =>
      rw [Option.bind_some]
      dsimp only
      cases d.port? state ref.port with
      | none => simp
      | some p => by_cases hdir : p.direction = dir <;> simp [hdir]

/-- If every type is registered, a connection without defects has two good ends that fit. -/
theorem connectionDefects_eq_nil (htypes : ∀ n ∈ s.nodes, ∃ d, r.of? n.state = some d)
    {c : Connection} :
    connectionDefects r s.states c = [] ↔ c.Admitted (s.signature? r) := by
  simp only [Connection.Admitted, ← checkEnd_eq_ok (c := c), connectionDefects]
  have hsource : checkEnd r s.states c c.source .source ≠ .error [] := checkEnd_ne_nil htypes
  have hsink : checkEnd r s.states c c.sink .sink ≠ .error [] := checkEnd_ne_nil htypes
  cases ha : checkEnd r s.states c c.source .source with
  | error a =>
    have ha : a ≠ [] := fun e => hsource (e ▸ ha)
    cases checkEnd r s.states c c.sink .sink <;> simp [ha]
  | ok a =>
    cases hb : checkEnd r s.states c c.sink .sink with
    | error b =>
      have hb : b ≠ [] := fun e => hsink (e ▸ hb)
      simp [hb]
    | ok b => cases hfits : a.fits b <;> simp [hfits]

/-! ## The lists -/

theorem report_eq_nil {κ δ : Type} [BEq κ] [LawfulBEq κ] {seen : List κ} {k : κ} {d : δ}
    (h : k ∉ seen) : (if seen.contains k then [d] else []) = [] :=
  if_neg fun hc => h (List.contains_iff_mem.1 hc)

theorem nodeDefects_eq_nil {seen : List NodeId} {nodes : List (Node σ)}
    (hids : (nodes.map (·.id)).Nodup) (hnew : ∀ n ∈ nodes, n.id ∉ seen)
    (htypes : ∀ n ∈ nodes, ∃ d, r.of? n.state = some d) : nodeDefects r seen nodes = [] := by
  induction nodes generalizing seen with
  | nil => rfl
  | cons a rest ih =>
    obtain ⟨hdiffer, hids⟩ := List.nodup_cons.1 hids
    obtain ⟨ha, hrest⟩ := List.forall_mem_cons.1 hnew
    obtain ⟨⟨d, hd⟩, htypes⟩ := List.forall_mem_cons.1 htypes
    have hhas : r.has a.typeName = true := Option.isSome_iff_exists.2 ⟨d, hd⟩
    rw [nodeDefects, report_eq_nil ha, if_pos hhas, ih hids ?_ htypes]
    · rfl
    · intro n hn hmem
      rcases List.mem_cons.1 hmem with he | hmem
      · exact hdiffer (List.mem_map.2 ⟨n, hn, he⟩)
      · exact hrest n hn hmem

omit [NodeState σ] in
theorem sinkDefects_eq_nil {bound : List PortRef} {cs : List Connection}
    (hsinks : (cs.map (·.sink)).Nodup) (hfree : ∀ c ∈ cs, c.sink ∉ bound) :
    sinkDefects bound cs = [] := by
  induction cs generalizing bound with
  | nil => rfl
  | cons a rest ih =>
    obtain ⟨hdiffer, hsinks⟩ := List.nodup_cons.1 hsinks
    obtain ⟨ha, hrest⟩ := List.forall_mem_cons.1 hfree
    rw [sinkDefects, report_eq_nil ha, ih hsinks ?_]
    · rfl
    · intro c hc hmem
      rcases List.mem_cons.1 hmem with he | hmem
      · exact hdiffer (List.mem_map.2 ⟨c, hc, he⟩)
      · exact hrest c hc hmem

omit [NodeState σ] in
theorem joins_edges_iff {u v : NodeId} :
    s.edges.Joins u v ↔ ∃ c ∈ s.connections, c.source.node = u ∧ c.sink.node = v := by
  rw [Edges.Joins, edges, List.mem_eraseDups, List.mem_map]
  simp only [Prod.mk.injEq]

omit [NodeState σ] in
/-- The edges of a snapshot that describes a graph are the connections of the graph. -/
theorem joins_edges_of_graph {g : Graph σ} (h : s.graph = .ok g) {u v : NodeId} :
    s.edges.Joins u v ↔ g.wiring.Feeds u v := by
  obtain ⟨-, -, hmem⟩ := graph_eq_ok h
  rw [joins_edges_iff]
  constructor
  · rintro ⟨c, hc, hu, hv⟩
    exact ⟨c, (hmem c).2 hc, hu, hv⟩
  · rintro ⟨c, hc, hu, hv⟩
    exact ⟨c, (hmem c).1 hc, hu, hv⟩

/-! ## All of it -/

theorem defects_eq (r : Registry σ) (s : Snapshot σ) : s.defects r =
    nodeDefects r [] s.nodes ++ s.connections.flatMap (connectionDefects r s.states) ++
      sinkDefects [] s.connections ++
      (if leavesCore (s.nodes.map (·.id)) s.edges then [Defect.cycle] else []) := rfl

/-- A snapshot has no defects exactly when nothing keeps it from being a graph. -/
theorem defects_eq_nil_iff : s.defects r = [] ↔ s.Flawless r := by
  constructor
  · intro hd
    obtain ⟨g, hg⟩ := exists_graph hd
    rw [defects, List.append_eq_nil_iff, List.append_eq_nil_iff, List.append_eq_nil_iff] at hd
    obtain ⟨⟨⟨hnodes, hconns⟩, hsinks⟩, -⟩ := hd
    have htypes := types_of_nodeDefects hnodes
    refine ⟨(ids_of_nodeDefects hnodes).1, htypes, fun c hc => ?_,
      (sinks_of_sinkDefects hsinks).1, ?_⟩
    · exact (connectionDefects_eq_nil htypes).1 (List.flatMap_eq_nil_iff.1 hconns c hc)
    · exact Subrelation.wf (joins_edges_of_graph hg).1 (graph_eq_ok hg).1.acyclic
  · intro h
    have hnodes : nodeDefects r [] s.nodes = [] :=
      nodeDefects_eq_nil h.ids (fun _ _ => List.not_mem_nil) h.types
    have hconns : s.connections.flatMap (connectionDefects r s.states) = [] :=
      List.flatMap_eq_nil_iff.2 fun c hc => (connectionDefects_eq_nil h.types).2 (h.admitted c hc)
    have hsinks : sinkDefects [] s.connections = [] :=
      sinkDefects_eq_nil h.sinks fun _ _ => List.not_mem_nil
    -- An end that has a signature is on a listed node, so peeling starts from a full list.
    have hlisted : ∀ u v, s.edges.Joins u v → u ∈ s.nodes.map (·.id) := by
      intro u v huv
      obtain ⟨c, hc, rfl, -⟩ := joins_edges_iff.1 huv
      obtain ⟨out, -, hout, -⟩ := h.admitted c hc
      obtain ⟨state, hstate, -⟩ := Option.bind_eq_some_iff.1 hout
      obtain ⟨n, hn, hid, -⟩ := mem_of_states hstate
      exact List.mem_map.2 ⟨n, hn, hid⟩
    have hcore := leavesCore_of_wellFounded hlisted h.acyclic
    rw [defects_eq]
    simp [hnodes, hconns, hsinks, hcore]

end Snapshot

end Patchbay
