import Patchbay.Proofs.Edits
import Patchbay.Proofs.Flawless

/-!
# Replaying a snapshot

A snapshot can be restored as a whole, or built up by hand on an empty engine: create its nodes
one after another, then make its connections one after another. The first way checks the lists of
the snapshot, the second looks at the graph as it stands before each step. `replay_agrees` says
that the two accept the same snapshots and end with the same wiring, whatever the order in which
the connections are made.

What is proved on the way:
  1. `Wiring.link_link_comm`: connections to different sinks can be added in either order.
  2. `createAll_eq_ok`, `exists_createAll`: when nodes can be created one after another.
  3. `connectAll_eq_ok`, `exists_connectAll`: when connections can be made one after another.
-/

namespace Patchbay

open Relation

/-! ## Wirings do not remember an order -/

namespace Wiring

theorem add_add_comm (s : Roster PortRef) (a b : PortRef) : (s.add a).add b = (s.add b).add a := by
  refine Dict.ext_get? fun k => ?_
  simp only [Roster.add, Dict.get?_insert]
  split <;> split <;> rfl

theorem get?_consumers_link (w : Wiring) (c : Connection) (source : PortRef) :
    (w.link c).consumers.get? source =
      if c.source = source then some ((w.sinksOf source).add c.sink)
      else w.consumers.get? source := by
  simp only [link, Dict.get?_insert, Std.compare_eq_iff_eq]
  split
  · rename_i h
    rw [h]
  · rfl

theorem sinksOf_link (w : Wiring) (c : Connection) (source : PortRef) :
    (w.link c).sinksOf source =
      if c.source = source then (w.sinksOf source).add c.sink else w.sinksOf source := by
  rw [sinksOf, get?_consumers_link]
  split
  · rfl
  · rw [sinksOf]

theorem ext {w w' : Wiring} (hp : ∀ sink, w.producerOf sink = w'.producerOf sink)
    (hc : ∀ source, w.consumers.get? source = w'.consumers.get? source) : w = w' := by
  obtain ⟨producers, consumers⟩ := w
  obtain ⟨producers', consumers'⟩ := w'
  obtain rfl : producers = producers' := Dict.ext_get? hp
  obtain rfl : consumers = consumers' := Dict.ext_get? hc
  rfl

/-- Connections to different sinks can be added in either order. -/
theorem link_link_comm {a b : Connection} (h : a.sink ≠ b.sink) (w : Wiring) :
    (w.link a).link b = (w.link b).link a := by
  refine ext (fun sink => ?_) fun source => ?_
  · simp only [producerOf_link]
    by_cases hb : b.sink = sink
    · have ha : a.sink ≠ sink := fun e => h (e.trans hb.symm)
      simp [hb, ha]
    · simp [hb]
  · simp only [get?_consumers_link, sinksOf_link]
    by_cases ha : a.source = source <;> by_cases hb : b.source = source <;>
      simp [ha, hb, add_add_comm]

/-- Connections that were added one after another lead to different sinks, which were unbound. -/
theorem insertAll_eq_ok {cs : List Connection} {w w' : Wiring}
    (h : cs.foldlM insert w = .ok w') :
    w' = cs.foldl link w ∧ (cs.map (·.sink)).Nodup ∧ ∀ c ∈ cs, w.producerOf c.sink = none := by
  induction cs generalizing w with
  | nil =>
    cases h
    simp
  | cons a rest ih =>
    rw [List.foldlM_cons] at h
    cases hins : w.insert a with
    | error err =>
      rw [hins] at h
      cases h
    | ok w₁ =>
      rw [hins] at h
      obtain ⟨hfree, -, -, rfl⟩ := insert_eq_ok hins
      obtain ⟨hw', hnodup, hrest⟩ := ih h
      -- The sink of the first connection is bound now, so none of the others leads there.
      have hother : ∀ c ∈ rest, a.sink ≠ c.sink ∧ w.producerOf c.sink = none := by
        intro c hc
        have hnone := hrest c hc
        rw [producerOf_link] at hnone
        split at hnone
        · cases hnone
        · exact ⟨‹_›, hnone⟩
      refine ⟨hw', List.nodup_cons.2 ⟨fun hmem => ?_, hnodup⟩,
        List.forall_mem_cons.2 ⟨hfree, fun c hc => (hother c hc).2⟩⟩
      obtain ⟨c, hc, he⟩ := List.mem_map.1 hmem
      exact (hother c hc).1 he.symm

/-- Every order in which connections can be added gives the same wiring. -/
theorem insertAll_perm {cs cs' : List Connection} {w w₁ w₂ : Wiring} (hperm : cs.Perm cs')
    (h : cs.foldlM insert w = .ok w₁) (h' : cs'.foldlM insert w = .ok w₂) : w₁ = w₂ := by
  obtain ⟨h₁, hsinks, -⟩ := insertAll_eq_ok h
  obtain ⟨h₂, -, -⟩ := insertAll_eq_ok h'
  rw [h₁, h₂]
  refine hperm.foldl_eq' (fun a ha b hb w => ?_) w
  by_cases hab : a = b
  · rw [hab]
  · exact link_link_comm (fun e => hab (List.inj_on_of_nodup_map hsinks ha hb e)) w

end Wiring

/-! ## Hooks that keep the ports -/

variable {σ : Type} [NodeState σ]

/-- Reactions to connections keep the ports of a node, with their directions and kinds. -/
def Registry.HooksKeepPorts (r : Registry σ) : Prop :=
  ∀ d state connected port id, r.of? state = some d →
    r.signature? (d.onEdge connected state port) id = r.signature? state id

/-- In a registry where neither directions nor kinds depend on states, hooks keep the ports. -/
theorem Registry.Steady.hooksKeepPorts {r : Registry σ} (hr : r.Steady) (hk : r.KindsSteady) :
    r.HooksKeepPorts := by
  intro d state connected port id hd
  have hshape := hr.hook d state connected port hd
  have hports := hshape.ports d hd id
  rw [signature?, signature?, hshape.of?_eq, hd, Option.bind_some, Option.bind_some]
  cases hp : d.port? state id with
  | none =>
    have hnone : d.hasPort state id = false := by
      rw [Bool.eq_false_iff, ne_eq, Definition.hasPort_iff, hp]
      simp
    rw [hnone] at hports
    cases hq : d.port? (d.onEdge connected state port) id with
    | none => rfl
    | some q =>
      rw [Definition.hasPort_iff.2 ⟨q, hq⟩] at hports
      cases hports
  | some p =>
    rw [Definition.hasPort_iff.2 ⟨p, hp⟩, Definition.hasPort_iff] at hports
    obtain ⟨q, hq⟩ := hports
    rw [hq, Option.map_some, Option.map_some, hr.direction d _ _ _ p q hd hshape.type hp hq,
      hk d _ _ _ p q hd hshape.type hp hq]

namespace Graph

variable {r : Registry σ} {g g₁ g₂ : Graph σ}

/-- The connections and the ports are the same in both graphs. -/
structure SamePorts (r : Registry σ) (g g' : Graph σ) : Prop where
  wiring : g'.wiring = g.wiring
  signature? : ∀ ref, g'.signature? r ref = g.signature? r ref

theorem SamePorts.refl (r : Registry σ) (g : Graph σ) : SamePorts r g g := ⟨rfl, fun _ => rfl⟩

theorem SamePorts.trans (h : SamePorts r g g₁) (h' : SamePorts r g₁ g₂) : SamePorts r g g₂ :=
  ⟨h'.wiring.trans h.wiring, fun ref => (h'.signature? ref).trans (h.signature? ref)⟩

theorem samePorts_of_visited {ids : List NodeId} {visits : NodeId → Nat}
    (h : Visited g ids visits g₁) : SamePorts r g g₁ := by
  refine ⟨h.wiring, fun ref => ?_⟩
  rw [Graph.signature?, Graph.signature?, h.node?]
  cases g.node? ref.node <;> rfl

theorem samePorts_runHook (hr : r.HooksKeepPorts) (connected : Bool) (g : Graph σ)
    (port : PortRef) : SamePorts r g (g.runHook r connected port).1 := by
  unfold runHook
  split
  · exact .refl r g
  · rename_i n hn
    split
    · exact .refl r g
    · rename_i d hd
      refine ⟨rfl, fun ref => ?_⟩
      rw [Graph.signature?, Graph.signature?, node?_modify]
      split
      · rename_i he
        rw [← he, hn]
        exact hr d n.state connected port.port ref.port hd
      · rfl

theorem samePorts_runHooks (hr : r.HooksKeepPorts) (connected : Bool) (g : Graph σ)
    (changed : List NodeId) (ports : List PortRef) :
    SamePorts r g (g.runHooks r connected changed ports).1 := by
  induction ports generalizing g changed with
  | nil => exact .refl r g
  | cons port rest ih => exact (samePorts_runHook hr connected g port).trans (ih _ _)

theorem samePorts_afterEdge (hr : r.HooksKeepPorts) (connected : Bool) (g : Graph σ)
    (hw : g.wiring.Sound) (c : Connection) :
    SamePorts r g (g.afterEdge r connected c).1 := by
  have hhooks := samePorts_runHooks hr connected g [] [c.source, c.sink]
  obtain ⟨visits, hv⟩ := visited_invalidateAll (g.runHooks r connected [] [c.source, c.sink]).1
    (by rwa [hhooks.wiring]) (c.sink.node :: (g.runHooks r connected [] [c.source, c.sink]).2)
  exact hhooks.trans (samePorts_of_visited hv)

end Graph

/-! ## The steps of a replay -/

namespace Engine

variable {e e' : Engine σ}

/-- Create the nodes of a list with their states, one after another. -/
def createAll (e : Engine σ) (nodes : List (Node σ)) : Except Error (Engine σ) :=
  nodes.foldlM (fun e n => e.createWith n.id n.state) e

def connectAll (e : Engine σ) (cs : List Connection) : Except Error (Engine σ) :=
  cs.foldlM (fun e c => (e.connect c.source c.sink).map (·.1)) e

/-- Create nodes, then connect them. -/
def replay (e : Engine σ) (nodes : List (Node σ)) (cs : List Connection) :
    Except Error (Engine σ) := do
  (← e.createAll nodes).connectAll cs

theorem createWith_eq_inserted {id : NodeId} {state : σ} {d : Definition σ}
    (hd : e.registry.of? state = some d) (hnew : e.graph.node? id = none) :
    e.createWith id state = .ok ((e.withGraph (e.graph.inserted id state)).emit
      [.nodeCreated id (NodeState.typeName state)]) := by
  have hhas : e.registry.has (NodeState.typeName state) = true :=
    Option.isSome_iff_exists.2 ⟨d, hd⟩
  have hinsert := Graph.insertNode_eq_insert (g := e.graph) (n := .new id state) hnew
  simp only [createWith, hhas, if_true, hinsert]
  rfl

/-- Nodes that were created one after another had different identities and registered types, and
each is there with its state. -/
theorem createAll_eq_ok {nodes : List (Node σ)} (h : e.createAll nodes = .ok e') :
    e'.registry = e.registry ∧ e'.graph.wiring = e.graph.wiring ∧
      (nodes.map (·.id)).Nodup ∧ (∀ n ∈ nodes, ∃ d, e.registry.of? n.state = some d) ∧
      (∀ n ∈ nodes, e.graph.node? n.id = none) ∧
      ∀ m n, e'.graph.node? m = some n ↔
        e.graph.node? m = some n ∨ ∃ n' ∈ nodes, n'.id = m ∧ n = .new m n'.state := by
  induction nodes generalizing e with
  | nil =>
    cases h
    simp
  | cons a rest ih =>
    rw [createAll, List.foldlM_cons] at h
    cases hcreate : e.createWith a.id a.state with
    | error err =>
      rw [hcreate] at h
      cases h
    | ok e₁ =>
      rw [hcreate] at h
      obtain ⟨hhas, hnew, rfl⟩ := createWith_eq_ok hcreate
      obtain ⟨hregistry, hwiring, hids, htypes, hfree, hnodes⟩ := ih h
      have hother : ∀ n ∈ rest, a.id ≠ n.id ∧ e.graph.node? n.id = none := by
        intro n hn
        have hnone : (e.graph.inserted a.id a.state).node? n.id = none := hfree n hn
        rw [Graph.inserted, Graph.node?_insert] at hnone
        split at hnone
        · cases hnone
        · exact ⟨‹_›, hnone⟩
      refine ⟨hregistry, hwiring, List.nodup_cons.2 ⟨fun hmem => ?_, hids⟩,
        List.forall_mem_cons.2 ⟨Option.isSome_iff_exists.1 hhas, htypes⟩,
        List.forall_mem_cons.2 ⟨hnew, fun n hn => (hother n hn).2⟩, fun m n => ?_⟩
      · obtain ⟨n, hn, he⟩ := List.mem_map.1 hmem
        exact (hother n hn).1 he.symm
      · refine (hnodes m n).trans ?_
        show (e.graph.inserted a.id a.state).node? m = some n ∨ _ ↔ _
        rw [Graph.inserted, Graph.node?_insert]
        by_cases ha : a.id = m
        · subst ha
          simp [hnew, eq_comm]
        · simp [ha]

/-- Nodes of different identities and registered types can be created one after another. -/
theorem exists_createAll {nodes : List (Node σ)} (hids : (nodes.map (·.id)).Nodup)
    (htypes : ∀ n ∈ nodes, ∃ d, e.registry.of? n.state = some d)
    (hnew : ∀ n ∈ nodes, e.graph.node? n.id = none) : ∃ e', e.createAll nodes = .ok e' := by
  induction nodes generalizing e with
  | nil => exact ⟨e, rfl⟩
  | cons a rest ih =>
    obtain ⟨hdiffer, hids⟩ := List.nodup_cons.1 hids
    obtain ⟨⟨d, hd⟩, htypes⟩ := List.forall_mem_cons.1 htypes
    obtain ⟨ha, hrest⟩ := List.forall_mem_cons.1 hnew
    rw [createAll, List.foldlM_cons, createWith_eq_inserted hd ha]
    refine ih hids htypes fun n hn => ?_
    show (e.graph.inserted a.id a.state).node? n.id = none
    rw [Graph.inserted, Graph.node?_insert, if_neg]
    · exact hrest n hn
    · exact fun he => hdiffer (List.mem_map.2 ⟨n, hn, he.symm⟩)

theorem portOn_of_hasPort {r : Registry σ} {g : Graph σ} {ref : PortRef} {p : Port}
    (h : g.HasPort r ref p) : g.portOn r ref p.direction = .ok p := by
  obtain ⟨n, d, hn, hd, hp⟩ := h
  have hget : r.get n.typeName = .ok d := Registry.get_of_of? hd
  simp only [Graph.portOn, Graph.node, hn, bind, Except.bind, hget, hp, if_true]

/-- A connection that is made leads from a source to a sink that it fits. -/
theorem admitted_of_connect {c c' : Connection} (h : e.connect c.source c.sink = .ok (e', c')) :
    c.Admitted (e.graph.signature? e.registry) := by
  unfold connect at h
  cases hp : e.graph.portOn e.registry c.source .source with
  | error err =>
    rw [hp] at h
    cases h
  | ok p =>
    cases hq : e.graph.portOn e.registry c.sink .sink with
    | error err =>
      simp only [hp, hq, bind, Except.bind] at h
      cases h
    | ok q =>
      simp only [hp, hq, bind, Except.bind] at h
      split at h
      · rename_i hfits
        obtain ⟨hp, hpd⟩ := portOn_eq_ok hp
        obtain ⟨hq, hqd⟩ := portOn_eq_ok hq
        exact ⟨p.kind, q.kind, Graph.signature?_eq_some.2 ⟨p, hp, hpd, rfl⟩,
          Graph.signature?_eq_some.2 ⟨q, hq, hqd, rfl⟩, hfits⟩
      · cases h

/-- A connection from a source to a sink that it fits is made if the wiring accepts it. -/
theorem exists_connect {c : Connection} {w : Wiring}
    (hadmitted : c.Admitted (e.graph.signature? e.registry))
    (hinsert : e.graph.wiring.insert c = .ok w) :
    ∃ e', e.connect c.source c.sink = .ok (e', c) := by
  obtain ⟨out, into, hout, hinto, hfits⟩ := hadmitted
  obtain ⟨p, hp, hpd, rfl⟩ := Graph.signature?_eq_some.1 hout
  obtain ⟨q, hq, hqd, rfl⟩ := Graph.signature?_eq_some.1 hinto
  have hp := portOn_of_hasPort hp
  have hq := portOn_of_hasPort hq
  rw [hpd] at hp
  rw [hqd] at hq
  unfold connect
  simp only [hp, hq, bind, Except.bind, hfits, if_true, hinsert]
  exact ⟨_, rfl⟩

/-- What a new connection does besides being there leaves wiring and ports alone. -/
theorem samePorts_connect (hr : e.registry.HooksKeepPorts) (hw : e.graph.wiring.Sound)
    {c c' : Connection} (h : e.connect c.source c.sink = .ok (e', c')) :
    e'.registry = e.registry ∧ ∃ w, e.graph.wiring.insert c = .ok w ∧
      Graph.SamePorts e.registry ⟨e.graph.nodes, w⟩ e'.graph := by
  obtain ⟨rfl, -, w, hinsert, rfl⟩ := connect_eq_ok h
  have hports := Graph.samePorts_afterEdge hr true ⟨e.graph.nodes, w⟩ (hw.insert hinsert) c
  split
  · exact ⟨rfl, w, hinsert, hports⟩
  · exact ⟨rfl, w, hinsert, hports⟩

/-- Connections that were made one after another were admitted at the start, and the wiring has
accepted them one after another. -/
theorem connectAll_eq_ok (hr : e.registry.HooksKeepPorts) (hw : e.graph.wiring.Sound)
    {cs : List Connection} (h : e.connectAll cs = .ok e') :
    (∀ c ∈ cs, c.Admitted (e.graph.signature? e.registry)) ∧
      cs.foldlM Wiring.insert e.graph.wiring = .ok e'.graph.wiring := by
  induction cs generalizing e with
  | nil =>
    cases h
    exact ⟨List.forall_mem_nil _, rfl⟩
  | cons a rest ih =>
    rw [connectAll, List.foldlM_cons] at h
    cases hconnect : e.connect a.source a.sink with
    | error err =>
      rw [hconnect] at h
      cases h
    | ok x =>
      rw [hconnect] at h
      obtain ⟨hregistry, w, hinsert, hports⟩ := samePorts_connect hr hw hconnect
      have hwiring : x.1.graph.wiring = w := hports.wiring
      obtain ⟨hadmitted, hrest⟩ := ih (e := x.1) (by rwa [hregistry])
        (by rw [hwiring]; exact hw.insert hinsert) h
      refine ⟨List.forall_mem_cons.2 ⟨admitted_of_connect hconnect, fun c hc => ?_⟩, ?_⟩
      · have hsame : x.1.graph.signature? x.1.registry = e.graph.signature? e.registry := by
          rw [hregistry]
          exact funext hports.signature?
        exact hsame ▸ hadmitted c hc
      · rw [List.foldlM_cons, hinsert]
        rw [hwiring] at hrest
        exact hrest

/-- Admitted connections that the wiring accepts one after another can be made. -/
theorem exists_connectAll (hr : e.registry.HooksKeepPorts) (hw : e.graph.wiring.Sound)
    {cs : List Connection} {w : Wiring}
    (hadmitted : ∀ c ∈ cs, c.Admitted (e.graph.signature? e.registry))
    (h : cs.foldlM Wiring.insert e.graph.wiring = .ok w) :
    ∃ e', e.connectAll cs = .ok e' := by
  induction cs generalizing e with
  | nil => exact ⟨e, rfl⟩
  | cons a rest ih =>
    obtain ⟨ha, hadmitted⟩ := List.forall_mem_cons.1 hadmitted
    rw [List.foldlM_cons] at h
    cases hinsert : e.graph.wiring.insert a with
    | error err =>
      rw [hinsert] at h
      cases h
    | ok w₁ =>
      rw [hinsert] at h
      obtain ⟨e₁, hconnect⟩ := exists_connect ha hinsert
      obtain ⟨hregistry, w', hinsert', hports⟩ := samePorts_connect hr hw hconnect
      obtain rfl : w₁ = w' := Except.ok.inj (hinsert.symm.trans hinsert')
      have hwiring : e₁.graph.wiring = w₁ := hports.wiring
      have hsame : e₁.graph.signature? e₁.registry = e.graph.signature? e.registry := by
        rw [hregistry]
        exact funext hports.signature?
      rw [connectAll, List.foldlM_cons, hconnect]
      refine ih (e := e₁) (by rwa [hregistry]) ?_ (fun c hc => ?_) ?_
      · rw [hwiring]
        exact hw.insert hinsert
      · rw [hsame]
        exact hadmitted c hc
      · rw [hwiring]
        exact h

/-! ## Replaying and restoring -/

variable {s : Snapshot σ}

/-- On an empty engine every node that was created is the one of the snapshot. -/
theorem signature?_createAll (he : e.graph = .empty) (h : e.createAll s.nodes = .ok e') :
    e'.graph.signature? e'.registry = s.signature? e.registry := by
  obtain ⟨hregistry, -, hids, -, -, hnodes⟩ := createAll_eq_ok h
  funext ref
  have hstate : (e'.graph.node? ref.node).map (·.state) = s.states.get? ref.node := by
    apply Option.ext
    intro state
    rw [Option.map_eq_some_iff]
    constructor
    · rintro ⟨n, hn, rfl⟩
      rcases (hnodes _ n).1 hn with hn | ⟨n', hn', hid, rfl⟩
      · rw [he] at hn
        cases hn
      · rw [← hid]
        exact Snapshot.get?_states hids hn'
    · intro hstate
      obtain ⟨n', hn', hid, rfl⟩ := Snapshot.mem_of_states hstate
      exact ⟨_, (hnodes _ _).2 (.inr ⟨n', hn', hid, rfl⟩), rfl⟩
  rw [Graph.signature?, Snapshot.signature?, ← hstate, hregistry]
  cases e'.graph.node? ref.node <;> rfl

/-- A replay that succeeds shows that nothing is wrong with the snapshot, and its wiring has taken
the connections one after another. -/
theorem flawless_of_replay (hr : e.registry.HooksKeepPorts) (he : e.graph = .empty)
    {order : List Connection} (horder : order.Perm s.connections)
    (h : e.replay s.nodes order = .ok e') :
    s.Flawless e.registry ∧ order.foldlM Wiring.insert .empty = .ok e'.graph.wiring := by
  unfold replay at h
  cases hcreate : e.createAll s.nodes with
  | error err =>
    rw [hcreate] at h
    cases h
  | ok e₁ =>
    rw [hcreate] at h
    have hsignature := signature?_createAll he hcreate
    obtain ⟨hregistry, hwiring, hids, htypes, -, -⟩ := createAll_eq_ok hcreate
    have hempty : e₁.graph.wiring = .empty := by rw [hwiring, he]; rfl
    obtain ⟨hadmitted, hinsert⟩ := connectAll_eq_ok (e := e₁) (by rwa [hregistry])
      (by rw [hempty]; exact .empty) h
    rw [hsignature] at hadmitted
    rw [hempty] at hinsert
    obtain ⟨-, hsinks, -⟩ := Wiring.insertAll_eq_ok hinsert
    obtain ⟨hsound, hmem⟩ := Snapshot.insertConnections_eq_ok Wiring.Sound.empty hinsert
    refine ⟨⟨hids, htypes, fun c hc => hadmitted c (horder.mem_iff.2 hc),
      (horder.map _).nodup_iff.1 hsinks, Subrelation.wf ?_ hsound.acyclic⟩, hinsert⟩
    intro u v huv
    obtain ⟨c, hc, hu, hv⟩ := Snapshot.joins_edges_iff.1 huv
    exact ⟨c, (hmem c).2 (.inr (horder.mem_iff.2 hc)), hu, hv⟩

/-- A snapshot with which nothing is wrong can be replayed in every order. -/
theorem exists_replay (hr : e.registry.HooksKeepPorts) (he : e.graph = .empty)
    (hs : s.Flawless e.registry) {order : List Connection} (horder : order.Perm s.connections) :
    ∃ e', e.replay s.nodes order = .ok e' := by
  obtain ⟨e₁, hcreate⟩ := exists_createAll (e := e) hs.ids hs.types fun n _ => by rw [he]; rfl
  have hsignature := signature?_createAll he hcreate
  obtain ⟨hregistry, hwiring, -⟩ := createAll_eq_ok hcreate
  have hempty : e₁.graph.wiring = .empty := by rw [hwiring, he]; rfl
  obtain ⟨w, hinsert⟩ := Snapshot.exists_insertConnections Wiring.Sound.empty
    (fun v hv => hs.acyclic.transGen.irrefl.irrefl v hv)
    (fun u v hfeeds => absurd hfeeds Wiring.not_feeds_empty)
    (fun c hc => Snapshot.joins_edges (horder.mem_iff.1 hc))
    ((horder.map (·.sink)).nodup_iff.2 hs.sinks) fun c _ => rfl
  obtain ⟨e', hconnect⟩ := exists_connectAll (e := e₁) (by rwa [hregistry])
    (by rw [hempty]; exact .empty)
    (fun c hc => by rw [hsignature]; exact hs.admitted c (horder.mem_iff.1 hc))
    (by rw [hempty]; exact hinsert)
  refine ⟨e', ?_⟩
  rw [replay, hcreate]
  exact hconnect

omit [NodeState σ] in
/-- The wiring that a snapshot describes takes its connections in the order of the list. -/
theorem wiring_of_graph {g : Graph σ} (h : s.graph = .ok g) :
    s.connections.foldlM Wiring.insert .empty = .ok g.wiring := by
  unfold Snapshot.graph at h
  cases hn : s.nodes.foldlM (fun g n => g.insertNode n.restored) Graph.empty with
  | error err =>
    rw [hn] at h
    cases h
  | ok g₁ =>
    obtain ⟨hwiring, -⟩ := Snapshot.insertNodes_eq_ok hn
    simp only [hn, bind, Except.bind, hwiring] at h
    rw [show Graph.empty.wiring = Wiring.empty from rfl] at h
    cases hc : s.connections.foldlM Wiring.insert .empty with
    | error err =>
      rw [hc] at h
      cases h
    | ok w =>
      rw [hc] at h
      cases h
      rfl

/-- A snapshot with which nothing is wrong is restored, with its connections in the order of the
list. -/
theorem exists_restore (hs : s.Flawless e.registry) :
    ∃ e', e.restore s = .ok e' ∧ s.connections.foldlM Wiring.insert .empty = .ok e'.graph.wiring := by
  have hd := Snapshot.defects_eq_nil_iff.2 hs
  obtain ⟨g, hg⟩ := Snapshot.exists_graph hd
  obtain ⟨visits, hv⟩ := Graph.visited_invalidateAll g (Snapshot.graph_eq_ok hg).1
    (g.staleNodes.flatMap g.wiring.downstream)
  rw [restore, hd]
  simp only [hg, bind, Except.bind]
  refine ⟨_, rfl, ?_⟩
  show _ = Except.ok g.normalize.1.wiring
  rw [Graph.normalize, hv.wiring]
  exact wiring_of_graph hg

/-- The check of a whole snapshot and the checks of the single edits agree. The snapshot has no
defects exactly if its nodes can be created on an empty engine and its connections made, in any
order; and then every order can be taken and leads to the wiring that restoring the snapshot
installs. -/
theorem replay_agrees (hr : e.registry.HooksKeepPorts) (he : e.graph = .empty)
    (s : Snapshot σ) {order : List Connection} (horder : order.Perm s.connections) :
    (s.defects e.registry = [] ↔ ∃ e', e.replay s.nodes order = .ok e') ∧
      ∀ e', e.replay s.nodes order = .ok e' →
        (∀ order' : List Connection, order'.Perm s.connections → ∃ e'',
          e.replay s.nodes order' = .ok e'' ∧ e''.graph.wiring = e'.graph.wiring) ∧
        ∀ e₀ : Engine σ, e₀.registry = e.registry → ∃ e'',
          e₀.restore s = .ok e'' ∧ e''.graph.wiring = e'.graph.wiring := by
  rw [Snapshot.defects_eq_nil_iff]
  refine ⟨⟨fun hs => exists_replay hr he hs horder, ?_⟩, fun e' h => ?_⟩
  · rintro ⟨e', h⟩
    exact (flawless_of_replay hr he horder h).1
  · obtain ⟨hs, hinsert⟩ := flawless_of_replay hr he horder h
    constructor
    · intro order' horder'
      obtain ⟨e'', h'⟩ := exists_replay hr he hs horder'
      obtain ⟨-, hinsert'⟩ := flawless_of_replay hr he horder' h'
      exact ⟨e'', h', Wiring.insertAll_perm (horder'.trans horder.symm) hinsert' hinsert⟩
    · intro e₀ he₀
      obtain ⟨e'', h', hinsert'⟩ := exists_restore (e := e₀) (he₀ ▸ hs)
      exact ⟨e'', h', Wiring.insertAll_perm horder.symm hinsert' hinsert⟩

end Engine

namespace Bench

/-- Two labels and a collector, which reads one of them directly and through the other. -/
def crossing : Snapshot BenchNode where
  nodes := [.new "a" (.label "first"), .new "b" (.label "second"), .new "m" (.merge 2)]
  connections := [⟨⟨"a", "output"⟩, ⟨"b", "text"⟩⟩, ⟨⟨"b", "output"⟩, ⟨"m", "in0"⟩⟩,
    ⟨⟨"a", "output"⟩, ⟨"m", "in1"⟩⟩]

/-- Labels whose text follows both their ports still keep the ports, so the three connections can
be made backwards as well. -/
theorem replay_agrees_crossing :
    let e := Engine.new (registry { hookedLabel := true }) default
    e.registry.HooksKeepPorts ∧ e.graph = .empty ∧
      crossing.connections.reverse.Perm crossing.connections ∧
      ∃ e', e.replay crossing.nodes crossing.connections.reverse = .ok e' ∧
        ∃ e'', e.restore crossing = .ok e'' ∧ e''.graph.wiring = e'.graph.wiring := by
  intro e
  have hr : e.registry.HooksKeepPorts :=
    (steady_registry { hookedLabel := true }).hooksKeepPorts (kindsSteady_registry _)
  have horder := crossing.connections.reverse_perm
  obtain ⟨hiff, hsame⟩ := Engine.replay_agrees hr rfl crossing horder
  have hflawless : crossing.defects e.registry = [] := by decide +kernel
  obtain ⟨e', he'⟩ := hiff.1 hflawless
  exact ⟨hr, rfl, horder, e', he', (hsame e' he').2 e rfl⟩

end Bench

end Patchbay
