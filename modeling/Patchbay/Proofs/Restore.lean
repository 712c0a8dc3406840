import Patchbay.Engine.Restore
import Patchbay.Proofs.Normalization
import Patchbay.Proofs.Peeling

/-!
# What a restored graph is like

A snapshot without defects is a whole graph, whatever it was made from, and after stale nodes
have had their consumers marked, staleness is closed downstream.

What is proved here:
  1. `graph_eq_ok`: the nodes and connections of the graph that a snapshot describes.
  2. `exists_graph`: a snapshot without defects describes a graph.
  3. `restore_eq_ok`: a restored graph is whole and closed, and no node of it is claimed.
-/

namespace Patchbay

open Relation

variable {σ : Type} [NodeState σ]

namespace Snapshot

variable {r : Registry σ} {s : Snapshot σ} {g g' : Graph σ}

/-! ## Nodes and connections -/

omit [NodeState σ] in
/-- Nodes inserted one after another are all there, each under its own identity. -/
theorem insertNodes_eq_ok {nodes : List (Node σ)}
    (h : nodes.foldlM (fun g n => g.insertNode n.restored) g = .ok g') :
    g'.wiring = g.wiring ∧ ∀ m n, g'.node? m = some n ↔
      g.node? m = some n ∨ ∃ n' ∈ nodes, n'.id = m ∧ n'.restored = n := by
  induction nodes generalizing g with
  | nil =>
    cases h
    simp
  | cons a rest ih =>
    rw [List.foldlM_cons] at h
    cases hins : g.insertNode a.restored with
    | error err =>
      rw [hins] at h
      cases h
    | ok g₁ =>
      rw [hins] at h
      obtain ⟨hnew, rfl⟩ := Graph.insertNode_eq_ok hins
      obtain ⟨hwiring, hnodes⟩ := ih h
      refine ⟨hwiring, fun m n => ?_⟩
      rw [hnodes, Graph.node?_insert]
      have hid : a.restored.id = a.id := rfl
      rw [hid] at hnew ⊢
      by_cases ha : a.id = m
      · subst ha
        rw [if_pos rfl, hnew]
        simp
      · rw [if_neg ha]
        simp [ha]

/-- Connections inserted one after another are all there, and the wiring stays sound. -/
theorem insertConnections_eq_ok {cs : List Connection} {w w' : Wiring} (hw : w.Sound)
    (h : cs.foldlM Wiring.insert w = .ok w') :
    w'.Sound ∧ ∀ c : Connection, w'.producerOf c.sink = some c.source ↔
      w.producerOf c.sink = some c.source ∨ c ∈ cs := by
  induction cs generalizing w with
  | nil =>
    cases h
    exact ⟨hw, by simp⟩
  | cons a rest ih =>
    rw [List.foldlM_cons] at h
    cases hins : w.insert a with
    | error err =>
      rw [hins] at h
      cases h
    | ok w₁ =>
      rw [hins] at h
      obtain ⟨hsound, hmem⟩ := ih (hw.insert hins) h
      obtain ⟨hfree, -, -, rfl⟩ := Wiring.insert_eq_ok hins
      refine ⟨hsound, fun c => ?_⟩
      rw [hmem, Wiring.producerOf_link, List.mem_cons]
      by_cases hs : a.sink = c.sink
      · rw [if_pos hs]
        constructor
        · intro hor
          rcases hor with he | hc
          · exact .inr (.inl (Connection.ext (Option.some.inj he).symm hs.symm))
          · exact .inr (.inr hc)
        · intro hor
          rcases hor with hc | rfl | hc
          · rw [← hs, hfree] at hc
            cases hc
          · exact .inl rfl
          · exact .inr hc
      · rw [if_neg hs]
        have hne : c ≠ a := fun e => hs (by rw [e])
        simp [hne]

omit [NodeState σ] in
theorem graph_eq_ok (h : s.graph = .ok g) :
    g.wiring.Sound ∧
      (∀ m n, g.node? m = some n ↔ ∃ n' ∈ s.nodes, n'.id = m ∧ n'.restored = n) ∧
      ∀ c : Connection, g.wiring.producerOf c.sink = some c.source ↔ c ∈ s.connections := by
  unfold graph at h
  cases hn : s.nodes.foldlM (fun g n => g.insertNode n.restored) Graph.empty with
  | error err =>
    rw [hn] at h
    cases h
  | ok g₁ =>
    simp only [hn, bind, Except.bind] at h
    cases hc : s.connections.foldlM Wiring.insert g₁.wiring with
    | error err =>
      rw [hc] at h
      cases h
    | ok w =>
      rw [hc] at h
      cases h
      obtain ⟨hwiring, hnodes⟩ := insertNodes_eq_ok hn
      rw [hwiring] at hc
      obtain ⟨hsound, hmem⟩ := insertConnections_eq_ok Wiring.Sound.empty hc
      refine ⟨hsound, fun m n => (hnodes m n).trans ?_, fun c => (hmem c).trans ?_⟩
      · simp [Graph.empty, Graph.node?]
      · simp [Wiring.empty, Wiring.producerOf]

omit [NodeState σ] in
/-- Nodes of different identities, none of which is there yet, can all be inserted. -/
theorem exists_insertNodes {nodes : List (Node σ)} (hids : (nodes.map (·.id)).Nodup)
    (hnew : ∀ n ∈ nodes, g.node? n.id = none) :
    ∃ g', nodes.foldlM (fun g n => g.insertNode n.restored) g = .ok g' := by
  induction nodes generalizing g with
  | nil => exact ⟨g, rfl⟩
  | cons a rest ih =>
    rw [List.map_cons, List.nodup_cons] at hids
    obtain ⟨ha, hrest⟩ := List.forall_mem_cons.1 hnew
    have hinsert := Graph.insertNode_eq_insert (n := a.restored) ha
    rw [List.foldlM_cons, hinsert]
    refine ih hids.2 fun n hn => ?_
    rw [Graph.node?_insert, if_neg]
    · exact hrest n hn
    · intro he
      exact hids.1 (List.mem_map.2 ⟨n, hn, he.symm⟩)

/-- Connections that lead in no circle, to different sinks that are unbound yet, can all be
inserted, in whatever order they are listed. -/
theorem exists_insertConnections {cs : List Connection} {w : Wiring} (hw : w.Sound)
    {R : NodeId → NodeId → Prop} (hacyclic : ∀ v, ¬ TransGen R v v)
    (hfeeds : ∀ u v, w.Feeds u v → R u v) (hcs : ∀ c ∈ cs, R c.source.node c.sink.node)
    (hsinks : (cs.map (·.sink)).Nodup) (hfree : ∀ c ∈ cs, w.producerOf c.sink = none) :
    ∃ w', cs.foldlM Wiring.insert w = .ok w' := by
  induction cs generalizing w with
  | nil => exact ⟨w, rfl⟩
  | cons a rest ih =>
    rw [List.map_cons, List.nodup_cons] at hsinks
    obtain ⟨ha, hrest⟩ := List.forall_mem_cons.1 hfree
    obtain ⟨hRa, hRrest⟩ := List.forall_mem_cons.1 hcs
    have hopen : ¬ ReflTransGen w.Feeds a.sink.node a.source.node := by
      intro hpath
      exact hacyclic _ (TransGen.head' hRa (ReflTransGen.mono hfeeds _ _ hpath))
    have hinsert := hw.insert_eq_link ha hopen
    rw [List.foldlM_cons, hinsert]
    refine ih (hw.insert hinsert) (fun u v huv => ?_) hRrest hsinks.2 fun c hc => ?_
    · rcases Wiring.feeds_link huv with ⟨rfl, rfl⟩ | huv
      · exact hRa
      · exact hfeeds u v huv
    · rw [Wiring.producerOf_link, if_neg]
      · exact hrest c hc
      · intro he
        exact hsinks.1 (List.mem_map.2 ⟨c, hc, he.symm⟩)

/-! ## Defects -/

theorem types_of_nodeDefects {seen : List NodeId} {nodes : List (Node σ)}
    (h : nodeDefects r seen nodes = []) :
    ∀ n ∈ nodes, ∃ d, r.of? n.state = some d := by
  induction nodes generalizing seen with
  | nil => simp
  | cons a rest ih =>
    rw [nodeDefects, List.append_eq_nil_iff, List.append_eq_nil_iff] at h
    obtain ⟨⟨-, htype⟩, hrest⟩ := h
    intro n hn
    rcases List.mem_cons.1 hn with rfl | hn
    · split at htype
      · rename_i hhas
        exact Option.isSome_iff_exists.1 hhas
      · cases htype
    · exact ih hrest n hn

theorem not_mem_of_report {κ δ : Type} [BEq κ] [LawfulBEq κ] {seen : List κ} {k : κ} {d : δ}
    (h : (if seen.contains k then [d] else []) = []) : k ∉ seen := by
  intro hmem
  rw [if_pos (List.contains_iff_mem.2 hmem)] at h
  cases h

/-- One more member whose key has not been seen: the keys stay different. -/
theorem distinct_cons {α κ : Type} {key : α → κ} {seen : List κ} {a : α} {rest : List α}
    (ha : key a ∉ seen)
    (h : (rest.map key).Nodup ∧ ∀ b ∈ rest, key b ∉ key a :: seen) :
    ((a :: rest).map key).Nodup ∧ ∀ b ∈ a :: rest, key b ∉ seen := by
  obtain ⟨hnodup, hlater⟩ := h
  refine ⟨List.nodup_cons.2 ⟨fun hmem => ?_, hnodup⟩, List.forall_mem_cons.2 ⟨ha, ?_⟩⟩
  · obtain ⟨b, hb, he⟩ := List.mem_map.1 hmem
    exact hlater b hb (he ▸ List.mem_cons_self)
  · exact fun b hb hmem => hlater b hb (List.mem_cons_of_mem _ hmem)

theorem ids_of_nodeDefects {seen : List NodeId} {nodes : List (Node σ)}
    (h : nodeDefects r seen nodes = []) :
    (nodes.map (·.id)).Nodup ∧ ∀ n ∈ nodes, n.id ∉ seen := by
  induction nodes generalizing seen with
  | nil => simp
  | cons a rest ih =>
    rw [nodeDefects, List.append_eq_nil_iff, List.append_eq_nil_iff] at h
    obtain ⟨⟨hseen, -⟩, hrest⟩ := h
    exact distinct_cons (not_mem_of_report hseen) (ih hrest)

omit [NodeState σ] in
/-- Connections of which no sink is reported lead to different sinks. -/
theorem sinks_of_sinkDefects {bound : List PortRef} {cs : List Connection}
    (h : sinkDefects bound cs = []) :
    (cs.map (·.sink)).Nodup ∧ ∀ c ∈ cs, c.sink ∉ bound := by
  induction cs generalizing bound with
  | nil => simp
  | cons a rest ih =>
    rw [sinkDefects, List.append_eq_nil_iff] at h
    obtain ⟨hbound, hrest⟩ := h
    exact distinct_cons (not_mem_of_report hbound) (ih hrest)

omit [NodeState σ] in
theorem joins_edges {c : Connection} (hc : c ∈ s.connections) :
    s.edges.Joins c.source.node c.sink.node :=
  List.mem_eraseDups.2 (List.mem_map.2 ⟨c, hc, rfl⟩)

theorem exists_graph (hd : s.defects r = []) : ∃ g, s.graph = .ok g := by
  rw [defects, List.append_eq_nil_iff, List.append_eq_nil_iff, List.append_eq_nil_iff] at hd
  obtain ⟨⟨⟨hnodes, -⟩, hsinks⟩, hcycle⟩ := hd
  have hcore : leavesCore (s.nodes.map (·.id)) s.edges = false := by
    cases hleaves : leavesCore (s.nodes.map (·.id)) s.edges with
    | false => rfl
    | true =>
      rw [hleaves] at hcycle
      cases hcycle
  obtain ⟨g, hg⟩ := exists_insertNodes (g := Graph.empty) (ids_of_nodeDefects hnodes).1
    fun n _ => rfl
  obtain ⟨hwiring, -⟩ := insertNodes_eq_ok hg
  obtain ⟨w, hw⟩ := exists_insertConnections Wiring.Sound.empty (acyclic_of_leavesCore hcore)
    (fun u v hfeeds => absurd hfeeds Wiring.not_feeds_empty) (fun c hc => joins_edges hc)
    (sinks_of_sinkDefects hsinks).1 fun c _ => rfl
  refine ⟨{ g with wiring := w }, ?_⟩
  rw [graph, hg]
  simp only [bind, Except.bind, hwiring]
  rw [show Graph.empty.wiring = Wiring.empty from rfl, hw]
  rfl

/-- An end that passed its check is a port of a node of the graph. -/
theorem hasPort_of_checkEnd (hnodes : ∀ n ∈ s.nodes, g.node? n.id = some n.restored)
    {c : Connection} {ref : PortRef} {dir : Direction} {kind : DataKind}
    (h : checkEnd r (Dict.ofList (s.nodes.map fun n => (n.id, n.state))) c ref dir = .ok kind) :
    ∃ p, g.HasPort r ref p ∧ p.direction = dir ∧ p.kind = kind := by
  unfold checkEnd at h
  split at h
  · cases h
  · rename_i state hstate
    obtain ⟨n, hn, he⟩ := List.mem_map.1 (Dict.mem_of_ofList hstate)
    obtain ⟨hid, rfl⟩ := Prod.mk.inj he
    split at h
    · cases h
    · rename_i d hd
      split at h
      · cases h
      · rename_i p hp
        split at h
        · rename_i hdir
          cases h
          refine ⟨p, ⟨n.restored, d, ?_, hd, hp⟩, hdir, rfl⟩
          rw [← hid, hnodes n hn]
        · cases h

/-- If every type is registered, an end that fails its check has a defect. -/
theorem checkEnd_ne_nil (htypes : ∀ n ∈ s.nodes, ∃ d, r.of? n.state = some d)
    {c : Connection} {ref : PortRef} {dir : Direction} :
    checkEnd r (Dict.ofList (s.nodes.map fun n => (n.id, n.state))) c ref dir ≠ .error [] := by
  intro h
  unfold checkEnd at h
  split at h
  · cases h
  · rename_i state hstate
    obtain ⟨n, hn, he⟩ := List.mem_map.1 (Dict.mem_of_ofList hstate)
    obtain ⟨-, rfl⟩ := Prod.mk.inj he
    split at h
    · rename_i hnone
      obtain ⟨d, hd⟩ := htypes n hn
      rw [Registry.of?, hnone] at hd
      cases hd
    · split at h
      · cases h
      · split at h <;> cases h

theorem joined_of_connectionDefects (htypes : ∀ n ∈ s.nodes, ∃ d, r.of? n.state = some d)
    (hnodes : ∀ n ∈ s.nodes, g.node? n.id = some n.restored) {c : Connection}
    (h : connectionDefects r (Dict.ofList (s.nodes.map fun n => (n.id, n.state))) c = []) :
    g.Joined r c := by
  unfold connectionDefects at h
  split at h
  · rename_i a b ha hb
    split at h
    · rename_i hfits
      obtain ⟨p, hp, hpd, rfl⟩ := hasPort_of_checkEnd hnodes ha
      obtain ⟨q, hq, hqd, rfl⟩ := hasPort_of_checkEnd hnodes hb
      exact ⟨p, q, hp, hq, hpd, hqd, fun _ => hfits⟩
    · cases h
  · rename_i a b ha hb
    rw [(List.append_eq_nil_iff.1 h).1] at ha
    exact absurd ha (checkEnd_ne_nil htypes)
  · rename_i a b ha hb
    rw [h] at ha
    exact absurd ha (checkEnd_ne_nil htypes)
  · rename_i a b ha hb
    rw [h] at hb
    exact absurd hb (checkEnd_ne_nil htypes)

theorem whole_graph (hd : s.defects r = []) (h : s.graph = .ok g) : g.Whole r := by
  obtain ⟨hsound, hnodes, hmem⟩ := graph_eq_ok h
  rw [defects, List.append_eq_nil_iff, List.append_eq_nil_iff, List.append_eq_nil_iff] at hd
  obtain ⟨⟨⟨htypes, hconns⟩, -⟩, -⟩ := hd
  have htypes := types_of_nodeDefects htypes
  have hlisted : ∀ n ∈ s.nodes, g.node? n.id = some n.restored :=
    fun n hn => (hnodes n.id n.restored).2 ⟨n, hn, rfl, rfl⟩
  refine ⟨hsound, fun m n hn => ?_, fun c hc => ?_⟩
  · obtain ⟨n', hn', -, rfl⟩ := (hnodes m n).1 hn
    exact htypes n' hn'
  · exact joined_of_connectionDefects htypes hlisted
      (List.flatMap_eq_nil_iff.1 hconns c ((hmem c).1 hc))

end Snapshot

/-! ## Restoring -/

namespace Engine

open Patchbay.Graph

variable {e e' : Engine σ}

theorem defects_of_restore {s : Snapshot σ} (h : e.restore s = .ok e') :
    s.defects e.registry = [] := by
  unfold restore at h
  split at h
  · assumption
  · cases h

/-- A snapshot that is restored describes a graph, and the new graph is that one normalized. -/
theorem exists_graph_of_restore {s : Snapshot σ} (h : e.restore s = .ok e') :
    ∃ g, s.graph = .ok g ∧ e' =
      ((e.withGraph g.normalize.1).emit (Event.invalidated g.normalize.2)).notify := by
  unfold restore at h
  split at h
  · cases hg : s.graph with
    | error err =>
      rw [hg] at h
      cases h
    | ok g =>
      rw [hg] at h
      cases h
      exact ⟨g, rfl, rfl⟩
  · cases h

theorem restore_eq_ok {s : Snapshot σ} (hr : e.registry.Steady) (h : e.restore s = .ok e') :
    e'.registry = e.registry ∧ e'.policy = e.policy ∧ e'.nextRun = e.nextRun ∧
      e'.graph.Whole e.registry ∧ e'.graph.Closed ∧
      ∀ m n, e'.graph.node? m = some n → n.claimed = false := by
  have hdefects := defects_of_restore h
  obtain ⟨g, hg, rfl⟩ := exists_graph_of_restore h
  have hwhole := Snapshot.whole_graph hdefects hg
  obtain ⟨visits, hv⟩ := visited_invalidateAll g hwhole.wiring
    (g.staleNodes.flatMap g.wiring.downstream)
  refine ⟨rfl, rfl, rfl, hwhole.of_visited hr hv, closed_normalize hwhole, fun m n' hn' => ?_⟩
  change g.normalize.1.node? m = some n' at hn'
  rw [Graph.normalize, hv.node?, Option.map_eq_some_iff] at hn'
  obtain ⟨n, hn, rfl⟩ := hn'
  obtain ⟨n₀, -, -, rfl⟩ := ((Snapshot.graph_eq_ok hg).2.1 m n).1 hn
  rfl

end Engine

end Patchbay
