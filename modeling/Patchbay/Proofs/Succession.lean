import Patchbay.Proofs.Moves
import Patchbay.Proofs.Persistence
import Patchbay.Proofs.Restore
import Patchbay.Proofs.Turns

/-!
# Which nodes are left, and who claimed them

A claim is put on a node by the claiming step of a run and by nothing else. Everything else that
happens leaves at most the nodes that were there, each as it was last claimed, with or without the
claim; new nodes and restored ones are unclaimed. All of this holds whatever the node types do.

What is proved here:
  1. `inherits_turn`: every step of a task but the claim leaves at most the claims that there were.
  2. `Performed.inherits`: so does every operation but the creation of a node and the restoration
     of a snapshot, which `createWith_eq_ok` and `restore_spec` describe.
  3. `World.sound_wiring_after`: in every world that can be reached the wiring is sound.
-/

namespace Patchbay

variable {σ : Type}

/-- One node at two times, with no claim in between. -/
structure Node.Lasts (n n' : Node σ) : Prop where
  id : n'.id = n.id
  run : n'.run = n.run
  claimed : n'.claimed = true → n.claimed = true

namespace Node

theorem Lasts.refl (n : Node σ) : Lasts n n := ⟨rfl, rfl, fun h => h⟩

theorem Lasts.trans {a b c : Node σ} (h : Lasts a b) (h' : Lasts b c) : Lasts a c :=
  ⟨h'.id.trans h.id, h'.run.trans h.run, fun hc => h.claimed (h'.claimed hc)⟩

theorem lasts_of_unclaimed {n n' : Node σ} (hid : n'.id = n.id) (hrun : n'.run = n.run)
    (h : n'.claimed = false) : Lasts n n' :=
  ⟨hid, hrun, fun hc => absurd (h.symm.trans hc) Bool.false_ne_true⟩

theorem lasts_started (n : Node σ) : Lasts n n.started := ⟨rfl, rfl, fun h => h⟩

theorem lasts_released (n : Node σ) (run : Nat) : Lasts n (n.released run) := by
  unfold released
  split
  · exact lasts_of_unclaimed rfl rfl rfl
  · exact .refl n

end Node

namespace Graph

variable {r : Registry σ} {g g₁ g₂ : Graph σ}

/-- Every node of the second graph was in the first one, and was not claimed in between. -/
def Inherits (g g' : Graph σ) : Prop :=
  ∀ m n', g'.node? m = some n' → ∃ n, g.node? m = some n ∧ n.Lasts n'

theorem Inherits.refl (g : Graph σ) : Inherits g g := fun _ n hn => ⟨n, hn, .refl n⟩

theorem Inherits.trans (h : Inherits g g₁) (h' : Inherits g₁ g₂) : Inherits g g₂ := by
  intro m n₂ hn₂
  obtain ⟨n₁, hn₁, hlast'⟩ := h' m n₂ hn₂
  obtain ⟨n, hn, hlast⟩ := h m n₁ hn₁
  exact ⟨n, hn, hlast.trans hlast'⟩

/-- The nodes are inherited, and connected as they were. -/
structure Keeps (g g' : Graph σ) : Prop where
  wiring : g'.wiring = g.wiring
  nodes : g.Inherits g'

theorem Keeps.refl (g : Graph σ) : Keeps g g := ⟨rfl, .refl g⟩

theorem Keeps.trans (h : Keeps g g₁) (h' : Keeps g₁ g₂) : Keeps g g₂ :=
  ⟨h'.wiring.trans h.wiring, h.nodes.trans h'.nodes⟩

theorem keeps_modify {id : NodeId} {f : Node σ → Node σ} (h : ∀ n : Node σ, n.Lasts (f n)) :
    Keeps g (g.modify id f) := by
  refine ⟨rfl, fun m n' hn' => ?_⟩
  rw [node?_modify] at hn'
  split at hn'
  · obtain ⟨n, hn, rfl⟩ := Option.map_eq_some_iff.1 hn'
    exact ⟨n, hn, h n⟩
  · exact ⟨n', hn', .refl n'⟩

/-! ## Traversals and reactions -/

theorem robust_lasts : Node.Robust (Node.Lasts (σ := σ)) where
  refl := .refl
  trans _ _ _ h h' := h.trans h'
  touched _ := ⟨rfl, rfl, fun h => h⟩
  invalidated _ := ⟨rfl, rfl, fun h => h⟩
  stopped _ := ⟨rfl, rfl, fun h => h⟩

theorem inherits_of_rel (h : ∀ m, Option.Rel Node.Lasts (g.node? m) (g₁.node? m)) :
    g.Inherits g₁ := fun m _ hn' => exists_of_rel' (h m) hn'

theorem Each.keeps (h : g.Each Node.Lasts g₁) : g.Keeps g₁ := ⟨h.wiring, inherits_of_rel h.nodes⟩

theorem keeps_invalidate (g : Graph σ) (id : NodeId) : Keeps g (g.invalidate id).1 :=
  (each_invalidate robust_lasts g id).keeps

theorem keeps_invalidateAll (g : Graph σ) (ids : List NodeId) :
    Keeps g (g.invalidateAll ids).1 :=
  (each_invalidateAll robust_lasts g ids).keeps

theorem keeps_stopAll (g : Graph σ) (visited queue : List NodeId) :
    Keeps g (g.stopAll visited queue).1 :=
  (each_stopAll robust_lasts g visited queue).keeps

theorem keeps_block (g : Graph σ) (id : NodeId) (ports : List Port) :
    Keeps g (g.block id ports).1 := by
  have hmark : Keeps g (g.modify id (·.blocked ports)) :=
    keeps_modify fun _ => Node.lasts_of_unclaimed rfl rfl rfl
  have htell := hmark.trans (keeps_invalidate _ id)
  exact htell.trans (keeps_stopAll _ [] _)

theorem keeps_complete (g : Graph σ) (p : Policy) (id : NodeId) (n : Node σ) (state : σ)
    (outputs : Outputs) (upToDate : Bool) :
    Keeps g (g.complete p id n state outputs upToDate).1 := by
  have hwrite : Keeps g (g.modify id (·.completed state outputs upToDate)) :=
    keeps_modify fun _ => Node.lasts_of_unclaimed rfl rfl rfl
  unfold complete
  split
  · exact hwrite.trans (keeps_invalidateAll _ _)
  · exact hwrite

/-! ## Edits -/

variable [NodeState σ]

theorem reactive_lasts (r : Registry σ) : Node.Reactive r (Node.Lasts (σ := σ)) where
  toRobust := robust_lasts
  hook _ _ _ _ _ := ⟨rfl, rfl, fun h => h⟩

theorem keeps_afterEdge (r : Registry σ) (connected : Bool) (g : Graph σ) (c : Connection) :
    Keeps g (g.afterEdge r connected c).1 :=
  (each_afterEdge (reactive_lasts r) connected g c).keeps

theorem keeps_afterRemoval (r : Registry σ) (node : NodeId) (g : Graph σ)
    (changed : List NodeId) (removed : List Connection) :
    Keeps g (g.afterRemoval r node changed removed).1 :=
  (each_afterRemoval (reactive_lasts r) node g changed removed).keeps

/-- What every removal of a connection keeps of a wiring is kept when several are removed. -/
theorem wiring_dropEdges {P : Wiring → Prop}
    (hP : ∀ {w w' : Wiring} {c : Connection}, P w → w.remove c = .ok w' → P w') {node : NodeId}
    {changed : List NodeId} {cs : List Connection} {g' : Graph σ}
    {changed' invalidated : List NodeId}
    (h : g.dropEdges r node changed cs = .ok (g', changed', invalidated)) (hw : P g.wiring) :
    P g'.wiring := by
  induction cs generalizing g changed g' changed' invalidated with
  | nil =>
    cases h
    exact hw
  | cons c rest ih =>
    rw [dropEdges] at h
    split at h
    · cases h
    · rename_i w hremove
      have hedge := keeps_afterEdge r false { g with wiring := w } c
      simp only at h
      split at h
      · cases h
      · rename_i g₂ changed₂ others hrest
        cases h
        refine ih hrest ?_
        rw [hedge.wiring]
        exact hP hw hremove

/-- Taking connections away one after another takes away just these. -/
theorem producerOf_dropEdges {node : NodeId} {changed : List NodeId} {cs : List Connection}
    {g' : Graph σ} {changed' invalidated : List NodeId}
    (h : g.dropEdges r node changed cs = .ok (g', changed', invalidated)) (c : Connection) :
    g'.wiring.producerOf c.sink = some c.source ↔
      g.wiring.producerOf c.sink = some c.source ∧ c ∉ cs := by
  induction cs generalizing g changed g' changed' invalidated with
  | nil =>
    cases h
    simp
  | cons c' rest ih =>
    rw [dropEdges] at h
    split at h
    · cases h
    · rename_i w hremove
      obtain ⟨hc', rfl⟩ := Wiring.remove_eq_ok hremove
      have hedge := keeps_afterEdge r false { g with wiring := g.wiring.cut c' } c'
      simp only at h
      split at h
      · cases h
      · rename_i g₂ changed₂ others hrest
        cases h
        rw [ih hrest, hedge.wiring, Wiring.producerOf_cut_iff hc', List.mem_cons, not_or,
          and_assoc]

end Graph

namespace Engine

open Patchbay.Graph

variable [NodeState σ] {e e' : Engine σ}

structure Stays (e e' : Engine σ) : Prop where
  registry : e'.registry = e.registry
  policy : e'.policy = e.policy
  nextRun : e'.nextRun = e.nextRun
  wiring : e.graph.wiring.Sound → e'.graph.wiring.Sound

structure Inherits (e e' : Engine σ) : Prop extends Stays e e' where
  nodes : e.graph.Inherits e'.graph

omit [NodeState σ] in
theorem Inherits.refl (e : Engine σ) : e.Inherits e := ⟨⟨rfl, rfl, rfl, id⟩, .refl _⟩

omit [NodeState σ] in
theorem inherits_of_keeps {g : Graph σ} {events : List Event} (h : e.graph.Keeps g) :
    e.Inherits ((e.withGraph g).emit events) :=
  ⟨⟨rfl, rfl, rfl, fun hw => h.wiring.symm ▸ hw⟩, h.nodes⟩

/-! ## Operations -/

theorem exists_remove {id : NodeId} {n : Node σ} (hn : e.graph.node? id = some n) :
    ∃ e' cs, e.remove id = .ok (e', cs) := by
  rw [remove, Graph.node, hn]
  exact ⟨_, _, rfl⟩

/-- Removal erases the node and takes its connections away, and what follows keeps the rest. -/
theorem remove_eq_ok {id : NodeId} {cs : List Connection} (h : e.remove id = .ok (e', cs)) :
    Graph.Keeps ⟨e.graph.nodes.erase id, (e.graph.wiring.removeNode id).1⟩ e'.graph ∧
      e'.registry = e.registry ∧ e'.policy = e.policy ∧ e'.nextRun = e.nextRun := by
  obtain ⟨-, rfl⟩ := remove_accounts h
  have hafter := keeps_afterRemoval e.registry id
    ⟨e.graph.nodes.erase id, (e.graph.wiring.removeNode id).1⟩ [] cs
  exact ⟨hafter.trans (keeps_invalidateAll _ _), rfl, rfl, rfl⟩

theorem inherits_remove {id : NodeId} {cs : List Connection} (h : e.remove id = .ok (e', cs)) :
    e.Inherits e' := by
  obtain ⟨hkeeps, hregistry, hpolicy, hnext⟩ := remove_eq_ok h
  refine ⟨⟨hregistry, hpolicy, hnext, fun hw => ?_⟩, Graph.Inherits.trans (fun m n hn => ?_)
    hkeeps.nodes⟩
  · exact hkeeps.wiring.symm ▸ (hw.removeNode id).1
  · rw [node?_erase] at hn
    split at hn
    · cases hn
    · exact ⟨n, hn, .refl n⟩

theorem node?_remove {id : NodeId} {cs : List Connection} (h : e.remove id = .ok (e', cs)) :
    e'.graph.node? id = none := by
  rw [Option.eq_none_iff_forall_ne_some]
  intro n' hn'
  obtain ⟨n, hn, -⟩ := (remove_eq_ok h).1.nodes id n' hn'
  rw [node?_erase, if_pos rfl] at hn
  cases hn

omit [NodeState σ] in
theorem keeps_setState (g : Graph σ) (id : NodeId) (state : σ) :
    g.Keeps (g.setState id state) :=
  keeps_modify fun _ => ⟨rfl, rfl, fun h => h⟩

theorem inherits_replaceState {id : NodeId} {n : Node σ} {d : Definition σ} {state : σ}
    {ids : List NodeId} (h : e.replaceState id n d state = .ok (e', ids)) : e.Inherits e' := by
  obtain ⟨g, changed, others, hdrop, -, rfl⟩ := replaceState_accounts h
  have htold := (keeps_setState e.graph id state).trans (keeps_invalidate _ id)
  have hnodes := inherits_of_rel (rel_dropEdges (reactive_lasts e.registry) hdrop)
  refine ⟨⟨rfl, rfl, rfl, fun hw => ?_⟩, htold.nodes.trans hnodes⟩
  exact wiring_dropEdges (fun hsound hremove => hsound.remove hremove) hdrop
    (htold.wiring.symm ▸ hw)

theorem inherits_update {id : NodeId} {edit : σ → σ} {ids : List NodeId}
    (h : e.update id edit = .ok (e', ids)) : e.Inherits e' := by
  obtain ⟨n, d, -, -, hcases⟩ := update_eq_ok h
  rcases hcases with ⟨-, rfl⟩ | ⟨-, hreplace⟩
  · have hwrite : e.graph.Keeps (e.graph.modify id ({ · with state := edit n.state })) :=
      keeps_modify fun _ => ⟨rfl, rfl, fun h => h⟩
    exact ⟨⟨rfl, rfl, rfl, fun hw => hw⟩, hwrite.nodes⟩
  · exact inherits_replaceState hreplace

omit [NodeState σ] in
theorem inherits_markStale {id : NodeId} {ids : List NodeId}
    (h : e.markStale id = .ok (e', ids)) : e.Inherits e' := by
  obtain ⟨-, rfl⟩ := markStale_accounts h
  exact inherits_of_keeps (keeps_invalidate e.graph id)

theorem inherits_rewire (connected : Bool) {w : Wiring} (c : Connection)
    (hw : e.graph.wiring.Sound → w.Sound) : e.Inherits (e.rewire connected w c) := by
  have hedge := keeps_afterEdge e.registry connected ⟨e.graph.nodes, w⟩ c
  exact ⟨⟨rfl, rfl, rfl, fun h => hedge.wiring ▸ hw h⟩, hedge.nodes⟩

theorem inherits_connect {source sink : PortRef} {c : Connection}
    (h : e.connect source sink = .ok (e', c)) : e.Inherits e' := by
  obtain ⟨-, -, w, hinsert, rfl⟩ := connect_eq_ok h
  have hwired := e.inherits_rewire true c fun hw => hw.insert hinsert
  split
  · exact ⟨⟨hwired.registry, hwired.policy, hwired.nextRun, hwired.wiring⟩, hwired.nodes⟩
  · exact hwired

theorem inherits_disconnect {source sink : PortRef} {c : Connection}
    (h : e.disconnect source sink = .ok (e', c)) : e.Inherits e' := by
  obtain ⟨-, w, hremove, rfl⟩ := disconnect_eq_ok h
  exact e.inherits_rewire false c fun hw => hw.remove hremove

theorem stays_createWith {id : NodeId} {state : σ} (h : e.createWith id state = .ok e') :
    e.Stays e' := by
  obtain ⟨-, -, rfl⟩ := createWith_eq_ok h
  exact ⟨rfl, rfl, rfl, fun hw => hw⟩

/-- A restored node is one of the snapshot. Its last claim is the one that it was saved with, and
nobody has it. -/
theorem restore_spec {s : Snapshot σ} (h : e.restore s = .ok e') :
    e.Stays e' ∧ ∀ m n, e'.graph.node? m = some n →
      n.claimed = false ∧ ∃ n₀ ∈ s.nodes, n₀.id = m ∧ n₀.run = n.run := by
  obtain ⟨g, hg, rfl⟩ := exists_graph_of_restore h
  obtain ⟨hsound, hnodes, -⟩ := Snapshot.graph_eq_ok hg
  have hnormal := keeps_invalidateAll g (g.staleNodes.flatMap g.wiring.downstream)
  refine ⟨⟨rfl, rfl, rfl, fun _ => ?_⟩, fun m n hn => ?_⟩
  · exact hnormal.wiring.symm ▸ hsound
  · obtain ⟨n₁, hn₁, hlast⟩ := hnormal.nodes m n hn
    obtain ⟨n₀, hn₀, hid, rfl⟩ := (hnodes m n₁).1 hn₁
    refine ⟨?_, n₀, hn₀, hid, hlast.run.symm⟩
    exact Bool.eq_false_iff.2 fun hclaimed => Bool.false_ne_true (hlast.claimed hclaimed)

theorem Performed.inherits {m : Move σ} (h : e.Performed m e') :
    e.Inherits e' ∨ (∃ id state, e.createWith id state = .ok e') ∨
      ∃ s, m = .restore s ∧ e.restore s = .ok e' := by
  cases h with
  | nothing m => exact .inl (.refl e)
  | created m e' id state h => exact .inr (.inl ⟨id, state, h⟩)
  | removed e' id cs h => exact .inl (inherits_remove h)
  | updated e' id edit ids h => exact .inl (inherits_update h)
  | marked e' id ids h => exact .inl (inherits_markStale h)
  | connected e' source sink c h => exact .inl (inherits_connect h)
  | disconnected e' source sink c h => exact .inl (inherits_disconnect h)
  | restored e' s h => exact .inr (.inr ⟨s, rfl, h⟩)

theorem Performed.stays {m : Move σ} (h : e.Performed m e') : e.Stays e' := by
  rcases h.inherits with hinherits | ⟨id, state, hcreate⟩ | ⟨s, -, hrestore⟩
  · exact hinherits.toStays
  · exact stays_createWith hcreate
  · exact (restore_spec hrestore).1

/-! ## Connections -/

theorem within_remove {id : NodeId} {cs : List Connection} (hw : e.graph.wiring.Sound)
    (h : e.remove id = .ok (e', cs)) : e'.graph.wiring.Within e.graph.wiring := by
  rw [(remove_eq_ok h).1.wiring]
  exact hw.within_removeNode id

theorem within_update {id : NodeId} {edit : σ → σ} {ids : List NodeId}
    (h : e.update id edit = .ok (e', ids)) : e'.graph.wiring.Within e.graph.wiring := by
  obtain ⟨n, d, -, -, hcases⟩ := update_eq_ok h
  rcases hcases with ⟨-, rfl⟩ | ⟨-, hreplace⟩
  · exact .refl _
  · obtain ⟨g, changed, others, hdrop, -, rfl⟩ := replaceState_accounts hreplace
    have htold := (keeps_setState e.graph id (edit n.state)).trans (keeps_invalidate _ id)
    refine wiring_dropEdges (fun hless hremove => (Wiring.within_remove hremove).trans hless) hdrop ?_
    exact fun c hc => htold.wiring ▸ hc

theorem wiring_rewire (e : Engine σ) (connected : Bool) (w : Wiring) (c : Connection) :
    (e.rewire connected w c).graph.wiring = w :=
  (keeps_afterEdge e.registry connected ⟨e.graph.nodes, w⟩ c).wiring

theorem within_disconnect {source sink : PortRef} {c : Connection}
    (h : e.disconnect source sink = .ok (e', c)) :
    e'.graph.wiring.Within e.graph.wiring := by
  obtain ⟨-, w, hremove, rfl⟩ := disconnect_eq_ok h
  rw [wiring_rewire]
  exact Wiring.within_remove hremove

theorem link_connect {source sink : PortRef} {c : Connection}
    (h : e.connect source sink = .ok (e', c)) :
    e'.graph.wiring = e.graph.wiring.link ⟨source, sink⟩ := by
  obtain ⟨rfl, -, w, hinsert, rfl⟩ := connect_eq_ok h
  obtain ⟨-, -, -, rfl⟩ := Wiring.insert_eq_ok hinsert
  split
  · exact e.wiring_rewire true _ _
  · exact e.wiring_rewire true _ _

/-- No operation but a connection and the restoration of a snapshot adds connections. -/
theorem Performed.within {m : Move σ} (h : e.Performed m e') (hm : m.isRestore = false)
    (hw : e.graph.wiring.Sound) : e'.graph.wiring.Within e.graph.wiring ∨
      ∃ source sink c, m = .connect source sink ∧ e.connect source sink = .ok (e', c) := by
  cases h with
  | nothing m => exact .inl (.refl _)
  | created m e' id state h =>
    obtain ⟨-, -, rfl⟩ := createWith_eq_ok h
    exact .inl (.refl _)
  | removed e' id cs h => exact .inl (within_remove hw h)
  | updated e' id edit ids h => exact .inl (within_update h)
  | marked e' id ids h =>
    obtain ⟨-, rfl⟩ := markStale_accounts h
    have hwiring := (keeps_invalidate e.graph id).wiring
    exact .inl fun c hc => hwiring ▸ hc
  | connected e' source sink c h => exact .inr ⟨source, sink, c, rfl, h⟩
  | disconnected e' source sink c h => exact .inl (within_disconnect h)
  | restored e' s h => cases hm

/-! ## Steps -/

omit [NodeState σ] in
theorem Same.inherits (h : e.Same e') : e.Inherits e' :=
  ⟨⟨h.registry, h.policy, h.nextRun, fun hw => h.graph.symm ▸ hw⟩, h.graph.symm ▸ .refl _⟩

theorem inherits_commitOutputs (e : Engine σ) (id : NodeId) (n : Node σ) (epoch : Nat)
    (d : Definition σ) (outputs : Outputs) : e.Inherits (e.commitOutputs id n epoch d outputs) := by
  obtain ⟨hregistry, hpolicy, hgraph, hnext⟩ := commitOutputs_spec e id n epoch d outputs
  have hkeeps := keeps_complete e.graph e.policy id n (d.applyResult n.state outputs) outputs
    (n.epoch == epoch)
  rw [← hgraph] at hkeeps
  exact ⟨⟨hregistry, hpolicy, hnext, fun hw => hkeeps.wiring.symm ▸ hw⟩, hkeeps.nodes⟩

omit [NodeState σ] in
theorem inherits_begin (e : Engine σ) (id : NodeId) (events : List Event) :
    e.Inherits ((e.withGraph (e.graph.modify id Node.started)).emit events) :=
  inherits_of_keeps (keeps_modify Node.lasts_started)

omit [NodeState σ] in
theorem inherits_commitFailure (e : Engine σ) (id : NodeId) (err : Error) :
    e.Inherits (e.commitFailure id err) := by
  have hmark : e.graph.Keeps (e.graph.modify id (·.failed err.message)) :=
    keeps_modify fun _ => Node.lasts_of_unclaimed rfl rfl rfl
  exact inherits_of_keeps (hmark.trans (keeps_invalidate _ id))

omit [NodeState σ] in
theorem inherits_release (e : Engine σ) (id : NodeId) (run : Nat) :
    e.Inherits (e.release id run) := by
  have hkeeps : e.graph.Keeps (e.graph.modify id (·.released run)) :=
    keeps_modify fun n => n.lasts_released run
  exact ⟨⟨rfl, rfl, rfl, fun hw => hw⟩, hkeeps.nodes⟩

theorem inherits_turn {top : Frame σ} {rest new : List (Frame σ)} (h : Turn e top rest e' new) :
    e.Inherits e' ∨ (∃ id, top = .run id .entering ∧ e' = e.enter.1) ∨
      ∃ id run n, top = .run id (.claiming run) ∧ e.graph.node? id = some n ∧
        n.claimed = false ∧ e' = e.withGraph (e.graph.modify id (·.taken run)) := by
  cases h with
  | enter id rest => exact .inr (.inl ⟨id, rfl, rfl⟩)
  | claim id run rest n hn hfree => exact .inr (.inr ⟨id, run, n, rfl, hn, hfree, rfl⟩)
  | list id run rest => exact .inl (.refl e)
  | pull id run p todo rest => exact .inl (.refl e)
  | block id run rest n d events hn hrun hd hinputs =>
    exact .inl (inherits_of_keeps (keeps_block e.graph id _))
  | begin id run rest n d inputs hn hrun hd hinputs =>
    exact .inl (e.inherits_begin id [.nodeStarted id])
  | finish id run epoch rest n d context outputs hn hrun hclaimed =>
    exact .inl (e.inherits_commitOutputs id n epoch d outputs)
  | fail id run epoch rest d context cause n hn hrun hclaimed =>
    exact .inl (e.inherits_commitFailure id _)
  | release id run ending rest => exact .inl (e.inherits_release id run)
  | pass top rest e' new hpass => exact .inl hpass.same.inherits

theorem wiring_turn {top : Frame σ} {rest new : List (Frame σ)} (h : Turn e top rest e' new) :
    e'.graph.wiring = e.graph.wiring := by
  cases h with
  | block id run rest n d events hn hrun hd hinputs => exact (keeps_block e.graph id _).wiring
  | finish id run epoch rest n d context outputs hn hrun hclaimed =>
    obtain ⟨-, -, hgraph, -⟩ := commitOutputs_spec e id n epoch d outputs
    rw [hgraph]
    exact (keeps_complete _ _ _ _ _ _ _).wiring
  | fail id run epoch rest d context cause n hn hrun hclaimed => exact (keeps_invalidate _ id).wiring
  | pass top rest e' new hpass => exact congrArg Graph.wiring hpass.same.graph
  | _ => rfl

theorem registry_turn {top : Frame σ} {rest new : List (Frame σ)} (h : Turn e top rest e' new) :
    e'.registry = e.registry ∧ e'.policy = e.policy := by
  rcases inherits_turn h with hinherits | ⟨id, -, rfl⟩ | ⟨id, run, n, -, -, -, rfl⟩
  · exact ⟨hinherits.registry, hinherits.policy⟩
  · exact ⟨rfl, rfl⟩
  · exact ⟨rfl, rfl⟩

theorem sound_wiring_turn {top : Frame σ} {rest new : List (Frame σ)} (h : Turn e top rest e' new)
    (hw : e.graph.wiring.Sound) : e'.graph.wiring.Sound := by
  rcases inherits_turn h with hinherits | ⟨id, -, rfl⟩ | ⟨id, run, n, -, -, -, rfl⟩
  · exact hinherits.wiring hw
  · exact hw
  · exact hw

end Engine

theorem World.wiring_stepTask [NodeState σ] (w : World σ) (task : Nat) :
    (w.stepTask task).engine.graph.wiring = w.engine.graph.wiring := by
  rcases w.stepTask_eq task with heq | ⟨top, rest, e, new, -, hturn, heq⟩
  · rw [heq]
  · have hwiring := Engine.wiring_turn hturn
    rw [heq]
    exact hwiring

theorem Engine.sound_wiring [NodeState σ] (r : Registry σ) (p : Policy) :
    Invariant r p fun e _ => e.graph.wiring.Sound where
  start := .empty
  same h hsame := hsame.graph.symm ▸ h
  idle h _ := h
  performed h hperformed := hperformed.stays.wiring h
  turn h hturn := Engine.sound_wiring_turn hturn h
  progress _ h := h

theorem World.sound_wiring_after [NodeState σ] (r : Registry σ) (p : Policy)
    (moves : List (Move σ)) : (after r p moves).engine.graph.wiring.Sound :=
  (Engine.sound_wiring r p).after moves

end Patchbay
