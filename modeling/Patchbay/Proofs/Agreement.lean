import Patchbay.Proofs.Footprint
import Patchbay.Proofs.Recomputation

/-!
# Graphs that agree

What a step of a run does depends on the nodes that feed its node, on the node itself and on the
nodes below it. If two graphs agree on these, but for the numbers of the runs that claimed them
last, they agree on them after the step as well. So the step cannot tell what else is going on.

A run recognizes its node by its own number. So each of the two runs has to have its node.

What is proved here:
  1. `AgreesOn.spread`, `AgreesOn.stopAll`: traversals keep the agreement.
  2. `Engine.AgreesOn.stepRun`, `Engine.AgreesOn.step`: so does every step of a run.
  3. `Frame.Owned.turn`: a run keeps the node that it has claimed.
-/

namespace Patchbay

open Relation

variable {σ : Type}

/-! ## The same but for numbers -/

/-- The same node, but that another run may have been the last to claim it. -/
def Node.Renumbered (n n' : Node σ) : Prop := ∃ k, n' = { n with run := k }

def Phase.renumbered (k : Nat) : Phase σ → Phase σ
  | .claiming _ => .claiming k
  | .listing _ => .listing k
  | .pulling _ todo => .pulling k todo
  | .computing _ epoch d context c => .computing k epoch d context c
  | .releasing _ ending => .releasing k ending
  | phase => phase

def Frame.renumbered (k : Nat) : Frame σ → Frame σ
  | .run id phase => .run id (phase.renumbered k)
  | f => f

/-- The same level, but that its run may have another number. -/
def Frame.Renumbered (f f' : Frame σ) : Prop := ∃ k, f' = f.renumbered k

theorem Node.Renumbered.refl (n : Node σ) : n.Renumbered n := ⟨n.run, rfl⟩

theorem Node.Renumbered.symm {n n' : Node σ} (h : n.Renumbered n') : n'.Renumbered n := by
  obtain ⟨k, rfl⟩ := h
  exact ⟨n.run, rfl⟩

theorem Node.Renumbered.trans {n n' n'' : Node σ} (h : n.Renumbered n') (h' : n'.Renumbered n'') :
    n.Renumbered n'' := by
  obtain ⟨k, rfl⟩ := h
  obtain ⟨k', rfl⟩ := h'
  exact ⟨k', rfl⟩

theorem Node.Renumbered.released {n n' : Node σ} (h : n.Renumbered n') :
    (n.released n.run).Renumbered (n'.released n'.run) := by
  obtain ⟨k, rfl⟩ := h
  refine ⟨k, ?_⟩
  cases hclaimed : n.claimed <;> simp [Node.released, hclaimed]

namespace Graph

/-- The graphs have the same connections and, among these, the same nodes but for numbers. -/
structure AgreesOn (g : Graph σ) (A : Set NodeId) (g' : Graph σ) : Prop where
  wiring : g'.wiring = g.wiring
  nodes : ∀ m ∈ A, Option.Rel Node.Renumbered (g.node? m) (g'.node? m)

variable {g g' g₁ : Graph σ} {A B : Set NodeId} {id : NodeId}

theorem rel_symm {R : Node σ → Node σ → Prop} (hR : ∀ a b, R a b → R b a) {x y : Option (Node σ)}
    (h : Option.Rel R x y) : Option.Rel R y x := by
  cases h with
  | none => exact .none
  | some h => exact .some (hR _ _ h)

theorem rel_map {R R' : Node σ → Node σ → Prop} {x y : Option (Node σ)} (h : Option.Rel R x y)
    {f f' : Node σ → Node σ} (hf : ∀ a b, x = some a → y = some b → R a b → R' (f a) (f' b)) :
    Option.Rel R' (x.map f) (y.map f') := by
  cases h with
  | none => exact .none
  | some h => exact .some (hf _ _ rfl rfl h)

namespace AgreesOn

theorem refl (g : Graph σ) (A : Set NodeId) : g.AgreesOn A g :=
  ⟨rfl, fun _ _ => rel_refl .refl _⟩

theorem symm (h : g.AgreesOn A g') : g'.AgreesOn A g :=
  ⟨h.wiring.symm, fun m hm => rel_symm (fun _ _ => .symm) (h.nodes m hm)⟩

theorem trans (h : g.AgreesOn A g') (h' : g'.AgreesOn A g₁) : g.AgreesOn A g₁ :=
  ⟨h'.wiring.trans h.wiring, fun m hm =>
    rel_trans (fun _ _ _ => .trans) (h.nodes m hm) (h'.nodes m hm)⟩

theorem mono (h : g.AgreesOn A g') (hsub : B ⊆ A) : g.AgreesOn B g' :=
  ⟨h.wiring, fun m hm => h.nodes m (hsub hm)⟩

theorem modify (h : g.AgreesOn A g') {f f' : Node σ → Node σ}
    (hf : ∀ n n', g.node? id = some n → g'.node? id = some n' → n.Renumbered n' →
      (f n).Renumbered (f' n')) : (g.modify id f).AgreesOn A (g'.modify id f') := by
  refine ⟨h.wiring, fun m hm => ?_⟩
  rw [node?_modify, node?_modify]
  split
  · rename_i heq
    subst heq
    exact rel_map (h.nodes id hm) hf
  · exact h.nodes m hm

theorem modify_same (h : g.AgreesOn A g') {f : Node σ → Node σ}
    (hf : ∀ n k, f { n with run := k } = { f n with run := k }) :
    (g.modify id f).AgreesOn A (g'.modify id f) := by
  refine h.modify fun n n' _ _ hn => ?_
  obtain ⟨k, rfl⟩ := hn
  exact ⟨k, hf n k⟩

end AgreesOn

/-! ## Traversals -/

theorem spread_absent (queue : List NodeId) (h : g.node? id = none) :
    g.spread (id :: queue) = g.spread queue := by
  rw [spread]
  split
  · rfl
  · rename_i hn
    rw [h] at hn
    cases hn

theorem spread_stale {n : Node σ} (queue : List NodeId) (h : g.node? id = some n)
    (hs : n.stale = true) : g.spread (id :: queue) = (g.modify id .touched).spread queue := by
  rw [spread]
  split
  · rename_i hn
    rw [h] at hn
    cases hn
  · rename_i hn
    rw [h] at hn
    cases hn
    rw [dif_pos hs]

theorem spread_fresh {n : Node σ} (queue : List NodeId) (h : g.node? id = some n)
    (hs : ¬ n.stale = true) {after : Graph σ} {flipped : List NodeId}
    (hrest : (g.modify id .invalidated).spread (queue ++ g.wiring.downstream id) =
      (after, flipped)) : g.spread (id :: queue) = (after, id :: flipped) := by
  rw [spread]
  split
  · rename_i hn
    rw [h] at hn
    cases hn
  · rename_i hn
    rw [h] at hn
    cases hn
    rw [dif_neg hs, hrest]

theorem stopAll_visited {visited : List NodeId} (queue : List NodeId)
    (h : visited.contains id = true) :
    g.stopAll visited (id :: queue) = g.stopAll visited queue := by
  rw [stopAll, dif_pos h]

theorem stopAll_absent {visited : List NodeId} (queue : List NodeId)
    (hnot : ¬ visited.contains id = true) (h : g.node? id = none) :
    g.stopAll visited (id :: queue) = g.stopAll (id :: visited) queue := by
  rw [stopAll, dif_neg hnot, h]

theorem stopAll_present {visited : List NodeId} (queue : List NodeId) {n : Node σ}
    (hnot : ¬ visited.contains id = true) (h : g.node? id = some n) {after : Graph σ}
    {touched : List NodeId}
    (hrest : (g.modify id .stopped).stopAll (id :: visited) (queue ++ g.wiring.downstream id) =
      (after, touched)) : g.stopAll visited (id :: queue) = (after, id :: touched) := by
  rw [stopAll, dif_neg hnot, h]
  dsimp only
  rw [hrest]

namespace AgreesOn

theorem node?_eq_none (h : g.AgreesOn A g') (hid : id ∈ A) (hn : g.node? id = none) :
    g'.node? id = none := by
  have hrel := h.nodes id hid
  rw [hn] at hrel
  generalize g'.node? id = x at hrel
  cases hrel
  rfl

theorem node?_eq_some (h : g.AgreesOn A g') (hid : id ∈ A) {n : Node σ}
    (hn : g.node? id = some n) : ∃ k, g'.node? id = some { n with run := k } := by
  obtain ⟨n', hn', k, rfl⟩ := exists_of_rel (h.nodes id hid) hn
  exact ⟨k, hn'⟩

theorem below_downstream (hw : g.wiring.Sound) {queue : List NodeId}
    (hbelow : ∀ u ∈ id :: queue, ∀ v, ReflTransGen g.wiring.Feeds u v → v ∈ A) :
    ∀ u ∈ queue ++ g.wiring.downstream id, ∀ v, ReflTransGen g.wiring.Feeds u v → v ∈ A := by
  intro u hu v hv
  rcases List.mem_append.1 hu with hu | hu
  · exact hbelow u (List.mem_cons_of_mem _ hu) v hv
  · exact hbelow id List.mem_cons_self v (.head (hw.mem_downstream.1 hu) hv)

/-- An invalidation of nodes whose consumers are all among those that the graphs agree on. -/
theorem spread {queue : List NodeId} (h : g.AgreesOn A g') (hw : g.wiring.Sound)
    (hbelow : ∀ u ∈ queue, ∀ v, ReflTransGen g.wiring.Feeds u v → v ∈ A) :
    (g.spread queue).1.AgreesOn A (g'.spread queue).1 := by
  fun_induction Graph.spread g queue generalizing g' with
  | case1 g =>
    rw [Graph.spread]
    exact h
  | case2 g id queue hn ih =>
    have hid : id ∈ A := hbelow id List.mem_cons_self id .refl
    rw [spread_absent queue (h.node?_eq_none hid hn)]
    exact ih h hw fun u hu => hbelow u (List.mem_cons_of_mem _ hu)
  | case3 g id queue n hn hstale ih =>
    have hid : id ∈ A := hbelow id List.mem_cons_self id .refl
    obtain ⟨k, hn'⟩ := h.node?_eq_some hid hn
    rw [spread_stale queue hn' hstale]
    exact ih (h.modify_same fun _ _ => rfl) hw fun u hu => hbelow u (List.mem_cons_of_mem _ hu)
  | case4 g id queue n hn hstale g₁ flipped heq ih =>
    have hid : id ∈ A := hbelow id List.mem_cons_self id .refl
    obtain ⟨k, hn'⟩ := h.node?_eq_some hid hn
    rw [spread_fresh queue hn' hstale rfl, h.wiring]
    rw [heq] at ih
    exact ih (h.modify_same fun _ _ => rfl) hw (below_downstream hw hbelow)

theorem invalidate (h : g.AgreesOn A g') (hw : g.wiring.Sound)
    (hbelow : ∀ v, ReflTransGen g.wiring.Feeds id v → v ∈ A) :
    (g.invalidate id).1.AgreesOn A (g'.invalidate id).1 :=
  h.spread hw (List.forall_mem_singleton.2 hbelow)

theorem invalidateAll {ids : List NodeId} (h : g.AgreesOn A g') (hw : g.wiring.Sound)
    (hbelow : ∀ u ∈ ids, ∀ v, ReflTransGen g.wiring.Feeds u v → v ∈ A) :
    (g.invalidateAll ids).1.AgreesOn A (g'.invalidateAll ids).1 := by
  induction ids generalizing g g' with
  | nil => exact h
  | cons id rest ih =>
    obtain ⟨hid, hrest⟩ := List.forall_mem_cons.1 hbelow
    have hsame : (g.invalidate id).1.wiring = g.wiring := (keeps_invalidate g id).wiring
    exact ih (h.invalidate hw hid) (hsame.symm ▸ hw) (hsame.symm ▸ hrest)

/-- The stop sign of a node whose consumers are all among those that the graphs agree on. -/
theorem stopAll {visited queue : List NodeId} (h : g.AgreesOn A g') (hw : g.wiring.Sound)
    (hbelow : ∀ u ∈ queue, ∀ v, ReflTransGen g.wiring.Feeds u v → v ∈ A) :
    (g.stopAll visited queue).1.AgreesOn A (g'.stopAll visited queue).1 := by
  fun_induction Graph.stopAll g visited queue generalizing g' with
  | case1 g visited =>
    rw [Graph.stopAll]
    exact h
  | case2 g visited id queue hmem ih =>
    rw [stopAll_visited queue hmem]
    exact ih h hw fun u hu => hbelow u (List.mem_cons_of_mem _ hu)
  | case3 g visited id queue hmem hn ih =>
    have hid : id ∈ A := hbelow id List.mem_cons_self id .refl
    rw [stopAll_absent queue hmem (h.node?_eq_none hid hn)]
    exact ih h hw fun u hu => hbelow u (List.mem_cons_of_mem _ hu)
  | case4 g visited id queue hmem n hn g₁ touched heq ih =>
    have hid : id ∈ A := hbelow id List.mem_cons_self id .refl
    obtain ⟨k, hn'⟩ := h.node?_eq_some hid hn
    rw [stopAll_present queue hmem hn' rfl, h.wiring]
    rw [heq] at ih
    exact ih (h.modify_same fun _ _ => rfl) hw (below_downstream hw hbelow)

theorem blockBelow (h : g.AgreesOn A g') (hw : g.wiring.Sound)
    (hbelow : ∀ v, ReflTransGen g.wiring.Feeds id v → v ∈ A) :
    (g.blockBelow id).1.AgreesOn A (g'.blockBelow id).1 := by
  rw [Graph.blockBelow, Graph.blockBelow, h.wiring]
  exact h.stopAll hw fun u hu v hv => hbelow v (.head (hw.mem_downstream.1 hu) hv)

theorem block (h : g.AgreesOn A g') (hw : g.wiring.Sound)
    (hbelow : ∀ v, ReflTransGen g.wiring.Feeds id v → v ∈ A) (ports : List Port) :
    (g.block id ports).1.AgreesOn A (g'.block id ports).1 := by
  have hmark : (g.modify id (·.blocked ports)).AgreesOn A (g'.modify id (·.blocked ports)) :=
    h.modify_same fun _ _ => rfl
  have hsame : ((g.modify id (·.blocked ports)).invalidate id).1.wiring = g.wiring :=
    (keeps_invalidate _ id).wiring
  exact (hmark.invalidate hw hbelow).blockBelow (hsame.symm ▸ hw) (hsame.symm ▸ hbelow)

theorem complete (h : g.AgreesOn A g') (hw : g.wiring.Sound)
    (hbelow : ∀ v, ReflTransGen g.wiring.Feeds id v → v ∈ A) (p : Policy) {n n' : Node σ}
    (hn : n.Renumbered n') (state : σ) (outputs : Outputs) (upToDate : Bool) :
    (g.complete p id n state outputs upToDate).1.AgreesOn A
      (g'.complete p id n' state outputs upToDate).1 := by
  obtain ⟨k, rfl⟩ := hn
  have hmark : (g.modify id (·.completed state outputs upToDate)).AgreesOn A
      (g'.modify id (·.completed state outputs upToDate)) := h.modify_same fun _ _ => rfl
  have hsame' := hmark.wiring
  rw [Graph.complete, Graph.complete]
  dsimp only
  rw [hsame']
  split
  · exact hmark.invalidateAll hw fun u hu v hv => hbelow v (.head (hw.mem_downstream.1 hu) hv)
  · exact hmark

theorem freshValue?_eq (h : g.AgreesOn A g') {source : PortRef} (hsource : source.node ∈ A) :
    g'.freshValue? source = g.freshValue? source := by
  rw [freshValue?, freshValue?]
  cases hn : g.node? source.node with
  | none => rw [h.node?_eq_none hsource hn]
  | some n =>
    obtain ⟨k, hn'⟩ := h.node?_eq_some hsource hn
    rw [hn', Option.filter_some, Option.filter_some]
    cases n.stale <;> rfl

/-- What a node reads whose producers are among those that the graphs agree on. -/
theorem resolve_eq (h : g.AgreesOn A g') (hfed : ∀ u, g.wiring.Feeds u id → u ∈ A)
    (ports : List Port) : g'.resolve id ports = g.resolve id ports := by
  rw [resolve, resolve, h.wiring]
  refine Wiring.gather_congr fun port source hs => h.freshValue?_eq (hfed _ ?_)
  exact ⟨⟨source, ⟨id, port⟩⟩, hs, rfl, rfl⟩

end AgreesOn

end Graph

/-! ## Runs -/

/-- The set has the node, all that feeds it, and all that is below it. -/
structure Wiring.Spans (w : Wiring) (A : Set NodeId) (id : NodeId) : Prop where
  fed : ∀ u, w.Feeds u id → u ∈ A
  below : ∀ v, ReflTransGen w.Feeds id v → v ∈ A

/-- The run was the last to claim its node, if it has claimed it at all. -/
def Frame.Owned (g : Graph σ) (f : Frame σ) : Prop :=
  ∀ id run, f.claim? = some (id, run) → ∃ n, g.ownedNode? id run = some n

/-- The engines work alike, and their graphs agree. -/
structure Engine.AgreesOn (e : Engine σ) (A : Set NodeId) (e' : Engine σ) : Prop where
  registry : e'.registry = e.registry
  policy : e'.policy = e.policy
  graph : e.graph.AgreesOn A e'.graph

namespace Engine.AgreesOn

open Patchbay.Graph

variable {e e' : Engine σ} {A : Set NodeId} {id : NodeId} {run k : Nat}

theorem ownedNode? (h : e.AgreesOn A e') (hid : id ∈ A) {n n' : Node σ}
    (hn : e.graph.ownedNode? id run = some n) (hn' : e'.graph.ownedNode? id k = some n') :
    n.Renumbered n' := by
  obtain ⟨hn, -⟩ := ownedNode?_eq_some.1 hn
  obtain ⟨hn', -⟩ := ownedNode?_eq_some.1 hn'
  obtain ⟨n₁, hn₁, hrenumbered⟩ := exists_of_rel (h.graph.nodes id hid) hn
  rw [hn'] at hn₁
  cases hn₁
  exact hrenumbered

theorem claim (h : e.AgreesOn A e') (run k : Nat) (hid : id ∈ A) :
    (e.claim id run).1.AgreesOn A (e'.claim id k).1 ∧
      (e'.claim id k).2 = (e.claim id run).2.renumbered k := by
  cases hn : e.graph.node? id with
  | none =>
    simp only [Engine.claim, hn, h.graph.node?_eq_none hid hn]
    exact ⟨h, rfl⟩
  | some n =>
    obtain ⟨k', hn'⟩ := h.graph.node?_eq_some hid hn
    simp only [Engine.claim, hn, hn']
    cases n.claimed with
    | true => exact ⟨h, rfl⟩
    | false =>
      refine ⟨⟨h.registry, h.policy, h.graph.modify fun n n' _ _ hn => ?_⟩, rfl⟩
      obtain ⟨k', rfl⟩ := hn
      exact ⟨k, rfl⟩

variable [NodeState σ]

theorem toPull_eq (h : e.AgreesOn A e') (hfed : ∀ u, e.graph.wiring.Feeds u id → u ∈ A) :
    e'.toPull id = e.toPull id := by
  rw [toPull, toPull, h.graph.wiring, h.registry]
  refine List.filter_congr fun u hu => ?_
  have hu : u ∈ A := hfed u (Wiring.mem_feeders.1 hu)
  cases hn : e.graph.node? u with
  | none => rw [h.graph.node?_eq_none hu hn]
  | some n =>
    obtain ⟨k, hn'⟩ := h.graph.node?_eq_some hu hn
    rw [hn']
    rfl

theorem resolve (h : e.AgreesOn A e') (hw : e.graph.wiring.Sound)
    (hspans : e.graph.wiring.Spans A id) {n n' : Node σ}
    (hn : e.graph.ownedNode? id run = some n) (hn' : e'.graph.ownedNode? id k = some n') :
    (e.resolve id run).1.AgreesOn A (e'.resolve id k).1 ∧
      (e'.resolve id k).2 = (e.resolve id run).2.renumbered k := by
  obtain ⟨k', rfl⟩ := h.ownedNode? (hspans.below id .refl) hn hn'
  have hget : e'.registry.get (Node.typeName { n with run := k' }) = e.registry.get n.typeName := by
    rw [h.registry]
    rfl
  simp only [Engine.resolve, hn, hn', hget]
  cases e.registry.get n.typeName with
  | error err => exact ⟨h, rfl⟩
  | ok d =>
    simp only [h.graph.resolve_eq hspans.fed]
    cases e.graph.resolve id (d.ports n.state) with
    | none => exact ⟨⟨h.registry, h.policy, h.graph.block hw hspans.below _⟩, rfl⟩
    | some inputs =>
      exact ⟨⟨h.registry, h.policy, h.graph.modify_same fun _ _ => rfl⟩, rfl⟩

theorem commitOutputs (h : e.AgreesOn A e') (hw : e.graph.wiring.Sound)
    (hbelow : ∀ v, ReflTransGen e.graph.wiring.Feeds id v → v ∈ A) {n n' : Node σ}
    (hn : n.Renumbered n') (epoch : Nat) (d : Definition σ) (outputs : Outputs) :
    (e.commitOutputs id n epoch d outputs).AgreesOn A
      (e'.commitOutputs id n' epoch d outputs) := by
  obtain ⟨hregistry, hpolicy, hgraph, -⟩ := commitOutputs_spec e id n epoch d outputs
  obtain ⟨hregistry', hpolicy', hgraph', -⟩ := commitOutputs_spec e' id n' epoch d outputs
  refine ⟨hregistry'.trans (h.registry.trans hregistry.symm),
    hpolicy'.trans (h.policy.trans hpolicy.symm), ?_⟩
  rw [hgraph, hgraph', h.policy]
  obtain ⟨k, rfl⟩ := hn
  exact h.graph.complete hw hbelow _ ⟨k, rfl⟩ _ _ _

theorem commit (h : e.AgreesOn A e') (hw : e.graph.wiring.Sound)
    (hbelow : ∀ v, ReflTransGen e.graph.wiring.Feeds id v → v ∈ A) {n n' : Node σ}
    (hn : e.graph.ownedNode? id run = some n) (hn' : e'.graph.ownedNode? id k = some n')
    (epoch : Nat) (d : Definition σ) (result : Except Failure Outputs) :
    (e.commit id run epoch d result).1.AgreesOn A (e'.commit id k epoch d result).1 ∧
      (e'.commit id k epoch d result).2 = (e.commit id run epoch d result).2.renumbered k := by
  obtain ⟨k', rfl⟩ := h.ownedNode? (hbelow id .refl) hn hn'
  cases hclaimed : n.claimed with
  | false =>
    simp only [Engine.commit, hn, hn', Option.filter_some, hclaimed, Bool.false_eq_true, if_false]
    exact ⟨⟨h.registry, h.policy, h.graph⟩, rfl⟩
  | true =>
    simp only [Engine.commit, hn, hn', Option.filter_some, hclaimed, if_true]
    cases result with
    | ok outputs =>
      have hrenumbered : n.Renumbered { n with run := k' } := ⟨k', rfl⟩
      rw [hclaimed] at hrenumbered
      exact ⟨h.commitOutputs hw hbelow hrenumbered epoch d outputs, rfl⟩
    | error cause =>
      let f : Node σ → Node σ := (·.failed (Error.executionFailed id cause).message)
      have hmark : (e.graph.modify id f).AgreesOn A (e'.graph.modify id f) :=
        h.graph.modify_same fun _ _ => rfl
      exact ⟨⟨h.registry, h.policy, hmark.invalidate hw hbelow⟩, rfl⟩

omit [NodeState σ] in
theorem release (h : e.AgreesOn A e') {n n' : Node σ}
    (hn : e.graph.ownedNode? id run = some n) (hn' : e'.graph.ownedNode? id k = some n') :
    (e.release id run).AgreesOn A (e'.release id k) := by
  refine ⟨h.registry, h.policy, h.graph.modify fun m m' hm hm' hrenumbered => ?_⟩
  obtain ⟨hnode, rfl⟩ := ownedNode?_eq_some.1 hn
  obtain ⟨hnode', rfl⟩ := ownedNode?_eq_some.1 hn'
  rw [hnode] at hm
  rw [hnode'] at hm'
  cases hm
  cases hm'
  exact hrenumbered.released

end Engine.AgreesOn

/-- The engines agree, and the levels are the same but for the numbers of their runs. -/
structure InStep (A : Set NodeId) (x y : Engine σ × Stack σ) : Prop where
  engine : x.1.AgreesOn A y.1
  levels : List.Forall₂ Frame.Renumbered x.2 y.2

section

variable {e e' : Engine σ} {A : Set NodeId} {id : NodeId} {rest rest' new new' : Stack σ}

theorem InStep.single (h : e.AgreesOn A e') {f f' : Frame σ} {k : Nat} (hf : f' = f.renumbered k) :
    InStep A (e, [f]) (e', [f']) :=
  ⟨h, .cons ⟨k, hf⟩ .nil⟩

variable [NodeState σ]

/-- Engines that agree on all that feeds a node and all that is below it take the same step of a
run of this node. -/
theorem InStep.stepRun (h : e.AgreesOn A e') (hw : e.graph.wiring.Sound)
    (hspans : e.graph.wiring.Spans A id) (phase : Phase σ) (k : Nat)
    (hown : (Frame.run id phase).Owned e.graph)
    (hown' : (Frame.run id (phase.renumbered k)).Owned e'.graph) :
    Option.Rel (InStep A) (e.stepRun id phase) (e'.stepRun id (phase.renumbered k)) := by
  cases phase with
  | entering =>
    refine .some (.single ?_ (k := e'.nextRun) rfl)
    exact ⟨h.registry, h.policy, h.graph⟩
  | claiming run =>
    obtain ⟨hengine, hphase⟩ := h.claim run k (hspans.below id .refl)
    exact .some (.single hengine (congrArg (Frame.run id) hphase))
  | listing run =>
    refine .some (.single h (k := k) ?_)
    rw [h.toPull_eq hspans.fed]
    rfl
  | pulling run todo =>
    cases todo with
    | nil =>
      obtain ⟨n, hn⟩ := hown id run rfl
      obtain ⟨n', hn'⟩ := hown' id k rfl
      obtain ⟨hengine, hphase⟩ := h.resolve hw hspans hn hn'
      exact .some (.single hengine (congrArg (Frame.run id) hphase))
    | cons p todo => exact .some ⟨h, .cons ⟨k, rfl⟩ (.cons ⟨k, rfl⟩ .nil)⟩
  | computing run epoch d context c =>
    cases c with
    | done result =>
      obtain ⟨n, hn⟩ := hown id run rfl
      obtain ⟨n', hn'⟩ := hown' id k rfl
      obtain ⟨hengine, hphase⟩ := h.commit hw hspans.below hn hn' epoch d result
      exact .some (.single hengine (congrArg (Frame.run id) hphase))
    | _ => exact .none
  | releasing run ending =>
    obtain ⟨n, hn⟩ := hown id run rfl
    obtain ⟨n', hn'⟩ := hown' id k rfl
    exact .some (.single (h.release hn hn') (k := k) rfl)
  | ended ending => exact .none
  | _ =>
    refine .some (.single ?_ (k := k) rfl)
    exact ⟨h.registry, h.policy, h.graph⟩

theorem Engine.step_run {phase : Phase σ} (hphase : ∀ ending, phase ≠ .ended ending) :
    e.step (.run id phase :: rest) = (e.stepRun id phase).map fun (e, top) => (e, top ++ rest) := by
  cases phase with
  | ended ending => exact absurd rfl (hphase ending)
  | _ => rfl

/-- A run that has ended is left behind, unless it has found its node claimed. -/
theorem Engine.step_ended {ending : Ending} (hending : ending ≠ .ok .alreadyRunning) (f : Frame σ) :
    e.step (.run id (.ended ending) :: f :: rest) = some (e, f :: rest) := by
  rw [Engine.step]
  rintro outer phase heq
  exact absurd heq hending

theorem InStep.step {s s' : Stack σ} (h : InStep A (e, s) (e', s')) (hw : e.graph.wiring.Sound)
    (hruns : ∀ f ∈ s, ∃ id phase, f = .run id phase ∧ e.graph.wiring.Spans A id)
    (hown : ∀ f ∈ s, f.Owned e.graph) (hown' : ∀ f ∈ s', f.Owned e'.graph) :
    Option.Rel (InStep A) (e.step s) (e'.step s') := by
  obtain ⟨hengine, hlevels⟩ := h
  cases hlevels with
  | nil => exact .none
  | @cons top top' rest rest' htop hrest =>
    obtain ⟨k, rfl⟩ := htop
    obtain ⟨id, phase, rfl, hspans⟩ := hruns top List.mem_cons_self
    by_cases hended : ∃ ending, phase = .ended ending
    · obtain ⟨ending, rfl⟩ := hended
      show Option.Rel _ _ (e'.step (.run id (.ended ending) :: rest'))
      cases hrest with
      | nil =>
        rw [Engine.step_of_isOver (.inr ⟨id, ending, rfl⟩),
          Engine.step_of_isOver (.inr ⟨id, ending, rfl⟩)]
        exact .none
      | @cons f f' rest rest' hf hrest =>
        obtain ⟨outer, phase, rfl, -⟩ := hruns f (List.mem_cons_of_mem _ List.mem_cons_self)
        by_cases hbusy : ending = .ok .alreadyRunning
        · obtain ⟨k', rfl⟩ := hf
          subst hbusy
          exact .some ⟨hengine, .cons ⟨k, rfl⟩ (.cons ⟨k', rfl⟩ hrest)⟩
        · rw [Engine.step_ended hbusy, Engine.step_ended hbusy]
          exact .some ⟨hengine, .cons hf hrest⟩
    · have hnot : ∀ ending, phase ≠ .ended ending := fun ending heq => hended ⟨ending, heq⟩
      have hnot' : ∀ ending, phase.renumbered k ≠ .ended ending := by
        intro ending heq
        cases phase <;> first
          | exact hnot _ heq
          | cases heq
      have hstep := InStep.stepRun hengine hw hspans phase k
        (hown _ List.mem_cons_self) (hown' _ List.mem_cons_self)
      rw [Engine.step_run hnot, Frame.renumbered, Engine.step_run hnot']
      generalize e.stepRun id phase = x at hstep ⊢
      generalize e'.stepRun id (phase.renumbered k) = y at hstep ⊢
      cases hstep with
      | none => exact .none
      | some hxy => exact .some ⟨hxy.engine, List.rel_append hxy.levels hrest⟩

end

/-! ## A run keeps its node -/

theorem Node.robust_run : Node.Robust fun n n' : Node σ => n'.run = n.run where
  refl _ := rfl
  trans _ _ _ h h' := h'.trans h
  touched _ := rfl
  invalidated _ := rfl
  stopped _ := rfl

section

variable [NodeState σ] {e e' : Engine σ} {top f : Frame σ} {rest new : Stack σ}

theorem Frame.claim?_turn (hturn : Turn e top rest e' new) :
    (∃ id run, top = .run id (.claiming run)) ∨
      ∀ f ∈ new, ∀ c, f.claim? = some c → top.claim? = some c := by
  cases hturn with
  | enter id rest => exact .inr (List.forall_mem_singleton.2 nofun)
  | claim id run rest n hn hfree => exact .inl ⟨id, run, rfl⟩
  | pull id run p todo rest =>
    exact .inr (List.forall_mem_cons.2 ⟨nofun, List.forall_mem_singleton.2 fun _ hc => hc⟩)
  | release id run ending rest => exact .inr (List.forall_mem_singleton.2 nofun)
  | pass top rest e' new hpass =>
    cases hpass with
    | quit id run phase rest e' ending hsame hbeat hphase hend hlost =>
      refine .inr (List.forall_mem_singleton.2 fun c hc => ?_)
      rcases hphase with rfl | ⟨epoch, d, context, result, rfl⟩ <;> exact hc
    | drop | arrive | forget => exact .inr (List.forall_mem_nil _)
    | _ => exact .inr (List.forall_mem_singleton.2 nofun)
  | _ => exact .inr (List.forall_mem_singleton.2 fun _ hc => hc)

/-- Only a claim takes a node from the run that claimed it last. -/
theorem Frame.Owned.other (h : f.Owned e.graph) (hturn : Turn e top rest e' new)
    (hother : ∀ id run k, top = .run id (.claiming run) → f.claim? ≠ some (id, k)) :
    f.Owned e'.graph := by
  intro id run hclaim
  obtain ⟨n, howned⟩ := h id run hclaim
  obtain ⟨hn, rfl⟩ := Engine.ownedNode?_eq_some.1 howned
  have hrel := Engine.rel_turn_of_writes (m := id) Node.robust_run hturn fun n n' _ hwrites => by
    cases hwrites with
    | taken _ k n hfree => exact absurd hclaim (hother id k _ rfl)
    | released _ k ending n =>
      unfold Node.released
      split <;> rfl
    | _ => rfl
  obtain ⟨n', hn', hrun⟩ := Graph.exists_of_rel hrel hn
  exact ⟨n', Engine.ownedNode?_eq_some.2 ⟨hn', hrun⟩⟩

theorem Frame.Owned.turn (h : top.Owned e.graph) (hturn : Turn e top rest e' new) :
    ∀ f ∈ new, f.Owned e'.graph := by
  intro f hf
  by_cases hclaiming : ∃ id run, top = .run id (.claiming run)
  · obtain ⟨id, run, rfl⟩ := hclaiming
    cases hturn with
    | claim id run rest n hn hfree =>
      cases List.mem_singleton.1 hf
      intro m k hclaim
      cases hclaim
      refine ⟨n.taken run, Engine.ownedNode?_eq_some.2 ⟨?_, rfl⟩⟩
      exact (Graph.node?_modify_self _ _ _).trans (by rw [hn, Option.map_some])
    | pass top rest e' new hpass =>
      cases hpass with
      | quit id run phase rest e' ending hsame hbeat hphase hend hlost =>
        rcases hphase with heq | ⟨_, _, _, _, heq⟩ <;> cases heq
      | _ =>
        cases List.mem_singleton.1 hf
        exact nofun
  · intro id run hclaim
    have hbefore := ((Frame.claim?_turn hturn).resolve_left hclaiming) f hf _ hclaim
    refine Frame.Owned.other (f := top) h hturn (fun id run _ heq => ?_) id run hbefore
    exact absurd ⟨id, run, heq⟩ hclaiming

end

end Patchbay
