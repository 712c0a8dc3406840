import Patchbay.Proofs.Succession

/-!
# What moves do to the other nodes

An operation changes the node that it is about, a step the node of its run. What every other node
goes through are invalidations, stop signs and reactions. So whatever these keep of a node is kept
by every move of every node but one.

What is proved here:
  1. `Engine.Performed.rel`, `Engine.Performed.rel_of_update`: what an operation makes of a node,
     unless it removes it or makes it.
  2. `Engine.rel_turn_of_writes`, `Engine.rel_turn`: what a step makes of a node, if it is told
     what is written to the node of the run itself.
  3. `Engine.isFresh_turn`: only the end of a computation makes its node fresh.
-/

namespace Patchbay

variable {σ : Type} [NodeState σ]

namespace Node

/-- The relation survives edits of the state as well. -/
structure Editable (r : Registry σ) (R : Node σ → Node σ → Prop) : Prop extends Reactive r R where
  edit : ∀ (n : Node σ) state status,
    (state == n.state) = true ∨ NodeState.typeName state = n.typeName →
      R n { n with state := state, status := status }

theorem editable_abides (r : Registry σ) : Editable r (Abides (σ := σ)) where
  toReactive := reactive_abides r
  edit _ _ _ _ := ⟨rfl, rfl, rfl, Nat.le_refl _, fun h => h⟩

theorem editable_knows {r : Registry σ} (hr : r.Covers) :
    Editable r fun n n' => r.Knows n.state → r.Knows n'.state where
  toReactive := reactive_knows hr
  edit n state _ h hknows := by
    rcases h with hequal | htype
    · exact hr.equal state n.state hequal hknows
    · obtain ⟨d, hd⟩ := hknows
      refine ⟨d, ?_⟩
      rw [← hd, Registry.of?, htype]
      rfl

end Node

namespace Engine

open Patchbay.Graph

variable {R : Node σ → Node σ → Prop} {e e' : Engine σ}

/-! ## Operations -/

theorem rel_remove (hR : Node.Reactive e.registry R) {id : NodeId} {cs : List Connection}
    (h : e.remove id = .ok (e', cs)) {m : NodeId} (hm : m ≠ id) :
    Option.Rel R (e.graph.node? m) (e'.graph.node? m) := by
  obtain ⟨-, rfl⟩ := remove_accounts h
  have hafter := each_afterRemoval hR id
    ⟨e.graph.nodes.erase id, (e.graph.wiring.removeNode id).1⟩ [] cs
  have hrel := fun changed =>
    (hafter.trans hR.toRobust (each_invalidateAll hR.toRobust _ changed)).nodes m
  simp only [node?_erase, if_neg (Ne.symm hm)] at hrel
  exact hrel _

theorem rel_update (hR : Node.Editable e.registry R) {id : NodeId} {edit : σ → σ}
    {ids : List NodeId} (h : e.update id edit = .ok (e', ids)) (m : NodeId) :
    Option.Rel R (e.graph.node? m) (e'.graph.node? m) := by
  obtain ⟨n, d, hn, -, hcases⟩ := update_eq_ok h
  rcases hcases with ⟨hequal, rfl⟩ | ⟨htype, hreplace⟩
  · refine rel_modify hR.refl (fun n' hn' => ?_) m
    rw [hn] at hn'
    cases hn'
    exact hR.edit n _ _ (.inl hequal)
  · obtain ⟨g, changed, others, hdrop, -, rfl⟩ := replaceState_accounts hreplace
    have hset : Option.Rel R (e.graph.node? m)
        ((e.graph.setState id (edit n.state)).node? m) := by
      refine rel_modify hR.refl (fun n' hn' => ?_) m
      rw [hn] at hn'
      cases hn'
      exact hR.edit n _ _ (.inr htype)
    have htold := (each_invalidate hR.toRobust (e.graph.setState id (edit n.state)) id).nodes m
    exact rel_trans hR.trans (rel_trans hR.trans hset htold) (rel_dropEdges hR.toReactive hdrop m)

omit [NodeState σ] in
theorem rel_markStale (hR : Node.Robust R) {id : NodeId} {ids : List NodeId}
    (h : e.markStale id = .ok (e', ids)) (m : NodeId) :
    Option.Rel R (e.graph.node? m) (e'.graph.node? m) := by
  obtain ⟨-, rfl⟩ := markStale_accounts h
  exact (each_invalidate hR e.graph id).nodes m

theorem rel_rewire (hR : Node.Reactive e.registry R) (connected : Bool) (w : Wiring)
    (c : Connection) (m : NodeId) :
    Option.Rel R (e.graph.node? m) ((e.rewire connected w c).graph.node? m) :=
  (each_afterEdge hR connected ⟨e.graph.nodes, w⟩ c).nodes m

theorem rel_connect (hR : Node.Reactive e.registry R) {source sink : PortRef} {c : Connection}
    (h : e.connect source sink = .ok (e', c)) (m : NodeId) :
    Option.Rel R (e.graph.node? m) (e'.graph.node? m) := by
  obtain ⟨-, -, w, -, rfl⟩ := connect_eq_ok h
  split
  · exact rel_rewire hR true w c m
  · exact rel_rewire hR true w c m

/-- An operation makes a node, removes it, puts a saved graph in place of the present one, or keeps
of the node what every reaction and its own edits of states keep. -/
theorem Performed.rel_of_update {m : Move σ} (hR : Node.Reactive e.registry R)
    {id : NodeId} (hupdate : ∀ target edit ids, e.update target edit = .ok (e', ids) →
      Option.Rel R (e.graph.node? id) (e'.graph.node? id)) (h : e.Performed m e') :
    Option.Rel R (e.graph.node? id) (e'.graph.node? id) ∨
      (m = .remove id ∧ e'.graph.node? id = none) ∨
      (∃ state, e.createWith id state = .ok e') ∨
      ∃ s, m = .restore s ∧ e.restore s = .ok e' := by
  cases h with
  | nothing m => exact .inl (rel_refl hR.refl _)
  | created m e' id' state h =>
    by_cases hid : id' = id
    · subst hid
      exact .inr (.inr (.inl ⟨state, h⟩))
    · obtain ⟨-, -, rfl⟩ := createWith_eq_ok h
      apply Or.inl
      show Option.Rel R (e.graph.node? id) ((e.graph.inserted id' state).node? id)
      rw [Graph.inserted, node?_insert, if_neg hid]
      exact rel_refl hR.refl _
  | removed e' id' cs h =>
    by_cases hid : id = id'
    · subst hid
      exact .inr (.inl ⟨rfl, node?_remove h⟩)
    · exact .inl (rel_remove hR h hid)
  | updated e' id' edit ids h => exact .inl (hupdate id' edit ids h)
  | marked e' id' ids h => exact .inl (rel_markStale hR.toRobust h id)
  | connected e' source sink c h => exact .inl (rel_connect hR h id)
  | disconnected e' source sink c h =>
    obtain ⟨-, w, -, rfl⟩ := disconnect_eq_ok h
    exact .inl (rel_rewire hR false w c id)
  | restored e' s h => exact .inr (.inr (.inr ⟨s, rfl, h⟩))

/-- An operation makes a node, removes it, puts a saved graph in place of the present one, or keeps
of the node what every reaction and every edit of a state keeps. -/
theorem Performed.rel {m : Move σ} (hR : Node.Editable e.registry R) (h : e.Performed m e')
    (id : NodeId) :
    Option.Rel R (e.graph.node? id) (e'.graph.node? id) ∨
      (m = .remove id ∧ e'.graph.node? id = none) ∨
      (∃ state, e.createWith id state = .ok e') ∨
      ∃ s, m = .restore s ∧ e.restore s = .ok e' :=
  h.rel_of_update hR.toReactive fun _ _ _ hupdate => rel_update hR hupdate id

end Engine

/-! ## Steps -/

/-- What a step of this level may write to the node of its run before others are told. -/
inductive Frame.Writes : Frame σ → NodeId → Node σ → Node σ → Prop
  | taken (id : NodeId) (run : Nat) (n : Node σ) (hfree : n.claimed = false) :
    Writes (.run id (.claiming run)) id n (n.taken run)
  | blocked (id : NodeId) (run : Nat) (n : Node σ) (ports : List Port) (hrun : n.run = run) :
    Writes (.run id (.pulling run [])) id n (n.blocked ports)
  | started (id : NodeId) (run : Nat) (n : Node σ) (hrun : n.run = run) :
    Writes (.run id (.pulling run [])) id n n.started
  | completed (id : NodeId) (run epoch : Nat) (d : Definition σ) (context : Context σ)
    (outputs : Outputs) (n : Node σ) (hrun : n.run = run) :
    Writes (.run id (.computing run epoch d context (.done (.ok outputs)))) id n
      (n.completed (d.applyResult n.state outputs) outputs (n.epoch == epoch))
  | failed (id : NodeId) (run epoch : Nat) (d : Definition σ) (context : Context σ)
    (cause : Failure) (n : Node σ) (message : String) (hrun : n.run = run) :
    Writes (.run id (.computing run epoch d context (.done (.error cause)))) id n
      (n.failed message)
  | released (id : NodeId) (run : Nat) (ending : Ending) (n : Node σ) :
    Writes (.run id (.releasing run ending)) id n (n.released run)

namespace Engine

open Patchbay.Graph

variable {R : Node σ → Node σ → Prop} {e e' : Engine σ} {top : Frame σ}
  {rest new : List (Frame σ)} {m : NodeId}

/-- A step keeps of every node what every traversal keeps, and also what it writes to the node of
its own run. -/
theorem rel_turn_of_writes (hR : Node.Robust R) (h : Turn e top rest e' new)
    (hwrites : ∀ n n', e.graph.node? m = some n → top.Writes m n n' → R n n') :
    Option.Rel R (e.graph.node? m) (e'.graph.node? m) := by
  have hwrite : ∀ {id : NodeId} {f : Node σ → Node σ},
      (∀ n, e.graph.node? id = some n → top.Writes id n (f n)) →
      Option.Rel R (e.graph.node? m) ((e.graph.modify id f).node? m) := by
    intro id f hf
    by_cases hm : m = id
    · subst hm
      exact rel_modify hR.refl (fun n hn => hwrites n _ hn (hf n hn)) m
    · rw [node?_modify, if_neg (Ne.symm hm)]
      exact rel_refl hR.refl _
  cases h with
  | enter id rest => exact rel_refl hR.refl _
  | claim id run rest n hn hfree =>
    refine hwrite fun n' hn' => ?_
    rw [hn] at hn'
    cases hn'
    exact .taken id run n hfree
  | list id run rest => exact rel_refl hR.refl _
  | pull id run p todo rest => exact rel_refl hR.refl _
  | block id run rest n d events hn hrun hd hinputs =>
    have hmark := hwrite (f := (·.blocked (d.ports n.state))) fun n' hn' => by
      rw [hn] at hn'
      cases hn'
      exact .blocked id run n _ hrun
    refine rel_trans hR.trans (rel_trans hR.trans hmark ((each_invalidate hR _ id).nodes m)) ?_
    exact (each_stopAll hR _ [] _).nodes m
  | begin id run rest n d inputs hn hrun hd hinputs =>
    refine hwrite fun n' hn' => ?_
    rw [hn] at hn'
    cases hn'
    exact .started id run n hrun
  | finish id run epoch rest n d context outputs hn hrun hclaimed =>
    obtain ⟨-, -, hgraph, -⟩ := commitOutputs_spec e id n epoch d outputs
    rw [hgraph]
    have hmark := hwrite (f := (·.completed (d.applyResult n.state outputs) outputs
      (n.epoch == epoch))) fun n' hn' => by
        rw [hn] at hn'
        cases hn'
        exact .completed id run epoch d context outputs n hrun
    unfold complete
    split
    · exact rel_trans hR.trans hmark ((each_invalidateAll hR _ _).nodes m)
    · exact hmark
  | fail id run epoch rest d context cause n hn hrun hclaimed =>
    have hmark := hwrite (f := (·.failed (Error.executionFailed id cause).message))
      fun n' hn' => by
        rw [hn] at hn'
        cases hn'
        exact .failed id run epoch d context cause n _ hrun
    exact rel_trans hR.trans hmark ((each_invalidate hR _ id).nodes m)
  | release id run ending rest => exact hwrite fun n _ => .released id run ending n
  | pass top rest e' new hpass =>
    rw [hpass.same.graph]
    exact rel_refl hR.refl _

/-- A step keeps of every node but the one of its run what every traversal keeps. -/
theorem rel_turn (hR : Node.Robust R) (h : Turn e top rest e' new)
    (hm : ∀ id phase, top = .run id phase → m ≠ id) :
    Option.Rel R (e.graph.node? m) (e'.graph.node? m) := by
  refine rel_turn_of_writes hR h fun n n' _ hwrites => ?_
  cases hwrites <;> exact absurd rfl (hm _ _ rfl)

theorem isFresh_turn (h : Turn e top rest e' new)
    (hne : ∀ run epoch d context c, top ≠ .run m (.computing run epoch d context c))
    (hstale : e.graph.isFresh m = false) : e'.graph.isFresh m = false := by
  by_contra hfresh
  obtain ⟨n', hn', hs'⟩ := isFresh_iff.1 (Bool.not_eq_false _ ▸ hfresh)
  have hrel := rel_turn_of_writes (m := m) Node.robust_stale h fun a b _ hwrites hs => by
    cases hwrites with
    | completed => exact absurd rfl (hne _ _ _ _ _)
    | released _ run _ a =>
      unfold Node.released
      split <;> exact hs
    | _ => exact hs
  obtain ⟨n, hn, hkeeps⟩ := exists_of_rel' hrel hn'
  have hs : n.stale = true := Graph.stale_of_isFresh_eq_false hstale hn
  rw [hkeeps hs] at hs'
  cases hs'

end Engine

end Patchbay
