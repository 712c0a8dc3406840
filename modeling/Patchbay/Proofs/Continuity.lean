import Patchbay.Proofs.Announcements
import Patchbay.Proofs.Convergence
import Patchbay.Proofs.Idle
import Patchbay.Proofs.Saving

/-!
# What executions make of a saved graph

Executions write to nodes, but they make no node and remove none, and connect nothing. So the graph
that is saved after them has the nodes and the connections of the one that was loaded before. Of
what a node holds, its state changes only where outputs are written. And as soon as no run is
counted any more no node is claimed, and no status tells of a computation, because both belong to
runs that are still going on.

What is proved here:
  1. `Frame.Owns`, `Node.Candid`: what the levels of runs and the nodes say of each other.
  2. `Intact.happens`: the invariant of tasks on a restored graph, for any step of any task and any
     outcome of any job.
  3. `Intact.continues`: what is saved once no run is counted continues what was restored.
-/

namespace Patchbay

open Json

variable {σ : Type}

/-! ## Nodes -/

namespace Node

/-- The node is said to be computed only while some run has it. -/
def Candid (n : Node σ) : Prop := n.status = .generating → n.claimed = true

theorem robust_candid : Robust fun n n' : Node σ => n.Candid → n'.Candid where
  refl _ h := h
  trans _ _ _ h h' hn := h' (h hn)
  touched _ h := h
  invalidated _ h := h
  stopped n h := by
    intro hstatus
    by_cases hclaimed : n.claimed = true
    · exact hclaimed
    · simp [Node.stopped, hclaimed] at hstatus

theorem candid_restored (n : Node σ) : n.restored.Candid := by
  intro hstatus
  cases hbefore : n.status <;> simp [restored, Status.settled, hbefore] at hstatus

theorem robust_owned (k : Nat) : Robust fun n n' : Node σ =>
    (n.run = k → n.claimed = true) → n'.run = k → n'.claimed = true where
  refl _ h := h
  trans _ _ _ h h' hn := h' (h hn)
  touched _ h := h
  invalidated _ h := h
  stopped _ h := h

end Node

/-- The run on this level, which has begun and has still to write to its node, has it as long as
nobody else claims it. -/
def Frame.Owns (g : Graph σ) : Frame σ → Prop
  | .run id (.listing k) | .run id (.pulling k _) | .run id (.computing k _ _ _ _) =>
    ∀ n, g.node? id = some n → n.run = k → n.claimed = true
  | _ => True

theorem Frame.counts_of_claim? {f : Frame σ} {c : NodeId × Nat} (h : f.claim? = some c) :
    f.counts = true := by
  unfold Frame.claim? at h
  split at h <;> first | rfl | cases h

theorem Frame.owns_of_idle {g : Graph σ} {f : Frame σ} (h : f.run? = none) : f.Owns g := by
  cases f with
  | run id phase =>
    cases phase with
    | listing k => cases h
    | pulling k todo => cases h
    | computing k epoch d context c => cases h
    | _ => trivial
  | _ => trivial

/-- Outputs were written to the node on the way from the one engine to the other. -/
def Engine.Wrote (e e' : Engine σ) (id : NodeId) : Prop :=
  ∃ events outputs upToDate, e'.log = e.log ++ events ∧ .nodeCompleted id outputs upToDate ∈ events

variable [NodeState σ] {r : Registry σ}

/-- A node at the beginning and now: it is of the same type, and in the same state unless its
outputs were written in the meantime. -/
structure Node.Continues (written : Prop) (n n' : Node σ) : Prop where
  typeName : n'.typeName = n.typeName
  state : n'.state = n.state ∨ written

variable {e₀ e e' : Engine σ} {top : Frame σ}
  {rest new post frames frames' : List (Frame σ)}

/-! ## Steps -/

namespace Engine

theorem log_turn (hturn : Turn e top rest e' new) : e.log <+: e'.log := by
  cases hturn with
  | block | begin | fail => exact List.prefix_append _ _
  | finish id run epoch rest n d context outputs hn hrun hclaimed =>
    rw [log_commitOutputs]
    exact List.prefix_append _ _
  | pass top rest e' new hpass =>
    cases hpass with
    | quit id run phase rest e' ending hsame hbeat hphase hend hlost htally hlog => exact hlog
    | _ => exact List.prefix_refl _
  | _ => exact List.prefix_refl _

/-- A step changes the state of a node only by writing its outputs. -/
theorem state_turn (hsound : Sound r e (top :: post)) (hturn : Turn e top rest e' new)
    (id : NodeId) : Option.Rel (fun n n' => n'.state = n.state ∨ e.Wrote e' id)
      (e.graph.node? id) (e'.graph.node? id) := by
  -- The hook of a result runs only where outputs are committed, and that is announced.
  by_cases hcompletes : top.Completes e.graph id
  · have hthere := rel_turn_of_writes (m := id) Node.robust_any hturn fun _ _ _ _ => trivial
    have hw : e.graph.Whole e.registry := hsound.registry.symm ▸ hsound.whole
    obtain ⟨run, epoch, d, context, outputs, n, -, hn, -, -, rfl, -⟩ := hcompletes.turn hw hturn
    refine Graph.rel_mono hthere fun _ _ _ => .inr ?_
    exact ⟨_, outputs, n.epoch == epoch, log_commitOutputs e id n epoch d outputs,
      List.mem_append_right _ List.mem_cons_self⟩
  · exact Graph.rel_mono (rel_state_turn hturn hcompletes) fun _ _ hstate => .inl hstate

/-- A step gives no node another type, and another state only with its outputs. -/
theorem continues_turn (hr : r.Steady) (hsound : Sound r e (top :: post))
    (hturn : Turn e top rest e' new) (id : NodeId) :
    Option.Rel (Node.Continues (e.Wrote e' id)) (e.graph.node? id) (e'.graph.node? id) := by
  have hstep := state_turn hsound hturn id
  have htype := fun n' (hn' : e'.graph.node? id = some n') =>
    typeName_turn hr (show Sound r e ([] ++ top :: post) from hsound) hturn hn'
  generalize e'.graph.node? id = after at hstep htype ⊢
  generalize e.graph.node? id = before at hstep htype ⊢
  cases hstep with
  | none => exact .none
  | @some n n' hstate =>
    obtain ⟨n₁, hn₁, htype⟩ := htype n' rfl
    cases hn₁
    exact .some ⟨htype, hstate⟩

/-- A run that has its node has it still after a step of any other run. -/
theorem owned_turn (hturn : Turn e top rest e' new) {k : Nat}
    (hother : ∀ run, top.run? = some run → run ≠ k) {id : NodeId}
    (h : ∀ n, e.graph.node? id = some n → n.run = k → n.claimed = true) {n' : Node σ}
    (hn' : e'.graph.node? id = some n') : n'.run = k → n'.claimed = true := by
  have hrel := rel_turn_of_writes (m := id) (Node.robust_owned k) hturn
    fun n n' _ hwrites howned hrun => by
      cases hwrites with
      | taken => rfl
      | started => exact howned hrun
      | blocked _ run _ _ hn => exact absurd (hn.symm.trans hrun) (hother run rfl)
      | completed _ run _ _ _ _ _ hn => exact absurd (hn.symm.trans hrun) (hother run rfl)
      | failed _ run _ _ _ _ _ _ hn => exact absurd (hn.symm.trans hrun) (hother run rfl)
      | released _ run _ n =>
        unfold Node.released at hrun ⊢
        split at hrun
        · rename_i hboth
          have hn : n.run = run := by simpa using (Bool.and_eq_true_iff.1 hboth).1
          exact absurd (hn.symm.trans hrun) (hother run rfl)
        · rename_i hnot
          rw [if_neg hnot]
          exact howned hrun
  obtain ⟨n, hn, hkeeps⟩ := Graph.exists_of_rel' hrel hn'
  exact hkeeps (h n hn)

theorem owns_turn (hsound : Sound r e (top :: post)) (hturn : Turn e top rest e' new)
    (howns : ∀ f ∈ top :: post, f.Owns e.graph) : ∀ f ∈ new ++ post, f.Owns e'.graph := by
  obtain ⟨htop, hpost⟩ := List.forall_mem_cons.1 howns
  refine List.forall_mem_append.2 ⟨?_, fun f hf => ?_⟩
  · cases hturn with
    | claim id run rest n hn hfree =>
      refine List.forall_mem_singleton.2 fun n' hn' _ => ?_
      obtain ⟨n₀, -, rfl⟩ := Option.map_eq_some_iff.1 ((Graph.node?_modify_self _ _ _).symm.trans hn')
      rfl
    | list id run rest => exact List.forall_mem_singleton.2 htop
    | pull id run p todo rest =>
      exact List.forall_mem_cons.2 ⟨trivial, List.forall_mem_singleton.2 htop⟩
    | begin id run rest n d inputs hn hrun hd hinputs =>
      refine List.forall_mem_singleton.2 fun n' hn' _ => ?_
      have hstarted := (Graph.node?_modify_self e.graph id Node.started).symm.trans hn'
      rw [hn] at hstarted
      cases hstarted
      exact htop n hn hrun
    | pass top rest e' new hpass =>
      rcases hpass.new_cases with rfl | ⟨f, rfl, hf | ⟨id, run, ending, rfl, -⟩⟩
      · exact List.forall_mem_nil _
      · exact List.forall_mem_singleton.2 (Frame.owns_of_idle hf)
      · exact List.forall_mem_singleton.2 trivial
    | _ => exact List.forall_mem_singleton.2 trivial
  · -- No other level has the number of the run that goes on, and only that one writes.
    have hkept : ∀ k, f.run? = some k → ∀ id, (∀ n, e.graph.node? id = some n → n.run = k →
        n.claimed = true) → ∀ n', e'.graph.node? id = some n' → n'.run = k → n'.claimed = true := by
      refine fun k hk id hbefore n' hn' hrun => owned_turn hturn ?_ hbefore hn' hrun
      rintro run htop rfl
      exact Sound.run?_ne (show Sound r e ([] ++ top :: post) from hsound) htop hf hk
    have hf := hpost f hf
    cases f with
    | run id phase =>
      cases phase with
      | listing k => exact hkept k rfl id hf
      | pulling k todo => exact hkept k rfl id hf
      | computing k epoch d context c => exact hkept k rfl id hf
      | _ => trivial
    | _ => trivial

theorem candid_turn (hturn : Turn e top rest e' new) (howns : top.Owns e.graph)
    (hcandid : ∀ id n, e.graph.node? id = some n → n.Candid) {id : NodeId} {n' : Node σ}
    (hn' : e'.graph.node? id = some n') : n'.Candid := by
  have hrel := rel_turn_of_writes (m := id) Node.robust_candid hturn fun n n' hn hwrites hbefore => by
    cases hwrites with
    | started _ run n hrun => exact fun _ => howns n hn hrun
    | taken => exact fun _ => rfl
    | released _ run _ n =>
      unfold Node.released
      split
      · exact n.candid_restored
      · exact hbefore
    | _ => nofun
  obtain ⟨n, hn, hkeeps⟩ := Graph.exists_of_rel' hrel hn'
  exact hkeeps (hcandid id n hn)

omit [NodeState σ] in
theorem Wrote.trans {e₁ : Engine σ} {id : NodeId} (h : e₀.Wrote e id) (hlog : e.log <+: e₁.log) :
    e₀.Wrote e₁ id := by
  obtain ⟨events, outputs, upToDate, hevents, hmem⟩ := h
  obtain ⟨more, hmore⟩ := hlog
  refine ⟨events ++ more, outputs, upToDate, ?_, List.mem_append_left _ hmem⟩
  rw [← hmore, hevents, List.append_assoc]

omit [NodeState σ] in
theorem Wrote.after {e₁ : Engine σ} {id : NodeId} (h : e.Wrote e₁ id) (hlog : e₀.log <+: e.log) :
    e₀.Wrote e₁ id := by
  obtain ⟨events, outputs, upToDate, hevents, hmem⟩ := h
  obtain ⟨more, hmore⟩ := hlog
  refine ⟨more ++ events, outputs, upToDate, ?_, List.mem_append_right _ hmem⟩
  rw [hevents, ← hmore, List.append_assoc]

end Engine

/-! ## The invariant -/

/-- The invariant of the tasks on an engine that once was as the first one, without anything going
on. Whatever was scheduled has become a task. -/
structure Intact (r : Registry σ) (e₀ e : Engine σ) (frames : List (Frame σ)) : Prop
    extends Sound r e frames where
  collected : e.scheduled = []
  held : Held e.graph frames
  owns : ∀ f ∈ frames, f.Owns e.graph
  candid : ∀ id n, e.graph.node? id = some n → n.Candid
  labelled : e.graph.Labelled
  tallied : e.inFlight = frames.countP Frame.counts
  wiring : e.graph.wiring = e₀.graph.wiring
  log : e₀.log <+: e.log
  nodes : ∀ id, Option.Rel (Node.Continues (e₀.Wrote e id)) (e₀.graph.node? id) (e.graph.node? id)

namespace Intact

/-- The invariant does not look at the computations, nor at the order of the levels. -/
theorem answers (h : Intact r e₀ e frames) (hanswers : Answers frames frames') :
    Intact r e₀ e frames' where
  toSound := hanswers.sound h.toSound
  collected := h.collected
  held id n hn hclaimed := by
    obtain ⟨f, hf, hclaim⟩ := h.held id n hn hclaimed
    have hperm := hanswers.map_perm (f := Frame.claim?) fun a b hab => by cases hab <;> rfl
    obtain ⟨f', hf', heq⟩ := List.mem_map.1 (hperm.mem_iff.2 (List.mem_map_of_mem hf))
    exact ⟨f', hf', heq.trans hclaim⟩
  owns f' hf' := by
    obtain ⟨f, hf, hanswered⟩ := hanswers.exists_of_mem hf'
    have howns := h.owns f hf
    cases hanswered <;> exact howns
  candid := h.candid
  labelled := h.labelled
  tallied := by
    have hperm := hanswers.map_perm (f := Frame.counts) fun a b hab => by cases hab <;> rfl
    have hcount := hperm.countP_eq id
    rw [List.countP_map, List.countP_map] at hcount
    exact h.tallied.trans hcount.symm
  wiring := h.wiring
  log := h.log
  nodes := h.nodes

theorem perm (h : Intact r e₀ e frames) (hperm : frames.Perm frames') : Intact r e₀ e frames' :=
  h.answers (.of_perm hperm)

/-- A step of any task keeps the invariant, if what it has scheduled becomes tasks. -/
theorem turn (hr : r.Steady) (h : Intact r e₀ e (top :: post)) (hturn : Turn e top rest e' new) :
    Intact r e₀ { e' with scheduled := [] } (new ++ post ++ e'.errands) where
  toSound := by
    have hturned := Sound.turn hr (show Sound r e ([] ++ top :: post) from h.toSound) hturn
    have hsame : e'.Same { e' with scheduled := [] } := ⟨rfl, rfl, rfl, rfl⟩
    exact (hturned.same hsame).append_idle Engine.idle_errands
  collected := rfl
  held := by
    have hheld : Held e.graph ([] ++ top :: post) := h.held
    exact (hheld.turn hturn).mono fun f hf => List.mem_append_left _ hf
  owns := by
    have howns : ∀ f ∈ new ++ post, f.Owns e'.graph := Engine.owns_turn h.toSound hturn h.owns
    exact List.forall_mem_append.2
      ⟨howns, fun f hf => Frame.owns_of_idle (Engine.idle_errands f hf)⟩
  candid id n hn := by
    have hn : e'.graph.node? id = some n := hn
    exact Engine.candid_turn hturn (h.owns top List.mem_cons_self) h.candid hn
  labelled := by
    have hlabelled : e'.graph.Labelled := h.labelled.turn hturn
    exact hlabelled
  tallied := by
    have htallied := h.tallied
    rw [List.countP_cons] at htallied
    have hone : (if top.counts = true then 1 else 0) = top.counts.toNat := by
      cases top.counts <;> rfl
    have htally := Engine.tally_turn hturn h.collected fun hcounts => by
      rw [if_pos hcounts] at htallied
      omega
    have herrands : e'.errands.countP Frame.counts = e'.scheduled.length := by
      rw [Engine.errands, List.flatMap_def, World.countP_background]
    show e'.inFlight = _
    rw [List.countP_append, List.countP_append, herrands]
    omega
  wiring := (Engine.wiring_turn hturn).trans h.wiring
  log := by
    have hlog := Engine.log_turn hturn
    exact h.log.trans hlog
  nodes id := by
    have hafter : Option.Rel (Node.Continues (e₀.Wrote e' id)) (e₀.graph.node? id)
        (e'.graph.node? id) := by
      refine Graph.rel_comp (h.nodes id) (Engine.continues_turn hr h.toSound hturn id) ?_
      refine fun a b c hab hbc => ⟨hbc.typeName.trans hab.typeName, ?_⟩
      rcases hbc.state with hstate | hwrote
      · rcases hab.state with hsame | hwrote
        · exact .inl (hstate.trans hsame)
        · exact .inr (hwrote.trans (Engine.log_turn hturn))
      · exact .inr (hwrote.after h.log)
    exact hafter

theorem happens (hr : r.Steady) {x y : Engine σ × List (Frame σ)} (h : Intact r e₀ x.1 x.2)
    (hhappens : Happens x y) : Intact r e₀ y.1 y.2 := by
  rcases hhappens with ⟨top, rest, post, written, new, hbefore, hturn, hengine, hafter⟩ | hresponds
  · rw [hengine]
    exact ((h.perm hbefore).turn hr hturn).perm hafter.symm
  · rw [hresponds.1]
    exact h.answers hresponds.answers

theorem unclaimed (h : Intact r e₀ e frames) (hidle : e.isIdle = true) {id : NodeId} {n : Node σ}
    (hn : e.graph.node? id = some n) : n.claimed = false := by
  by_contra hclaimed
  obtain ⟨f, hf, hclaim⟩ := h.held id n hn (Bool.not_eq_false _ ▸ hclaimed)
  have hzero : frames.countP Frame.counts = 0 := by
    rw [← h.tallied]
    simpa [Engine.isIdle] using hidle
  have hcounts := List.countP_eq_zero.1 hzero f hf
  exact hcounts (Frame.counts_of_claim? hclaim)

end Intact

/-! ## Saved graphs -/

/-- The node of a restored graph is one that was saved, in the same state. -/
theorem Engine.node?_restore {s : Snapshot σ} (h : e.restore s = .ok e') :
    (∀ id n', e'.graph.node? id = some n' → n'.Candid ∧
        ∃ n ∈ s.nodes, n.id = id ∧ n'.state = n.state) ∧
      (∀ n ∈ s.nodes, ∃ n', e'.graph.node? n.id = some n' ∧ n'.state = n.state) ∧
      ∀ c, c ∈ e'.graph.wiring.connections ↔ c ∈ s.connections := by
  obtain ⟨g, hg, rfl⟩ := exists_graph_of_restore h
  obtain ⟨-, hnodes, hconnections⟩ := Snapshot.graph_eq_ok hg
  have hstates := g.each_invalidateAll Node.robust_state
    (g.staleNodes.flatMap g.wiring.downstream)
  have hcandid := g.each_invalidateAll Node.robust_candid
    (g.staleNodes.flatMap g.wiring.downstream)
  refine ⟨fun id n' hn' => ?_, fun n hn => ?_, fun c => ?_⟩
  · obtain ⟨n₁, hn₁, hstate⟩ := Graph.exists_of_rel' (hstates.nodes id) hn'
    obtain ⟨n₂, hn₂, hkeeps⟩ := Graph.exists_of_rel' (hcandid.nodes id) hn'
    rw [hn₁] at hn₂
    cases hn₂
    obtain ⟨n, hn, hid, rfl⟩ := (hnodes id n₁).1 hn₁
    exact ⟨hkeeps n.candid_restored, n, hn, hid, hstate⟩
  · obtain ⟨n', hn', hstate⟩ := Graph.exists_of_rel (hstates.nodes n.id)
      ((hnodes n.id n.restored).2 ⟨n, hn, rfl, rfl⟩)
    exact ⟨n', hn', hstate⟩
  · show c ∈ g.normalize.1.wiring.connections ↔ _
    rw [Graph.normalize, hstates.wiring, Wiring.mem_connections]
    exact hconnections c

/-- Where nothing goes on yet, the invariant holds of a restored graph. -/
theorem Intact.restored (hr : r.Steady) (p : Policy) {s : Snapshot σ}
    (h : (Engine.new r p).restore s = .ok e) (hidle : ∀ f ∈ frames, f.run? = none)
    (hcounts : frames.countP Frame.counts = 0) : Intact r e e frames where
  toSound := by
    have hnew : Sound r (Engine.new r p) [] := World.sound_after hr p []
    exact (hnew.restore hr h).append_idle hidle
  collected := by
    obtain ⟨g, -, rfl⟩ := Engine.exists_graph_of_restore h
    rfl
  held := .of_unclaimed (Engine.restore_eq_ok hr h).2.2.2.2.2
  owns f hf := Frame.owns_of_idle (hidle f hf)
  candid id n hn := ((Engine.node?_restore h).1 id n hn).1
  labelled := .of_restore h
  tallied := by
    obtain ⟨g, -, rfl⟩ := Engine.exists_graph_of_restore h
    exact hcounts.symm
  wiring := rfl
  log := List.prefix_refl _
  nodes id := Graph.rel_refl (fun _ => ⟨rfl, .inl rfl⟩) _

/-- What was saved later continues what was saved before: it is valid, it has the same nodes of the
same types and the same connections, no execution goes on in it, and the state differs only of nodes
to which outputs were written. -/
structure Snapshot.Continues (r : Registry σ) (written : NodeId → Prop) (new old : Snapshot σ) :
    Prop where
  valid : new.defects r = []
  nodes : (new.nodes.map fun n => (n.id, n.typeName)).Perm
    (old.nodes.map fun n => (n.id, n.typeName))
  connections : new.connections.Perm old.connections
  idle : ∀ n ∈ new.nodes, n.claimed = false ∧ n.status ≠ .generating
  states : ∀ n ∈ old.nodes, ∀ n' ∈ new.nodes, n'.id = n.id → n'.state = n.state ∨ written n.id

omit [NodeState σ] in
/-- If the one list has no identity twice, pairs of identities and types are not repeated. -/
theorem Snapshot.nodup_pairs {α : Type} {s : Snapshot σ} (h : (s.nodes.map (·.id)).Nodup)
    (f : Node σ → α) : (s.nodes.map fun n => (n.id, f n)).Nodup := by
  refine .of_map Prod.fst ?_
  rw [List.map_map]
  exact h

theorem Intact.exists_before {p : Policy} {old new : Snapshot σ}
    (hrestore : (Engine.new r p).restore old = .ok e₀) (h : Intact r e₀ e frames)
    (hnew : new.Describes e.graph) {n' : Node σ} (hn' : n' ∈ new.nodes) :
    ∃ n ∈ old.nodes, n.id = n'.id ∧ n'.typeName = n.typeName ∧
      (n'.state = n.state ∨ e₀.Wrote e n.id) := by
  obtain ⟨f, hf, hnodes⟩ := hnew.exists_nodes
  obtain ⟨id, n₁, hn₁, rfl⟩ := (hnodes n').1 hn'
  obtain ⟨n₀, hn₀, hcontinues⟩ := Graph.exists_of_rel' (h.nodes id) hn₁
  obtain ⟨-, n, hn, rfl, hstate⟩ := (Engine.node?_restore hrestore).1 id n₀ hn₀
  have hid : (f n₁).id = n.id := (hf n₁).id.trans (h.labelled _ n₁ hn₁)
  have htype : (f n₁).typeName = n₀.typeName :=
    (congrArg NodeState.typeName (hf n₁).state).trans hcontinues.typeName
  refine ⟨n, hn, hid.symm, htype.trans (congrArg NodeState.typeName hstate), ?_⟩
  rw [(hf n₁).state, ← hstate]
  exact hcontinues.state

theorem Intact.exists_after {p : Policy} {old new : Snapshot σ}
    (hrestore : (Engine.new r p).restore old = .ok e₀) (h : Intact r e₀ e frames)
    (hnew : new.Describes e.graph) {n : Node σ} (hn : n ∈ old.nodes) :
    ∃ n' ∈ new.nodes, n'.id = n.id := by
  obtain ⟨f, hf, hnodes⟩ := hnew.exists_nodes
  obtain ⟨n₀, hn₀, -⟩ := (Engine.node?_restore hrestore).2.1 n hn
  obtain ⟨n₁, hn₁, -⟩ := Graph.exists_of_rel (h.nodes n.id) hn₀
  exact ⟨f n₁, (hnodes _).2 ⟨n.id, n₁, hn₁, rfl⟩, (hf n₁).id.trans (h.labelled _ n₁ hn₁)⟩

/-- Once no run is counted, what is saved continues what was restored at the beginning. -/
theorem Intact.continues (hk : r.KindsSteady) {p : Policy} {old new : Snapshot σ}
    (hrestore : (Engine.new r p).restore old = .ok e₀) (h : Intact r e₀ e frames)
    (hidle : e.isIdle = true) (hnew : new.Describes e.graph)
    (hclaims : ∀ n ∈ new.nodes, n.claimed = false) : new.Continues r (e₀.Wrote e) old := by
  have hflawless := hnew.flawless h.labelled h.whole hk
  have hold : old.Flawless r := Snapshot.defects_eq_nil_iff.1 (Engine.defects_of_restore hrestore)
  have hconnections := (Engine.node?_restore hrestore).2.2
  have hback := fun n' (hn' : n' ∈ new.nodes) => h.exists_before hrestore hnew hn'
  have hforth := fun n (hn : n ∈ old.nodes) => h.exists_after hrestore hnew hn
  have hsame : ∀ n ∈ old.nodes, ∀ m ∈ old.nodes, n.id = m.id → n = m := fun n hn m hm hid =>
    List.inj_on_of_nodup_map hold.ids hn hm hid
  refine ⟨Snapshot.defects_eq_nil_iff.2 hflawless, ?_, ?_, fun n' hn' => ⟨hclaims n' hn', ?_⟩, ?_⟩
  · refine (List.perm_ext_iff_of_nodup (Snapshot.nodup_pairs hflawless.ids _)
      (Snapshot.nodup_pairs hold.ids _)).2 fun x => ?_
    simp only [List.mem_map]
    constructor
    · rintro ⟨n', hn', rfl⟩
      obtain ⟨n, hn, hid, htype, -⟩ := hback n' hn'
      exact ⟨n, hn, by rw [hid, htype]⟩
    · rintro ⟨n, hn, rfl⟩
      obtain ⟨n', hn', hid⟩ := hforth n hn
      obtain ⟨m, hm, hid', htype, -⟩ := hback n' hn'
      obtain rfl := hsame n hn m hm (hid'.trans hid).symm
      exact ⟨n', hn', by rw [hid, htype]⟩
  · refine (List.perm_ext_iff_of_nodup (.of_map _ hflawless.sinks) (.of_map _ hold.sinks)).2
      fun c => ?_
    rw [hnew.connections, Wiring.connections, h.wiring]
    exact hconnections c
  · obtain ⟨f, hf, hnodes⟩ := hnew.exists_nodes
    obtain ⟨id, n₁, hn₁, rfl⟩ := (hnodes n').1 hn'
    intro hstatus
    rw [(hf n₁).status] at hstatus
    have hclaimed := h.candid id n₁ hn₁ hstatus
    rw [h.unclaimed hidle hn₁] at hclaimed
    cases hclaimed
  · intro n hn n' hn' hid
    obtain ⟨m, hm, hid', -, hstate⟩ := hback n' hn'
    obtain rfl := hsame n hn m hm (hid'.trans hid).symm
    exact hstate

end Patchbay
