import Patchbay.Proofs.Edits
import Patchbay.Proofs.Inputs
import Patchbay.Proofs.Interleaving

/-!
# What the steps of a run do

Most steps of a run treat the graph as an edit does: it stays whole and drifts without
exceptions. The exceptions are the claim, which only marks the node, and the end of a computation
that went well, which may turn a stale node into a fresh one.

What is proved here:
  1. `edited_block`, `edited_begin`, `edited_fail`, `edited_release`: the steps that are edits.
  2. `finished_complete`: what a computation that went well leaves behind.
-/

namespace Patchbay

open Relation

variable {σ : Type} [NodeState σ]

namespace Engine

open Patchbay.Graph

variable {e : Engine σ}

/-- A change of one node that nobody has to be told of is an edit. -/
theorem edited_modify (hr : e.registry.Steady) (hw : e.graph.Whole e.registry) (id : NodeId)
    (f : Node σ → Node σ) (events : List Event)
    (h : ∀ n, e.graph.node? id = some n → n.Kin (f n) ∧ n.Calm (f n)) :
    e.Edited ((e.withGraph (e.graph.modify id f)).emit events) := by
  have hdrift := drift_modify_calm h
  have hmould : Moulded e.registry e.graph (e.graph.modify id f) :=
    .modify fun n hn => .of_alike hr (h n hn).2.state
  exact ⟨rfl, rfl, rfl,
    hw.of_moulded hr hw.wiring (types_of_drift hdrift hw.types) hmould fun c hc => hc, hdrift⟩

theorem edited_begin (hr : e.registry.Steady) (hw : e.graph.Whole e.registry) (id : NodeId)
    (events : List Event) :
    e.Edited ((e.withGraph (e.graph.modify id Node.started)).emit events) :=
  edited_modify hr hw id Node.started events fun _ _ =>
    ⟨⟨rfl, Nat.le_refl _, fun h => ⟨h, rfl⟩⟩, ⟨rfl, rfl, rfl, .refl _⟩⟩

theorem edited_release (hr : e.registry.Steady) (hw : e.graph.Whole e.registry) (id : NodeId)
    (run : Nat) : e.Edited (e.release id run) := by
  have h := edited_modify hr hw id (·.released run) [] fun n _ => by
    unfold Node.released
    split
    · exact ⟨⟨rfl, Nat.le_refl _, fun h => absurd h Bool.false_ne_true⟩, ⟨rfl, rfl, rfl, .refl _⟩⟩
    · exact ⟨.refl n, .refl n⟩
  exact ⟨rfl, rfl, rfl, h.whole, h.drift⟩

theorem edited_fail (hr : e.registry.Steady) (hw : e.graph.Whole e.registry) (id : NodeId)
    (err : Error) : e.Edited (e.commitFailure id err) := by
  have h := edited_modify hr hw id (·.failed err.message) [] fun _ _ =>
    ⟨⟨rfl, Nat.le_refl _, fun h => absurd h Bool.false_ne_true⟩, ⟨rfl, rfl, rfl, .refl _⟩⟩
  obtain ⟨visits, hv⟩ := visited_invalidate _ h.whole.wiring id
  have hdrift := h.drift.trans (.of_visited hv)
  rw [Set.union_empty] at hdrift
  exact ⟨rfl, rfl, rfl, h.whole.of_visited hr hv, hdrift⟩

/-- Before it is told the blocked node and, if it was fresh, its consumers are concerned. -/
theorem drift_blocked (g : Graph σ) (id : NodeId) (ports : List Port) :
    Drift {m | m = id ∨ g.isFresh id = true ∧ g.wiring.Feeds id m} g
      (g.modify id (·.blocked ports)) := by
  refine drift_modify (fun n _ => ⟨rfl, Nat.le_refl _, fun h => absurd h Bool.false_ne_true⟩)
    (.inl (.inl rfl)) ?_
  cases hfresh : g.isFresh id with
  | true => exact .inr fun v hv => .inr ⟨rfl, hv⟩
  | false =>
    apply Or.inl
    intro n hn hs
    rw [isFresh_iff.2 ⟨n, hn, hs⟩] at hfresh
    cases hfresh

theorem edited_block (hr : e.registry.Steady) (hw : e.graph.Whole e.registry) (id : NodeId)
    (ports : List Port) (events : List Event) :
    e.Edited ((e.withGraph (e.graph.block id ports).1).emit events) := by
  have hblock := drift_blocked e.graph id ports
  obtain ⟨visits, hv⟩ := visited_invalidate (e.graph.modify id (·.blocked ports)) hw.wiring id
  have hwhole₁ : (e.graph.modify id (·.blocked ports)).Whole e.registry :=
    hw.of_moulded hr hw.wiring (types_of_drift hblock hw.types)
      (Moulded.modify fun n _ => .refl _ _) fun c hc => hc
  have hwhole₂ := hwhole₁.of_visited hr hv
  obtain ⟨S, hhalted, -⟩ :=
    halted_blockBelow ((e.graph.modify id (·.blocked ports)).invalidate id).1 hwhole₂.wiring id
  -- The node is visited, and so are its consumers if it was fresh.
  have htold : Drift ∅ e.graph ((e.graph.modify id (·.blocked ports)).invalidate id).1 := by
    apply (hblock.settle hv).mono
    intro m hex
    obtain ⟨hm, hzero⟩ := hex
    have hself := hv.starts id (by simp)
    rcases hm with rfl | ⟨hfresh, hfeeds⟩
    · exact absurd hzero (Nat.ne_of_gt hself)
    · have hfresh : (e.graph.modify id (·.blocked ports)).isFresh id = true := by
        rw [isFresh_modify]
        · exact hfresh
        · exact fun _ => rfl
      exact absurd hzero (Nat.ne_of_gt (hv.onward id m hfresh hself hfeeds))
  have hdrift := htold.trans (.of_halted hhalted)
  rw [Set.union_empty] at hdrift
  exact ⟨rfl, rfl, rfl, hwhole₂.of_halted hr hhalted, hdrift⟩

/-! ## The end of a computation -/

omit [NodeState σ] in
theorem scheduleAll_spec (e : Engine σ) (ids : List NodeId) :
    (e.scheduleAll ids).registry = e.registry ∧ (e.scheduleAll ids).policy = e.policy ∧
      (e.scheduleAll ids).graph = e.graph ∧ (e.scheduleAll ids).nextRun = e.nextRun := by
  induction ids generalizing e with
  | nil => exact ⟨rfl, rfl, rfl, rfl⟩
  | cons id rest ih => exact ih (e.schedule id)

theorem commitOutputs_spec (e : Engine σ) (id : NodeId) (n : Node σ) (epoch : Nat)
    (d : Definition σ) (outputs : Outputs) :
    (e.commitOutputs id n epoch d outputs).registry = e.registry ∧
      (e.commitOutputs id n epoch d outputs).policy = e.policy ∧
      (e.commitOutputs id n epoch d outputs).graph = (e.graph.complete e.policy id n
        (d.applyResult n.state outputs) outputs (n.epoch == epoch)).1 ∧
      (e.commitOutputs id n epoch d outputs).nextRun = e.nextRun :=
  scheduleAll_spec _ _

theorem step_finish {e : Engine σ} {id : NodeId} {n : Node σ} {run : Nat}
    (hn : e.graph.node? id = some n) (hrun : n.run = run) (hclaimed : n.claimed = true)
    (epoch : Nat) (d : Definition σ) (context : Context σ) (outputs : Outputs) (rest : Stack σ) :
    e.step (.run id (.computing run epoch d context (.done (.ok outputs))) :: rest) =
      some (e.commitOutputs id n epoch d outputs,
        [.run id (.releasing run (.ok (.completed outputs)))] ++ rest) := by
  have howned : (e.graph.ownedNode? id run).filter (·.claimed) = some n := by
    rw [Option.filter_eq_some_iff, ownedNode?_eq_some]
    exact ⟨⟨hn, hrun⟩, hclaimed⟩
  simp only [step, stepRun, commit, howned, Option.map_some]

end Engine

namespace Graph

variable {r : Registry σ} {g : Graph σ}

/-! ## Claims -/

omit [NodeState σ] in
theorem isFresh_taken (g : Graph σ) (id : NodeId) (run : Nat) (m : NodeId) :
    (g.modify id (·.taken run)).isFresh m = g.isFresh m := by
  rw [isFresh_modify]
  exact fun _ => rfl

omit [NodeState σ] in
theorem undisturbed_taken (g : Graph σ) (id : NodeId) (run : Nat) (v : NodeId) :
    Undisturbed g (g.modify id (·.taken run)) v := by
  have hw : (g.modify id (·.taken run)).wiring = g.wiring := rfl
  refine undisturbed_of_local hw (fun m hm => ?_) (upheld_modify (fun n _ hs => ?_) id) v
  · rw [node?_modify, if_neg (Ne.symm hm)]
  · exact ⟨hs, BEq.rfl⟩

theorem spares_taken (g : Graph σ) (id : NodeId) (run : Nat) :
    Spares {id} g (g.modify id (·.taken run)) := by
  intro m hm n' hn'
  rw [node?_modify, if_neg (Ne.symm hm)] at hn'
  exact ⟨n', hn', .refl n', .inr ⟨.refl n', undisturbed_taken g id run m⟩⟩

theorem whole_taken (hr : r.Steady) (h : g.Whole r) (id : NodeId) (run : Nat) :
    (g.modify id (·.taken run)).Whole r := by
  refine h.of_moulded hr h.wiring (fun m n' hn' => ?_) (Moulded.modify fun n _ => ?_)
    fun c hc => hc
  · rw [node?_modify] at hn'
    split at hn'
    · obtain ⟨n, hn, rfl⟩ := Option.map_eq_some_iff.1 hn'
      exact h.types m n hn
    · exact h.types m n' hn'
  · exact .refl r _

/-! ## Outputs -/

/-- Outputs were written to a node. Every other node was told what it has to know. The node
itself is what was written, and it reads what it read, unless it was invalidated at once. -/
structure Finished (r : Registry σ) (g : Graph σ) (id : NodeId) (written : Node σ)
    (g' : Graph σ) : Prop where
  whole : g'.Whole r
  drift : Drift {id} g g'
  self : ∃ n', g'.node? id = some n' ∧ written.Kin n' ∧
    (written.Outdated n' ∨ written.Calm n' ∧ Undisturbed g g' id)

/-- Writing outputs concerns the node, and its consumers if the outputs are not equal to those
of before. -/
theorem drift_completed {id : NodeId} {n : Node σ} (hn : g.node? id = some n) {state : σ}
    (ht : NodeState.typeName state = n.typeName) (outputs : Outputs) (upToDate : Bool) :
    Drift {m | m = id ∨ (n.outputs != outputs) = true ∧ g.wiring.Feeds id m} g
      (g.modify id (·.completed state outputs upToDate)) := by
  refine drift_modify (fun n' hn' => ?_) (.inl (.inl rfl)) ?_
  · rw [hn] at hn'
    cases hn'
    exact ⟨ht, Nat.le_refl _, fun h => absurd h Bool.false_ne_true⟩
  · cases hout : n.outputs == outputs with
    | true =>
      refine .inl (upheld_modify (fun n' hn' hfresh => ?_) id)
      rw [hn] at hn'
      cases hn'
      exact ⟨by simp [Node.completed, hfresh], hout⟩
    | false => exact .inr fun v hv => .inr ⟨by simp [bne, hout], hv⟩

omit [NodeState σ] in
/-- A node reads nothing of its own, so what is written to it does not disturb it. -/
theorem undisturbed_completed (hw : g.wiring.Sound) (id : NodeId) (state : σ)
    (outputs : Outputs) (upToDate : Bool) :
    Undisturbed g (g.modify id (·.completed state outputs upToDate)) id := by
  refine fun port => ⟨rfl, fun source hs u hu hfresh => ⟨u, ?_, hfresh, BEq.rfl⟩⟩
  rw [node?_modify, if_neg, hu]
  intro he
  exact hw.not_feeds_self id ⟨⟨source, ⟨id, port⟩⟩, hs, he.symm, rfl⟩

theorem finished_complete (hr : r.Steady) (hw : g.Whole r) {id : NodeId} {n : Node σ}
    (hn : g.node? id = some n) {state : σ} (hshape : r.SameShape n.state state) (p : Policy)
    (outputs : Outputs) (upToDate : Bool) :
    Finished r g id (n.completed state outputs upToDate)
      (g.complete p id n state outputs upToDate).1 := by
  have hwrite := drift_completed hn hshape.type outputs upToDate
  have hother := undisturbed_completed hw.wiring id state outputs upToDate
  have hself : (g.modify id (·.completed state outputs upToDate)).node? id =
      some (n.completed state outputs upToDate) := by
    rw [node?_modify, if_pos rfl, hn, Option.map_some]
  have hwhole : (g.modify id (·.completed state outputs upToDate)).Whole r := by
    refine hw.of_moulded hr hw.wiring (types_of_drift hwrite hw.types)
      (Moulded.modify fun n' hn' => ?_) fun c hc => hc
    rw [hn] at hn'
    cases hn'
    exact hshape
  unfold complete
  split
  · obtain ⟨visits, hv⟩ := visited_invalidateAll
      (g.modify id (·.completed state outputs upToDate)) hwhole.wiring (g.wiring.downstream id)
    refine ⟨hwhole.of_visited hr hv, (hwrite.settle hv).mono ?_, ?_⟩
    · intro m hex
      rcases hex with ⟨rfl | ⟨-, hfeeds⟩, hzero⟩
      · rfl
      · have hm := hv.starts m (hw.wiring.mem_downstream.2 hfeeds)
        exact absurd hzero (Nat.ne_of_gt hm)
    · have hnode := hv.node? id
      rw [hself, Option.map_some] at hnode
      obtain ⟨n₁, hn₁, hkin, hcase⟩ := Drift.of_visited hv id _ hnode
      rw [hself] at hn₁
      cases hn₁
      refine ⟨_, hnode, hkin, ?_⟩
      rcases hcase with hP | hout | ⟨hcalm, hund⟩
      · exact absurd hP (Set.notMem_empty id)
      · exact .inl hout
      · exact .inr ⟨hcalm, hother.trans hund⟩
  · rename_i hsame
    simp only [Bool.or_eq_true, not_or, Bool.not_eq_true] at hsame
    refine ⟨hwhole, hwrite.mono ?_, _, hself, .refl _, .inr ⟨.refl _, hother⟩⟩
    intro m hor
    rcases hor with rfl | ⟨hne, -⟩
    · rfl
    · rw [hsame.1] at hne
      cases hne

end Graph

end Patchbay
