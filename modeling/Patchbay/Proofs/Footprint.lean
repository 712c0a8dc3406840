import Patchbay.Proofs.Endurance
import Patchbay.Proofs.Progress

/-!
# How far a step reaches

A step of a run writes to the node of the run. Whoever is told of it lies downstream of that
node, and what a step may tell is that the outputs changed, or that there are none; as long as the
node stays fresh and nothing is written to it, nobody is told anything.

What is proved here:
  1. `Engine.within_turn`: a step changes the node of its run and the nodes below it alone.
  2. `Engine.node?_turn_of_fresh`: a step that leaves its node fresh, and is not the end of a
     computation that went well, changes no other node.
  3. `Engine.node?_turn_of_above`: what follows for a node whose producers stay fresh.
-/

namespace Patchbay

open Relation

variable {σ : Type}

namespace Graph

variable {g g₁ g₂ : Graph σ} {id m : NodeId}

/-- Only the node and what is below it differs in the second graph. -/
structure Within (g : Graph σ) (id : NodeId) (g' : Graph σ) : Prop where
  wiring : g'.wiring = g.wiring
  node? : ∀ m, ¬ ReflTransGen g.wiring.Feeds id m → g'.node? m = g.node? m

theorem Within.refl (g : Graph σ) (id : NodeId) : g.Within id g := ⟨rfl, fun _ _ => rfl⟩

theorem Within.trans (h : g.Within id g₁) (h' : g₁.Within id g₂) : g.Within id g₂ := by
  refine ⟨h'.wiring.trans h.wiring, fun m hm => ?_⟩
  rw [h'.node? m (by rwa [h.wiring]), h.node? m hm]

theorem within_modify (g : Graph σ) (id : NodeId) (f : Node σ → Node σ) :
    g.Within id (g.modify id f) := by
  refine ⟨rfl, fun m hm => ?_⟩
  rw [node?_modify, if_neg]
  intro heq
  exact hm (heq ▸ .refl)

theorem Visited.within {ids : List NodeId} {visits : NodeId → Nat} (h : Visited g ids visits g₁)
    (hids : ∀ u ∈ ids, ReflTransGen g.wiring.Feeds id u) : g.Within id g₁ := by
  refine ⟨h.wiring, fun m hm => ?_⟩
  have hzero : visits m = 0 := by
    by_contra hne
    obtain ⟨u, hu, hpath⟩ := h.reach m (Nat.pos_of_ne_zero hne)
    exact hm ((hids u hu).trans hpath)
  rw [h.node?, hzero, Node.map_aged_zero]

theorem within_invalidate (g : Graph σ) (hw : g.wiring.Sound) (id : NodeId) :
    g.Within id (g.invalidate id).1 := by
  obtain ⟨visits, hv⟩ := visited_invalidate g hw id
  exact hv.within (List.forall_mem_singleton.2 .refl)

theorem within_blockBelow (g : Graph σ) (hw : g.wiring.Sound) (id : NodeId) :
    g.Within id (g.blockBelow id).1 := by
  obtain ⟨S, hh, -, hbelow⟩ := halted_blockBelow g hw id
  refine ⟨hh.wiring, fun m hm => ?_⟩
  rw [hh.node?, if_neg]
  exact fun hS => hm (hbelow m hS).to_reflTransGen

theorem within_block (g : Graph σ) (hw : g.wiring.Sound) (id : NodeId) (ports : List Port) :
    g.Within id (g.block id ports).1 := by
  have hmark := g.within_modify id (·.blocked ports)
  have htold := hmark.trans (within_invalidate (g.modify id (·.blocked ports)) hw id)
  exact htold.trans (within_blockBelow _ (htold.wiring.symm ▸ hw) id)

theorem within_complete (g : Graph σ) (hw : g.wiring.Sound) (p : Policy) (id : NodeId) (n : Node σ)
    (state : σ) (outputs : Outputs) (upToDate : Bool) :
    g.Within id (g.complete p id n state outputs upToDate).1 := by
  obtain ⟨ids, visits, hv, hbelow⟩ := visited_complete hw p id n state outputs upToDate
  refine (g.within_modify id _).trans ⟨hv.wiring, fun m hm => ?_⟩
  have hzero : visits m = 0 := by
    by_contra hne
    exact hm (hbelow m (Nat.pos_of_ne_zero hne)).2.to_reflTransGen
  rw [hv.node?, hzero, Node.map_aged_zero]

theorem isFresh_invalidateAll {g : Graph σ} (hw : g.wiring.Sound) {ids : List NodeId} {id : NodeId}
    (hid : id ∈ ids) : (g.invalidateAll ids).1.isFresh id = false := by
  obtain ⟨visits, hv⟩ := visited_invalidateAll g hw ids
  have hpos := hv.starts id hid
  rw [isFresh, hv.node?]
  cases g.node? id with
  | none => rfl
  | some n => simp [Node.stale_aged hpos]

theorem isFresh_invalidate (g : Graph σ) (hw : g.wiring.Sound) (id : NodeId) :
    (g.invalidate id).1.isFresh id = false :=
  isFresh_invalidateAll hw (List.mem_singleton_self id)

theorem isFresh_block (g : Graph σ) (hw : g.wiring.Sound) (id : NodeId) (ports : List Port) :
    (g.block id ports).1.isFresh id = false := by
  have hstale := isFresh_invalidate (g.modify id (·.blocked ports)) hw id
  by_contra hfresh
  obtain ⟨n', hn', hs'⟩ := isFresh_iff.1 (Bool.not_eq_false _ ▸ hfresh)
  obtain ⟨n, hn, hkeeps⟩ := exists_of_rel' ((each_stopAll Node.robust_stale _ [] _).nodes id) hn'
  cases hs : n.stale with
  | true =>
    rw [hkeeps hs] at hs'
    cases hs'
  | false =>
    have hfresh : (_ : Graph σ).isFresh id = true := isFresh_iff.2 ⟨n, hn, hs⟩
    exact absurd (hstale.symm.trans hfresh) Bool.false_ne_true

end Graph

variable [NodeState σ]

/-- The step of this level writes the outputs of the node: the computation went well, and the run
has the node. -/
def Frame.Completes (g : Graph σ) (id : NodeId) (f : Frame σ) : Prop :=
  ∃ run epoch d context outputs n,
    f = .run id (.computing run epoch d context (.done (.ok outputs))) ∧
      g.node? id = some n ∧ n.run = run ∧ n.claimed = true

/-- With the end of such a computation the outputs are written. -/
theorem Frame.Completes.turn {e e' : Engine σ} {id : NodeId} {top : Frame σ}
    {rest new : List (Frame σ)} (h : top.Completes e.graph id) (hw : e.graph.Whole e.registry)
    (hturn : Turn e top rest e' new) : ∃ run epoch d context outputs n,
      top = .run id (.computing run epoch d context (.done (.ok outputs))) ∧
        e.graph.node? id = some n ∧ n.run = run ∧ n.claimed = true ∧
        e' = e.commitOutputs id n epoch d outputs ∧
        new = [.run id (.releasing run (.ok (.completed outputs)))] := by
  obtain ⟨run, epoch, d, context, outputs, n, rfl, hn, hrun, hclaimed⟩ := h
  refine ⟨run, epoch, d, context, outputs, n, rfl, hn, hrun, hclaimed, ?_⟩
  cases hturn with
  | finish id run epoch rest n' d context outputs hn' hrun' hclaimed' =>
    rw [hn] at hn'
    cases hn'
    exact ⟨rfl, rfl⟩
  | pass top rest e' new hpass =>
    cases hpass with
    | quit id run phase rest e' ending hsame hbeat hphase hend hlost =>
      rcases hphase with heq | ⟨_, _, _, _, heq⟩ <;> cases heq
      exact (hw.not_lost ⟨n, hn, hclaimed, hrun⟩ hlost).elim

namespace Engine

open Patchbay.Graph

variable {e e' : Engine σ} {id m : NodeId} {phase : Phase σ} {top : Frame σ}
  {rest new : List (Frame σ)}

/-- What a step keeps of a node that is not written to: all that every traversal keeps and that
claims, releases, failures and stop signs keep as well. -/
theorem rel_turn_of_not_completes {R : Node σ → Node σ → Prop} (hR : Node.Robust R)
    (hturn : Turn e top rest e' new) (hnot : ¬ top.Completes e.graph m)
    (hwrites : ∀ n n', e.graph.node? m = some n → top.Writes m n n' →
      (∀ run epoch d context outputs,
        top ≠ .run m (.computing run epoch d context (.done (.ok outputs)))) → R n n') :
    Option.Rel R (e.graph.node? m) (e'.graph.node? m) := by
  by_cases hdone : ∃ run epoch d context outputs,
      top = .run m (.computing run epoch d context (.done (.ok outputs)))
  · obtain ⟨run, epoch, d, context, outputs, rfl⟩ := hdone
    cases hturn with
    | finish id run epoch rest n d context outputs hn hrun hclaimed =>
      exact absurd ⟨run, epoch, d, context, outputs, n, rfl, hn, hrun, hclaimed⟩ hnot
    | pass top rest e' new hpass =>
      rw [hpass.same.graph]
      exact rel_refl hR.refl _
  · exact rel_turn_of_writes hR hturn fun n n' hn hw => hwrites n n' hn hw
      fun run epoch d context outputs heq => hdone ⟨run, epoch, d, context, outputs, heq⟩

/-- Nobody's state changes but that of a node whose outputs are written. -/
theorem rel_state_turn (hturn : Turn e top rest e' new) (hnot : ¬ top.Completes e.graph m) :
    Option.Rel (fun n n' => n'.state = n.state) (e.graph.node? m) (e'.graph.node? m) := by
  refine rel_turn_of_not_completes Node.robust_state hturn hnot fun n n' _ hwrites hdone => ?_
  cases hwrites with
  | completed => exact absurd rfl (hdone _ _ _ _ _)
  | released _ run _ n =>
    unfold Node.released
    split <;> rfl
  | _ => rfl

/-- A step changes the node of its run and the nodes below it alone. -/
theorem within_turn (hw : e.graph.wiring.Sound) (hturn : Turn e (.run id phase) rest e' new) :
    e.graph.Within id e'.graph := by
  cases hturn with
  | enter id rest => exact .refl _ _
  | claim id run rest n hn hfree => exact within_modify _ _ _
  | list id run rest => exact .refl _ _
  | pull id run p todo rest => exact .refl _ _
  | block id run rest n d events hn hrun hd hinputs => exact within_block _ hw _ _
  | begin id run rest n d inputs hn hrun hd hinputs => exact within_modify _ _ _
  | finish id run epoch rest n d context outputs hn hrun hclaimed =>
    obtain ⟨-, -, hgraph, -⟩ := commitOutputs_spec e id n epoch d outputs
    rw [hgraph]
    exact within_complete _ hw _ _ _ _ _ _
  | fail id run epoch rest d context cause n hn hrun hclaimed =>
    exact (within_modify _ id _).trans (within_invalidate (e.graph.modify id _) hw id)
  | release id run ending rest => exact within_modify _ _ _
  | pass top rest e' new hpass =>
    rw [hpass.same.graph]
    exact .refl _ _

/-- A step that leaves its node fresh, and is not the end of a computation that went well, changes
no other node. -/
theorem node?_turn_of_fresh (hw : e.graph.wiring.Sound)
    (hturn : Turn e (.run id phase) rest e' new)
    (hnot : ¬ (Frame.run id phase).Completes e.graph id) (hfresh : e'.graph.isFresh id = true)
    (hm : m ≠ id) : e'.graph.node? m = e.graph.node? m := by
  have hmodify : ∀ f : Node σ → Node σ, (e.graph.modify id f).node? m = e.graph.node? m :=
    fun f => by rw [node?_modify, if_neg (Ne.symm hm)]
  cases hturn with
  | enter id rest => rfl
  | claim id run rest n hn hfree => exact hmodify _
  | list id run rest => rfl
  | pull id run p todo rest => rfl
  | block id run rest n d events hn hrun hd hinputs =>
    have hstale := isFresh_block e.graph hw id (d.ports n.state)
    exact absurd (hstale.symm.trans hfresh) Bool.false_ne_true
  | begin id run rest n d inputs hn hrun hd hinputs => exact hmodify _
  | finish id run epoch rest n d context outputs hn hrun hclaimed =>
    exact absurd ⟨run, epoch, d, context, outputs, n, rfl, hn, hrun, hclaimed⟩ hnot
  | fail id run epoch rest d context cause n hn hrun hclaimed =>
    have hstale := isFresh_invalidate
      (e.graph.modify id (·.failed (Error.executionFailed id cause).message)) hw id
    exact absurd (hstale.symm.trans hfresh) Bool.false_ne_true
  | release id run ending rest => exact hmodify _
  | pass top rest e' new hpass => rw [hpass.same.graph]

/-- Nothing happens to a node whose producers stay fresh and are not written to, but for what its
own runs do. -/
theorem node?_turn_of_above (hw : e.graph.wiring.Sound) (hturn : Turn e top rest e' new)
    (habove : ∀ u, TransGen e.graph.wiring.Feeds u m →
      e'.graph.isFresh u = true ∧ ¬ top.Completes e.graph u)
    (hown : ∀ phase, top ≠ .run m phase) : e'.graph.node? m = e.graph.node? m := by
  cases top with
  | run id phase =>
    have hm : m ≠ id := fun heq => hown phase (heq ▸ rfl)
    by_cases hpath : TransGen e.graph.wiring.Feeds id m
    · obtain ⟨hfresh, hnot⟩ := habove id hpath
      exact node?_turn_of_fresh hw hturn hnot hfresh hm
    · refine (within_turn hw hturn).node? m fun hreach => ?_
      rcases reflTransGen_iff_eq_or_transGen.1 hreach with heq | hpath'
      · exact hm heq
      · exact hpath hpath'
  | wait t watch => rw [graph_turn_of_idle hturn rfl]
  | errand left => rw [graph_turn_of_idle hturn rfl]

end Engine

end Patchbay
