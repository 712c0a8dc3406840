import Patchbay.Proofs.Progress

/-!
# What holds on each level of a task

While nobody edits the graph, every level of a running task is in order: a run that lists or
pulls has its node, the producers that it does not pull any more are settled, a computation that
goes on gives what the recursion gives, and a run that is over has left its node settled. This
is an invariant of all tasks together, since no step of one task takes anything from another.

What is proved here:
  1. `Frame.Fits.advance`: what is known of a level outlasts the steps of other runs.
  2. `fits_turn`: a step of a task leaves its own levels in order.
-/

namespace Patchbay

variable {σ : Type}

/-! ## The invariant -/

namespace Graph

/-- The run that ended so has left its node settled and says what the recursion says; or it
found the node claimed by another run, which has it still or has left it settled. -/
def Concluded (g : Graph σ) (v : NodeId → Ending) (id : NodeId) (ending : Ending) : Prop :=
  (ending = .ok .alreadyRunning ∧ (g.IsClaimed id ∨ g.Settled v id)) ∨
    (Ending.Agrees ending (v id) ∧ g.Settled v id)

end Graph

/-- What holds of a run in this phase. `above` is the node that the level above is about, if
there is one. -/
def Phase.Fits (v : NodeId → Ending) (g : Graph σ) (id : NodeId) (above : Option NodeId) :
    Phase σ → Prop
  | .entering | .claiming _ => True
  | .listing run => g.ClaimedBy id run
  | .pulling run todo => g.ClaimedBy id run ∧
      ∀ u, g.wiring.Feeds u id → u ∈ todo ∨ g.Settled v u ∨ above = some u
  | .computing run epoch _ _ c =>
    (∃ n, g.node? id = some n ∧ n.claimed = true ∧ n.run = run ∧ n.epoch = epoch) ∧
      g.Fed id ∧ ∃ result, c = .done result ∧ Ending.Agrees (.ofResult id result) (v id)
  | .releasing run ending => ¬ g.ClaimedBy id run ∧ g.Concluded v id ending
  | .announcing ending | .leaving ending | .parting ending | .ended ending =>
    g.Concluded v id ending

namespace Frame

/-- The node that a level is about. -/
def node? : Frame σ → Option NodeId
  | .run id _ | .wait (.node id) _ => some id
  | _ => none

def Fits (v : NodeId → Ending) (g : Graph σ) (above : Option NodeId) : Frame σ → Prop
  | .run id phase => phase.Fits v g id above
  | .wait (.node id) _ => g.IsClaimed id ∨ g.Settled v id
  | _ => True

end Frame

/-- The level is not about to write to a node that is fresh. -/
def Frame.Novel (g : Graph σ) : Frame σ → Prop
  | .run id (.computing _ _ _ _ _) => g.isFresh id = false
  | _ => True

namespace Stack

/-- What holds of all levels of a task, below one that is about a node. -/
def Fits (v : NodeId → Ending) (g : Graph σ) : Option NodeId → Stack σ → Prop
  | _, [] => True
  | above, f :: rest => f.Fits v g above ∧ Fits v g f.node? rest

end Stack

variable {v : NodeId → Ending} {run : Option Nat} {g g' : Graph σ} {id : NodeId}
  {above : Option NodeId}

/-! ## Steps of other runs -/

theorem Graph.Advance.awaited (h : Graph.Advance v run g g')
    (hid : g.IsClaimed id ∨ g.Settled v id) : g'.IsClaimed id ∨ g'.Settled v id := by
  rcases hid with hclaimed | hsettled
  · exact h.released id hclaimed
  · exact .inr (h.settled id hsettled)

theorem Graph.Concluded.advance {ending : Ending} (h : g.Concluded v id ending)
    (ha : Graph.Advance v run g g') : g'.Concluded v id ending :=
  h.imp (fun h => ⟨h.1, ha.awaited h.2⟩) fun h => ⟨h.1, ha.settled id h.2⟩

theorem Graph.Advance.claimedBy (h : Graph.Advance v run g g') {k : Nat} (hk : run ≠ some k)
    (hc : g.ClaimedBy id k) : g'.ClaimedBy id k := by
  obtain ⟨n, hn, hclaimed, rfl⟩ := hc
  obtain ⟨n', hn', hclaimed', hrun', -⟩ := h.claimer id n hn hclaimed hk
  exact ⟨n', hn', hclaimed', hrun'⟩

/-- What is fed stays fed, since a fresh node completes. -/
theorem Graph.Advance.fed (h : Graph.Advance v run g g')
    (hfresh : ∀ u, g.isFresh u = true → (v u).IsCompleted) (hid : g.Fed id) : g'.Fed id := by
  intro u hu
  rw [h.wiring] at hu
  exact (h.settled u (.inl (hid u hu))).resolve_right (not_not_intro (hfresh u (hid u hu)))

/-- What is known of a level outlasts the steps of other runs. -/
theorem Frame.Fits.advance {f : Frame σ} (h : f.Fits v g above) (ha : Graph.Advance v run g g')
    (hfresh : ∀ u, g.isFresh u = true → (v u).IsCompleted)
    (hrun : ∀ k, f.run? = some k → run ≠ some k) : f.Fits v g' above := by
  cases f with
  | errand left => trivial
  | wait target watch =>
    cases target with
    | all => trivial
    | node p => exact ha.awaited h
  | run id phase =>
    cases phase with
    | entering => trivial
    | claiming k => trivial
    | listing k => exact ha.claimedBy (hrun k rfl) h
    | pulling k todo =>
      refine ⟨ha.claimedBy (hrun k rfl) h.1, fun u hu => ?_⟩
      rw [ha.wiring] at hu
      exact (h.2 u hu).imp_right (Or.imp_left (ha.settled u))
    | computing k epoch d context c =>
      obtain ⟨⟨n, hn, hclaimed, rfl, rfl⟩, hfed, hresult⟩ := h
      obtain ⟨n', hn', hclaimed', hrun', hepoch⟩ := ha.claimer id n hn hclaimed (hrun n.run rfl)
      exact ⟨⟨n', hn', hclaimed', hrun', hepoch hfed⟩, ha.fed hfresh hfed, hresult⟩
    | releasing k ending =>
      exact ⟨fun hc => h.1 (ha.unclaimed id k (hrun k rfl) hc), h.2.advance ha⟩
    | announcing ending | leaving ending | parting ending | ended ending =>
      exact Graph.Concluded.advance h ha

theorem Stack.Fits.advance {s : Stack σ} (h : Stack.Fits v g above s)
    (ha : Graph.Advance v run g g') (hfresh : ∀ u, g.isFresh u = true → (v u).IsCompleted)
    (hrun : ∀ f ∈ s, ∀ k, f.run? = some k → run ≠ some k) : Stack.Fits v g' above s := by
  induction s generalizing above with
  | nil => trivial
  | cons f rest ih =>
    refine ⟨h.1.advance ha hfresh (hrun f List.mem_cons_self), ih h.2 fun f' hf' => ?_⟩
    exact hrun f' (List.mem_cons_of_mem _ hf')

/-! ## The end of a level -/

theorem Frame.Fits.skip {f : Frame σ} (h : f.Fits v g above)
    (hf : ∀ outer phase, f ≠ .run outer phase) : f.Fits v g none := by
  cases f with
  | run outer phase => exact absurd rfl (hf outer phase)
  | wait target watch =>
    cases target with
    | node p => exact h
    | all => trivial
  | errand left => trivial

theorem Stack.Fits.skip {s : Stack σ} (h : Stack.Fits v g above s)
    (hs : ∀ outer phase, s.head? ≠ some (.run outer phase)) : Stack.Fits v g none s := by
  cases s with
  | nil => trivial
  | cons f rest =>
    refine ⟨h.1.skip fun outer phase hf => hs outer phase ?_, h.2⟩
    rw [List.head?_cons, hf]

/-- The level below goes on if the node that it waited for is settled. -/
theorem Stack.Fits.settle {s : Stack σ} (h : Stack.Fits v g (some id) s)
    (hid : g.Settled v id) : Stack.Fits v g none s := by
  cases s with
  | nil => trivial
  | cons f rest =>
    refine ⟨?_, h.2⟩
    have hf := h.1
    cases f with
    | run outer phase =>
      cases phase with
      | pulling k todo =>
        refine ⟨hf.1, fun u hu => ?_⟩
        rcases hf.2 u hu with htodo | hsettled | habove
        · exact .inl htodo
        · exact .inr (.inl hsettled)
        · cases habove
          exact .inr (.inl hid)
      | _ => exact hf
    | _ => exact hf.skip fun outer phase e => nomatch e

/-- The innermost level is replaced by one that is about the same node. -/
theorem Stack.Fits.replace {top f : Frame σ} {rest : Stack σ}
    (h : Stack.Fits v g none (top :: rest)) (ha : Graph.Advance v top.run? g g')
    (hfresh : ∀ u, g.isFresh u = true → (v u).IsCompleted)
    (hrest : ∀ f ∈ rest, ∀ k, f.run? = some k → top.run? ≠ some k)
    (hnode : f.node? = top.node?) (hf : f.Fits v g' none) :
    Stack.Fits v g' none (f :: rest) := by
  refine ⟨hf, ?_⟩
  rw [hnode]
  exact h.2.advance ha hfresh hrest

variable [NodeState σ] {r : Registry σ} {e e' : Engine σ}

/-! ## What the recursion gives for a node that a run works on -/

section

variable {h : WellFounded g.wiring.Feeds} {n : Node σ} {d : Definition σ}

/-- If what feeds a node is settled, what can be read is what the recursion gives. -/
theorem Graph.beq_resolve (hcorrect : ∀ u, g.CorrectAt r h u)
    (hsettled : ∀ u, g.wiring.Feeds u id → g.Settled (g.evaluate r h) u) (ports : List Port) :
    (g.wiring.gather (fun source => (g.evaluate r h source.node).value? source.port) id ports ==
      g.resolve id ports) = true :=
  Wiring.gather_beq fun port source hs => Graph.Settled.beq_freshValue? (hcorrect source.node)
    (hsettled source.node ⟨⟨source, ⟨id, port⟩⟩, hs, rfl, rfl⟩)

theorem Graph.evaluate_of_resolve_none (hcorrect : ∀ u, g.CorrectAt r h u)
    (hsettled : ∀ u, g.wiring.Feeds u id → g.Settled (g.evaluate r h) u)
    (hn : g.node? id = some n) (hd : r.of? n.state = some d)
    (hinputs : g.resolve id (d.ports n.state) = none) : g.evaluate r h id = .ok .blocked := by
  have hgather := beq_resolve hcorrect hsettled (d.ports n.state)
  rw [hinputs] at hgather
  rw [Graph.evaluate_eq]
  refine evaluateWith_blocked (by rw [state?, hn, Option.map_some]) hd ?_
  cases hown : g.wiring.gather _ id (d.ports n.state) with
  | none => rfl
  | some own =>
    rw [hown] at hgather
    cases hgather

theorem Graph.agrees_of_resolve_some (hr : r.Functional) (hcorrect : ∀ u, g.CorrectAt r h u)
    (hsettled : ∀ u, g.wiring.Feeds u id → g.Settled (g.evaluate r h) u)
    (hn : g.node? id = some n) (hd : r.of? n.state = some d) {inputs : Inputs}
    (hinputs : g.resolve id (d.ports n.state) = some inputs) :
    ∃ result, d.compute ⟨id, n.state, inputs⟩ = .done result ∧
      Ending.Agrees (.ofResult id result) (g.evaluate r h id) := by
  obtain ⟨result, hresult⟩ := hr.total d ⟨id, n.state, inputs⟩ hd
  have hgather := beq_resolve hcorrect hsettled (d.ports n.state)
  rw [hinputs] at hgather
  refine ⟨result, hresult, ?_⟩
  rw [Graph.evaluate_eq]
  exact (agrees_evaluateWith hr (by rw [state?, hn, Option.map_some]) hd (.refl _) hgather
    hresult).symm

theorem Engine.mem_toPull (hr : r.Functional) (hreg : e.registry = r) (hw : e.graph.Whole r)
    {u : NodeId} (hu : e.graph.wiring.Feeds u id) :
    u ∈ e.toPull id ∨ e.graph.isFresh u = true := by
  obtain ⟨c, hc, rfl, rfl⟩ := hu
  obtain ⟨-, -, ⟨n, d, hn, hd, -⟩, -⟩ := hw.joined c hc
  cases hs : n.stale with
  | false => exact .inr (Graph.isFresh_iff.2 ⟨n, hn, hs⟩)
  | true =>
    refine .inl (List.mem_filter.2 ⟨Wiring.mem_feeders.2 ⟨c, hc, rfl, rfl⟩, ?_⟩)
    have hmode : e.registry.isReactive n.typeName = true := by
      rw [Registry.of?] at hd
      rw [hreg, Registry.isReactive, Registry.metadata?, Node.typeName, hd]
      simpa using hr.reactive _ d hd
    rw [hn, Option.any_some, hs, hmode]
    rfl

end

/-! ## Steps of the task itself -/

/-- A graph in the middle of some runs: `v` is what the recursion gives for its nodes, and fresh
nodes hold it. -/
structure Graph.Tends (r : Registry σ) (v : NodeId → Ending) (g : Graph σ) : Prop where
  whole : g.Whole r
  closed : g.Closed
  correct : ∀ id, g.CorrectAt r whole.wiring.acyclic id
  value : g.evaluate r whole.wiring.acyclic = v

namespace Graph.Tends

variable {n : Node σ} {d : Definition σ}

theorem completed_of_fresh (h : g.Tends r v) (hn : g.node? id = some n) (hs : n.stale = false) :
    ∃ outputs, v id = .ok (.completed outputs) ∧ (n.outputs == outputs) = true := by
  obtain ⟨outputs, heval, hout⟩ := h.correct id n hn hs
  rw [h.value] at heval
  exact ⟨outputs, heval, hout⟩

theorem isCompleted (h : g.Tends r v) (u : NodeId) (hu : g.isFresh u = true) :
    (v u).IsCompleted := by
  obtain ⟨n, hn, hs⟩ := isFresh_iff.1 hu
  obtain ⟨outputs, heval, -⟩ := h.completed_of_fresh hn hs
  exact ⟨outputs, heval⟩

theorem stale (h : g.Tends r v) (hn : g.node? id = some n) (hnot : ¬ (v id).IsCompleted) :
    n.stale = true := by
  cases hs : n.stale with
  | true => rfl
  | false => exact absurd (h.isCompleted id (isFresh_iff.2 ⟨n, hn, hs⟩)) hnot

theorem value_of_absent (h : g.Tends r v) (hn : g.node? id = none) :
    v id = .error (.nodeNotFound id) := by
  rw [← h.value, Graph.evaluate_eq]
  exact evaluateWith_absent (by rw [state?, hn, Option.map_none])

/-- A run that has no producers left to pull has settled them all. -/
theorem settled_feeders (h : g.Tends r v) {run : Nat}
    (hfits : Phase.Fits v g id none (.pulling run [])) {u : NodeId} (hu : g.wiring.Feeds u id) :
    g.Settled (g.evaluate r h.whole.wiring.acyclic) u := by
  rw [h.value]
  rcases hfits.2 u hu with htodo | hsettled | habove
  · cases htodo
  · exact hsettled
  · cases habove

theorem block (h : g.Tends r v) (hn : g.node? id = some n) (hd : r.of? n.state = some d)
    (hinputs : g.resolve id (d.ports n.state) = none)
    (hfits : Phase.Fits v g id none (.pulling n.run [])) :
    let g' := (g.block id (d.ports n.state)).1
    Advance v (some n.run) g g' ∧ Phase.Fits v g' id none (.releasing n.run (.ok .blocked)) := by
  have hvalue := evaluate_of_resolve_none h.correct (fun _ => h.settled_feeders hfits) hn hd hinputs
  rw [h.value] at hvalue
  have hnot : ¬ (v id).IsCompleted := by
    intro hex
    obtain ⟨outputs, ho⟩ := hex
    rw [hvalue] at ho
    cases ho
  obtain ⟨ha, hfree⟩ :=
    advance_block h.whole.wiring h.closed hn (h.stale hn hnot) hnot (d.ports n.state)
  refine ⟨ha, hfree n.run, .inr ⟨?_, .inr hnot⟩⟩
  rw [hvalue]
  exact .refl _

theorem begin (h : g.Tends r v) (hr : r.Functional) (hn : g.node? id = some n)
    (hd : r.of? n.state = some d) {inputs : Inputs}
    (hinputs : g.resolve id (d.ports n.state) = some inputs)
    (hfits : Phase.Fits v g id none (.pulling n.run [])) :
    let g' := g.modify id Node.started
    Advance v (some n.run) g g' ∧ Phase.Fits v g' id none (.computing n.run n.epoch d
      ⟨id, n.state, inputs⟩ (d.compute ⟨id, n.state, inputs⟩)) := by
  obtain ⟨result, hresult, hagrees⟩ :=
    agrees_of_resolve_some hr h.correct (fun _ => h.settled_feeders hfits) hn hd hinputs
  rw [h.value] at hagrees
  obtain ⟨n', hn', hclaimed, -⟩ := hfits.1
  rw [hn] at hn'
  cases hn'
  have ha : Advance v (some n.run) g (g.modify id Node.started) :=
    .modify h.closed fun _ _ => ⟨rfl, rfl, rfl, rfl, rfl⟩
  refine ⟨ha, ⟨n.started, ?_, hclaimed, rfl, rfl⟩, ?_, result, hresult, hagrees⟩
  · rw [node?_modify_self, hn, Option.map_some]
  · apply ha.fed h.isCompleted
    intro u hu
    exact (reads_of_resolve h.whole hn hd hinputs).isFresh hu

theorem finish (h : g.Tends r v) (hn : g.node? id = some n) {epoch : Nat} (d : Definition σ)
    (context : Context σ) {outputs : Outputs} (p : Policy)
    (hfits : Phase.Fits v g id none (.computing n.run epoch d context (.done (.ok outputs)))) :
    let g' := (g.complete p id n n.state outputs (n.epoch == epoch)).1
    Congruent g g' ∧
      (p.propagateUnchanged = false ∨ g.isFresh id = false → Advance v (some n.run) g g') ∧
      Phase.Fits v g' id none (.releasing n.run (.ok (.completed outputs))) := by
  obtain ⟨⟨n', hn', -, -, rfl⟩, -, result, hresult, hagrees⟩ := hfits
  rw [hn] at hn'
  cases hn'
  cases hresult
  have hsame : n.stale = false → (n.outputs == outputs) = true := by
    intro hs
    obtain ⟨own, hown, hout⟩ := h.completed_of_fresh hn hs
    rw [hown] at hagrees
    obtain ⟨own', he, heq⟩ := hagrees.completed_right
    cases he
    exact BEq.trans hout heq
  rw [beq_self_eq_true]
  have hfree := not_claimedBy (node?_complete h.whole.wiring hn p n.state outputs true) rfl n.run
  have hfresh := isFresh_complete h.whole.wiring hn p n.state outputs
  refine ⟨congruent_complete h.whole.wiring hn p outputs true, fun hp => ?_, hfree,
    .inr ⟨hagrees, .inl hfresh⟩⟩
  apply advance_complete h.whole.wiring h.closed hn hsame
  exact hp.imp_right fun hstale => stale_of_isFresh_eq_false hstale hn

theorem fail (h : g.Tends r v) (hn : g.node? id = some n) {epoch : Nat} (d : Definition σ)
    (context : Context σ) {cause : Failure}
    (hfits : Phase.Fits v g id none (.computing n.run epoch d context (.done (.error cause))))
    (message : String) :
    let g' := ((g.modify id (·.failed message)).invalidate id).1
    Advance v (some n.run) g g' ∧
      Phase.Fits v g' id none (.releasing n.run (.error (.executionFailed id cause))) := by
  obtain ⟨-, -, result, hresult, hagrees⟩ := hfits
  cases hresult
  have hnot : ¬ (v id).IsCompleted := by
    intro hcompleted
    obtain ⟨outputs, ho⟩ := hagrees.symm.isCompleted hcompleted
    cases ho
  obtain ⟨ha, hfree⟩ :=
    advance_failed h.whole.wiring h.closed hn (h.stale hn hnot) hnot message
  exact ⟨ha, hfree n.run, .inr ⟨hagrees, .inr hnot⟩⟩

theorem release (h : g.Tends r v) {run : Nat} {ending : Ending}
    (hfits : Phase.Fits v g id none (.releasing run ending)) :
    let g' := g.modify id (·.released run)
    Advance v (some run) g g' ∧ Phase.Fits v g' id none (.announcing ending) := by
  have ha : Advance v (some run) g (g.modify id (·.released run)) := by
    apply Advance.modify h.closed
    intro n hn
    have hlost : ¬ (n.run == run && n.claimed) = true := by
      intro h
      simp only [Bool.and_eq_true, beq_iff_eq] at h
      exact hfits.1 ⟨n, hn, h.2, h.1⟩
    rw [Node.released, if_neg hlost]
    exact ⟨rfl, rfl, rfl, rfl, rfl⟩
  exact ⟨ha, hfits.2.advance ha⟩

/-- Nothing changes for the graph, and the levels that take the place of the innermost one are in
order. -/
theorem pass (h : g.Tends r v) (hreg : e.registry = r) (hgraph : e.graph = g) {top : Frame σ}
    {rest new : List (Frame σ)} (hpass : Pass e top rest e' new)
    (hfits : Stack.Fits v g none (top :: rest)) : Stack.Fits v g none (new ++ rest) := by
  have hpos := hfits.1
  cases hpass with
  | absent id run rest hn =>
    rw [hgraph] at hn
    have hvalue := h.value_of_absent hn
    refine ⟨.inr ⟨?_, .inr ?_⟩, hfits.2⟩
    · rw [hvalue]
      exact .refl _
    · intro hex
      obtain ⟨outputs, ho⟩ := hex
      rw [hvalue] at ho
      cases ho
  | busy id run rest n hn hclaimed =>
    rw [hgraph] at hn
    exact ⟨.inl ⟨rfl, .inl ⟨n.run, n, hn, hclaimed, rfl⟩⟩, hfits.2⟩
  | quit id run phase rest e' ending hsame hbeat hphase hend hlost =>
    have hclaim : g.ClaimedBy id run := by
      rcases hphase with rfl | ⟨epoch, d, context, result, rfl⟩
      · exact hpos.1
      · obtain ⟨n, hn, hclaimed, hrun, -⟩ := hpos.1
        exact ⟨n, hn, hclaimed, hrun⟩
    rw [hgraph, hreg] at hlost
    exact (h.whole.not_lost hclaim hlost).elim
  | announce id ending rest | leave id ending rest | part id ending rest => exact hfits
  | await id outer phase rest =>
    refine ⟨?_, hfits.2⟩
    rcases hpos with ⟨-, hawaited⟩ | ⟨-, hsettled⟩
    · exact hawaited
    · exact .inr hsettled
  | drop id ending rest hrest hend =>
    rcases hpos with ⟨hbusy, -⟩ | ⟨-, hsettled⟩
    · exact hfits.2.skip (hend hbusy)
    · exact hfits.2.settle hsettled
  | look t watch rest hwatch =>
    cases t with
    | node p => exact hfits
    | all => exact hfits
  | park t seen rest hreached =>
    cases t with
    | node p => exact hfits
    | all => exact hfits
  | arrive t seen rest hreached =>
    cases t with
    | all => exact hfits.2
    | node p =>
      refine hfits.2.settle (hpos.resolve_left ?_)
      intro hex
      obtain ⟨run, n, hn, hclaimed, -⟩ := hex
      rw [Engine.reached, hgraph, hn] at hreached
      simp [hclaimed] at hreached
  | giveUp rest => exact ⟨trivial, hfits.2⟩
  | forget rest => exact hfits.2

end Graph.Tends

/-- A step of a task takes nothing from other runs, unless equal outputs of a fresh node are
propagated. It leaves the levels of the task in order, in that case too if the task has only
one. -/
theorem fits_turn (hr : r.Functional) {top : Frame σ} {rest new pre post : List (Frame σ)}
    (hsound : Sound r e (pre ++ top :: post)) (h : e.graph.Tends r v)
    (hrest : ∀ f ∈ rest, ∀ k, f.run? = some k → top.run? ≠ some k)
    (hturn : Turn e top rest e' new) (hfits : Stack.Fits v e.graph none (top :: rest)) :
    let novel := e.policy.propagateUnchanged = false ∨ top.Novel e.graph
    Graph.Congruent e.graph e'.graph ∧ (novel → Graph.Advance v top.run? e.graph e'.graph) ∧
      (novel ∨ rest = [] → Stack.Fits v e'.graph none (new ++ rest)) := by
  intro novel
  have hcalm : ∀ {s : Stack σ}, Graph.Advance v top.run? e.graph e'.graph →
      Stack.Fits v e'.graph none s → Graph.Congruent e.graph e'.graph ∧
        (novel → Graph.Advance v top.run? e.graph e'.graph) ∧
        (novel ∨ rest = [] → Stack.Fits v e'.graph none s) :=
    fun ha hs => ⟨ha.toCongruent, fun _ => ha, fun _ => hs⟩
  have hreplace : ∀ {f : Frame σ}, Graph.Advance v top.run? e.graph e'.graph →
      f.node? = top.node? → f.Fits v e'.graph none → _ :=
    fun ha hnode hf => hcalm ha (hfits.replace ha h.isCompleted hrest hnode hf)
  have hrefl := Graph.Advance.refl v top.run? e.graph
  have hpos := hfits.1
  cases hturn with
  | enter id rest => exact hreplace hrefl rfl trivial
  | claim id run rest n hn hfree =>
    refine hreplace (.taken h.closed hn hfree) rfl ⟨n.taken run, ?_, rfl, rfl⟩
    exact (Graph.node?_modify_self _ _ _).trans (by rw [hn, Option.map_some])
  | list id run rest =>
    refine hreplace hrefl rfl ⟨hpos, fun u hu => ?_⟩
    apply (Engine.mem_toPull hr hsound.registry h.whole hu).imp_right
    intro hfresh
    exact .inl (.inl hfresh)
  | pull id run p todo rest =>
    refine hcalm hrefl ⟨trivial, ⟨hpos.1, fun u hu => ?_⟩, hfits.2⟩
    rcases hpos.2 u hu with htodo | hsettled | habove
    · rcases List.mem_cons.1 htodo with rfl | htodo
      · exact .inr (.inr rfl)
      · exact .inl htodo
    · exact .inr (.inl hsettled)
    · cases habove
  | block id run rest n d events hn hrun hd hinputs =>
    subst hrun
    rw [hsound.registry] at hd
    obtain ⟨ha, hf⟩ := h.block hn hd hinputs hpos
    exact hreplace ha rfl hf
  | begin id run rest n d inputs hn hrun hd hinputs =>
    subst hrun
    rw [hsound.registry] at hd
    obtain ⟨ha, hf⟩ := h.begin hr hn hd hinputs hpos
    exact hreplace ha rfl hf
  | finish id run epoch rest n d context outputs hn hrun hclaimed =>
    subst hrun
    obtain ⟨-, hd⟩ := hsound.valid (List.mem_append_right _ List.mem_cons_self) hn rfl hclaimed
    obtain ⟨hcong, ha, hf⟩ := h.finish hn d context e.policy hpos
    rw [← hr.result d n.state outputs hd] at hcong ha hf
    have hgraph := (Engine.commitOutputs_spec e id n epoch d outputs).2.2.1
    rw [← hgraph] at hcong ha hf
    refine ⟨hcong, ha, fun hor => ?_⟩
    rcases hor with hnovel | rfl
    · exact hfits.replace (ha hnovel) h.isCompleted hrest rfl hf
    · exact ⟨hf, trivial⟩
  | fail id run epoch rest d context cause n hn hrun hclaimed =>
    subst hrun
    obtain ⟨ha, hf⟩ := h.fail hn d context hpos (Error.executionFailed id cause).message
    exact hreplace ha rfl hf
  | release id run ending rest =>
    obtain ⟨ha, hf⟩ := h.release hpos
    exact hreplace ha rfl hf
  | pass top rest e' new hpass =>
    have hgraph := hpass.same.graph
    refine hcalm (by rwa [hgraph]) ?_
    rw [hgraph]
    exact h.pass hsound.registry rfl hpass hfits

end Patchbay
