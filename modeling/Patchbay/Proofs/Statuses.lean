import Patchbay.Proofs.Footprint
import Patchbay.Proofs.Tenure

/-!
# Status, flags and the last failure

A node tells in several fields how its executions went, and edits, claims, results and stop signs
each write to some of them. `Consistent` says that the fields never contradict each other. Nothing
is assumed of the node types here.

The traversals and the reactions of node types, and the edits too, do to a node only what `Fades`
says: its claim and its failure text stay, and its status is either kept or taken back from a node
that is stale then. What is left are the writes of the run that has the node. They are the legal
ones because a run that is still before its computation has claimed the node that it finds its
number on, and that node is not generating.

What is proved here:
  1. `Node.Consistent.fades`, `Engine.consistent_turn`: what keeps a node consistent.
  2. `Frame.Poised`, `Engine.poised_turn`: what a run finds at its node before it computes and
     after.
  3. `World.coherent_after`: both hold in every world that can be reached without restorations.
  4. `World.consistent_after`: the fields of every node agree, and a node that never had a result
     written to it is stale.
-/

namespace Patchbay

open Patchbay.Graph

variable {σ : Type}

namespace Node

/-- What a node says of itself in different fields agrees. -/
structure Consistent (n : Node σ) : Prop where
  generating : n.status = .generating → n.claimed = true
  fresh : n.stale = false → n.status = .succeeded ∨ n.status = .generating
  failed : n.status = .failed → n.stale = true ∧ n.lastError.isSome = true
  blocked : n.status = .blocked → n.stale = true
  succeeded : n.status = .succeeded → n.lastError = none

/-- One node at two times between which no run has written to it. -/
structure Fades (n n' : Node σ) : Prop where
  run : n'.run = n.run
  claimed : n'.claimed = n.claimed
  lastError : n'.lastError = n.lastError
  stale : n.stale = true → n'.stale = true
  status : n'.status = n.status ∨
    n'.stale = true ∧ (n'.status = .idle ∨ n'.status = .blocked)

namespace Fades

variable {n n' : Node σ}

theorem refl (n : Node σ) : n.Fades n := ⟨rfl, rfl, rfl, fun h => h, .inl rfl⟩

theorem trans {a b c : Node σ} (h : a.Fades b) (h' : b.Fades c) : a.Fades c where
  run := h'.run.trans h.run
  claimed := h'.claimed.trans h.claimed
  lastError := h'.lastError.trans h.lastError
  stale hs := h'.stale (h.stale hs)
  status := by
    rcases h'.status with heq | hback
    · rcases h.status with heq' | ⟨hstale, hback⟩
      · exact .inl (heq.trans heq')
      · exact .inr ⟨h'.stale hstale, heq ▸ hback⟩
    · exact .inr hback

/-- Among the statuses that mean something a node comes to none anew. -/
theorem status_eq (h : n.Fades n') {s : Status} (hidle : s ≠ .idle) (hblocked : s ≠ .blocked)
    (hs : n'.status = s) : n.status = s := by
  rcases h.status with heq | ⟨-, hi | hb⟩
  · exact heq.symm.trans hs
  · exact absurd (hs.symm.trans hi) hidle
  · exact absurd (hs.symm.trans hb) hblocked

theorem ne_status (h : n.Fades n') {s : Status} (hidle : s ≠ .idle) (hblocked : s ≠ .blocked)
    (hs : n.status ≠ s) : n'.status ≠ s :=
  fun heq => hs (h.status_eq hidle hblocked heq)

theorem status_of_fresh (h : n.Fades n') (hs : n'.stale = false) :
    n.stale = false ∧ n'.status = n.status := by
  refine ⟨Bool.eq_false_iff.2 fun hstale => ?_, h.status.resolve_right fun hback => ?_⟩
  · exact Bool.false_ne_true (hs.symm.trans (h.stale hstale))
  · exact Bool.false_ne_true (hs.symm.trans hback.1)

end Fades

theorem robust_fades : Robust (Fades (σ := σ)) where
  refl := .refl
  trans _ _ _ h h' := h.trans h'
  touched _ := ⟨rfl, rfl, rfl, fun h => h, .inl rfl⟩
  invalidated _ := ⟨rfl, rfl, rfl, fun _ => rfl, .inl rfl⟩
  stopped n := by
    refine ⟨rfl, rfl, rfl, fun _ => rfl, ?_⟩
    cases hclaimed : n.claimed with
    | true => exact .inl (by simp [stopped, hclaimed])
    | false => exact .inr ⟨rfl, .inr (by simp [stopped, hclaimed])⟩

theorem reactive_fades [NodeState σ] (r : Registry σ) : Reactive r (Fades (σ := σ)) where
  toRobust := robust_fades
  hook _ _ _ _ _ := ⟨rfl, rfl, rfl, fun h => h, .inl rfl⟩

theorem consistent_new (id : NodeId) (state : σ) : (Node.new id state).Consistent :=
  ⟨nofun, nofun, nofun, nofun, nofun⟩

namespace Consistent

variable {n n' : Node σ}

theorem fades (h : n.Consistent) (hf : n.Fades n') : n'.Consistent where
  generating hs := hf.claimed.trans (h.generating (hf.status_eq nofun nofun hs))
  fresh hs := by
    obtain ⟨hfresh, heq⟩ := hf.status_of_fresh hs
    rw [heq]
    exact h.fresh hfresh
  failed hs := by
    obtain ⟨hstale, herror⟩ := h.failed (hf.status_eq nofun nofun hs)
    exact ⟨hf.stale hstale, hf.lastError.symm ▸ herror⟩
  blocked hs := by
    rcases hf.status with heq | hback
    · exact hf.stale (h.blocked (heq.symm.trans hs))
    · exact hback.1
  succeeded hs := hf.lastError.trans (h.succeeded (hf.status_eq nofun nofun hs))

theorem taken (h : n.Consistent) (run : Nat) : (n.taken run).Consistent :=
  ⟨fun _ => rfl, h.fresh, h.failed, h.blocked, h.succeeded⟩

theorem started (hclaimed : n.claimed = true) : n.started.Consistent :=
  ⟨fun _ => hclaimed, fun _ => .inr rfl, nofun, nofun, nofun⟩

theorem completed (n : Node σ) (state : σ) (outputs : Outputs) (upToDate : Bool) :
    (n.completed state outputs upToDate).Consistent :=
  ⟨nofun, fun _ => .inl rfl, nofun, nofun, fun _ => rfl⟩

/-- A node is stale by the end of the step that blocks it, and only then consistent. -/
theorem of_blocked {ports : List Port} (hf : (n.blocked ports).Fades n') (hs : n'.stale = true) :
    n'.Consistent where
  generating hstatus := absurd hstatus (hf.ne_status nofun nofun nofun)
  fresh hfresh := absurd (hfresh.symm.trans hs) Bool.false_ne_true
  failed hstatus := absurd hstatus (hf.ne_status nofun nofun nofun)
  blocked _ := hs
  succeeded hstatus := absurd hstatus (hf.ne_status nofun nofun nofun)

theorem of_failed {message : String} (hf : (n.failed message).Fades n') (hs : n'.stale = true) :
    n'.Consistent where
  generating hstatus := absurd hstatus (hf.ne_status nofun nofun nofun)
  fresh hfresh := absurd (hfresh.symm.trans hs) Bool.false_ne_true
  failed _ := ⟨hs, by rw [hf.lastError]; rfl⟩
  blocked _ := hs
  succeeded hstatus := absurd hstatus (hf.ne_status nofun nofun nofun)

/-- No status is lost when a claim is given up whose computation is over. -/
theorem released (h : n.Consistent) {run : Nat}
    (hidle : n.run = run → n.status ≠ .generating) : (n.released run).Consistent := by
  unfold Node.released
  split
  · rename_i hhas
    rw [Bool.and_eq_true, beq_iff_eq] at hhas
    have hsettled : n.status.settled = n.status := by
      have hnot := hidle hhas.1
      unfold Status.settled
      split
      · contradiction
      · rfl
    rw [hsettled]
    exact ⟨fun hs => absurd hs (hidle hhas.1), h.fresh, h.failed, h.blocked, h.succeeded⟩
  · exact h

end Consistent

end Node

/-! ## What a step writes -/

namespace Graph

variable {g g' : Graph σ}

theorem exists_of_written {id : NodeId} {f : Node σ → Node σ} {n' : Node σ}
    (h : (g.modify id f).Each Node.Fades g') (hn' : g'.node? id = some n') :
    ∃ n, g.node? id = some n ∧ (f n).Fades n' := by
  obtain ⟨n₁, hn₁, hf⟩ := exists_of_rel' (h.nodes id) hn'
  rw [node?_modify_self] at hn₁
  obtain ⟨n, hn, rfl⟩ := Option.map_eq_some_iff.1 hn₁
  exact ⟨n, hn, hf⟩

theorem fades_block (g : Graph σ) (id : NodeId) (ports : List Port) :
    (g.modify id (·.blocked ports)).Each Node.Fades (g.block id ports).1 :=
  (each_invalidate Node.robust_fades _ id).trans Node.robust_fades
    (each_stopAll Node.robust_fades _ [] _)

theorem fades_complete (g : Graph σ) (p : Policy) (id : NodeId) (n : Node σ) (state : σ)
    (outputs : Outputs) (upToDate : Bool) :
    (g.modify id (·.completed state outputs upToDate)).Each Node.Fades
      (g.complete p id n state outputs upToDate).1 := by
  unfold complete
  split
  · exact each_invalidateAll Node.robust_fades _ _
  · exact .refl Node.robust_fades _

end Graph

variable [NodeState σ] {e e' : Engine σ}

/-- What a run finds at its node: before its computation the node has the number of the run only
if the run has claimed it, and neither then nor afterwards is the node generating. -/
def Frame.Poised (g : Graph σ) : Frame σ → Prop
  | .run id (.listing k) | .run id (.pulling k _) =>
    ∀ n, g.node? id = some n → n.run = k → n.claimed = true ∧ n.status ≠ .generating
  | .run id (.releasing k _) => ∀ n, g.node? id = some n → n.run = k → n.status ≠ .generating
  | _ => True

namespace Engine

variable {top : Frame σ} {rest new : List (Frame σ)} {m : NodeId}

theorem consistent_turn (hw : e.graph.wiring.Sound) (hturn : Turn e top rest e' new)
    (hpoised : top.Poised e.graph) (h : ∀ n, e.graph.node? m = some n → n.Consistent) (n' : Node σ)
    (hn' : e'.graph.node? m = some n') : n'.Consistent := by
  by_cases hown : ∃ phase, top = .run m phase
  · obtain ⟨phase, rfl⟩ := hown
    cases hturn with
    | enter id rest => exact h n' hn'
    | claim id run rest n hn hfree =>
      obtain ⟨n₁, hn₁, hf⟩ := exists_of_written (.refl Node.robust_fades _) hn'
      exact ((h n₁ hn₁).taken run).fades hf
    | list id run rest => exact h n' hn'
    | pull id run p todo rest => exact h n' hn'
    | block id run rest n d events hn hrun hd hinputs =>
      obtain ⟨n₁, -, hf⟩ := exists_of_written (fades_block e.graph m (d.ports n.state)) hn'
      -- The write alone leaves the flag as it was; the traversal after it makes the node stale.
      exact .of_blocked hf (stale_of_isFresh_eq_false (isFresh_block e.graph hw m _) hn')
    | begin id run rest n d inputs hn hrun hd hinputs =>
      obtain ⟨n₁, hn₁, hf⟩ := exists_of_written (.refl Node.robust_fades _) hn'
      rw [hn] at hn₁
      cases hn₁
      exact (Node.Consistent.started (hpoised n hn hrun).1).fades hf
    | finish id run epoch rest n d context outputs hn hrun hclaimed =>
      obtain ⟨-, -, hgraph, -⟩ := commitOutputs_spec e m n epoch d outputs
      rw [hgraph] at hn'
      obtain ⟨n₁, -, hf⟩ := exists_of_written (fades_complete ..) hn'
      exact (Node.Consistent.completed ..).fades hf
    | fail id run epoch rest d context cause n hn hrun hclaimed =>
      obtain ⟨n₁, -, hf⟩ := exists_of_written (each_invalidate Node.robust_fades _ m) hn'
      have hstale := isFresh_invalidate
        (e.graph.modify m (·.failed (Error.executionFailed m cause).message)) hw m
      exact .of_failed hf (stale_of_isFresh_eq_false hstale hn')
    | release id run ending rest =>
      obtain ⟨n₁, hn₁, hf⟩ := exists_of_written (.refl Node.robust_fades _) hn'
      exact ((h n₁ hn₁).released (hpoised n₁ hn₁)).fades hf
    | pass top rest e' new hpass =>
      rw [hpass.same.graph] at hn'
      exact h n' hn'
  · have hrel := rel_turn Node.robust_fades hturn (m := m) fun id phase htop heq =>
      hown ⟨phase, heq ▸ htop⟩
    obtain ⟨n, hn, hf⟩ := exists_of_rel' hrel hn'
    exact (h n hn).fades hf

end Engine

/-! ## What operations do -/

namespace Engine

variable {id : NodeId}

/-- An edit of a state takes the status back from a node that nobody has, and makes it stale. -/
theorem fades_update (hw : e.graph.wiring.Sound) {target : NodeId} {edit : σ → σ}
    {ids : List NodeId} (h : e.update target edit = .ok (e', ids)) (id : NodeId) :
    Option.Rel Node.Fades (e.graph.node? id) (e'.graph.node? id) := by
  obtain ⟨n, d, hn, -, ⟨-, rfl⟩ | ⟨-, hreplace⟩⟩ := update_eq_ok h
  · exact rel_modify .refl (fun _ _ => ⟨rfl, rfl, rfl, fun h => h, .inl rfl⟩) id
  · obtain ⟨g, changed, others, hdrop, -, rfl⟩ := replaceState_accounts hreplace
    refine rel_trans (fun _ _ _ h h' => h.trans h') ?_
      (rel_dropEdges (Node.reactive_fades e.registry) hdrop id)
    obtain ⟨visits, hv⟩ := visited_invalidate (e.graph.setState target (edit n.state)) hw target
    rw [hv.node?, setState, node?_modify]
    by_cases htarget : target = id
    · subst htarget
      have hstale := hv.starts target List.mem_cons_self
      rw [if_pos rfl, hn]
      refine .some ⟨rfl, rfl, rfl, fun _ => Node.stale_aged hstale, ?_⟩
      cases hclaimed : n.claimed with
      | true => exact .inl (by simp [hclaimed])
      | false => exact .inr ⟨Node.stale_aged hstale, .inl (by simp [hclaimed])⟩
    · rw [if_neg htarget]
      cases e.graph.node? id with
      | none => exact .none
      | some n => exact .some ⟨rfl, rfl, rfl, fun hs => by simp [Node.aged, hs], .inl rfl⟩

/-- What an operation makes of a node, unless it restores a graph. -/
theorem Performed.fades (hw : e.graph.wiring.Sound) {m : Move σ} (hm : m.isRestore = false)
    (h : e.Performed m e') (id : NodeId) :
    Option.Rel Node.Fades (e.graph.node? id) (e'.graph.node? id) ∨
      e'.graph.node? id = none ∨ ∃ state, e'.graph.node? id = some (.new id state) := by
  rcases h.rel_of_update (Node.reactive_fades e.registry)
    (fun _ _ _ hupdate => fades_update hw hupdate id) with hrel | ⟨-, hnone⟩ | ⟨state, hcreate⟩ |
    ⟨s, rfl, -⟩
  · exact .inl hrel
  · exact .inr (.inl hnone)
  · obtain ⟨-, -, rfl⟩ := createWith_eq_ok hcreate
    refine .inr (.inr ⟨state, ?_⟩)
    show (e.graph.inserted id state).node? id = _
    rw [Graph.inserted, node?_insert, if_pos rfl]
  · cases hm

end Engine

/-! ## What runs find -/

namespace Node

/-- What is said of a node only if the run with this number made the last claim. -/
structure Bound (run : Nat) (Q : Node σ → Prop) : Prop where
  fades : ∀ n n', Fades n n' → Q n → Q n'
  other : ∀ n, n.run ≠ run → Q n

omit [NodeState σ] in
theorem Bound.robust {run : Nat} {Q : Node σ → Prop} (h : Bound run Q) :
    Robust fun n n' => Q n → Q n' where
  refl _ hn := hn
  trans _ _ _ h₁ h₂ hn := h₂ (h₁ hn)
  touched n := h.fades n _ (robust_fades.touched n)
  invalidated n := h.fades n _ (robust_fades.invalidated n)
  stopped n := h.fades n _ (robust_fades.stopped n)

omit [NodeState σ] in
theorem bound_waiting (run : Nat) : Bound run fun n : Node σ =>
    n.run = run → n.claimed = true ∧ n.status ≠ .generating where
  fades n n' hf h hrun := by
    obtain ⟨hclaimed, hidle⟩ := h (hf.run.symm.trans hrun)
    exact ⟨hf.claimed.trans hclaimed, hf.ne_status nofun nofun hidle⟩
  other _ hne hrun := absurd hrun hne

omit [NodeState σ] in
theorem bound_over (run : Nat) : Bound run fun n : Node σ =>
    n.run = run → n.status ≠ .generating where
  fades _ _ hf h hrun := hf.ne_status nofun nofun (h (hf.run.symm.trans hrun))
  other _ hne hrun := absurd hrun hne

end Node

namespace Engine

variable {top : Frame σ} {rest new : List (Frame σ)} {run : Nat} {Q : Node σ → Prop} {id : NodeId}

theorem bound_turn (hQ : Node.Bound run Q) (hturn : Turn e top rest e' new)
    (htop : top.run? ≠ some run) (h : ∀ n, e.graph.node? id = some n → Q n) (n' : Node σ)
    (hn' : e'.graph.node? id = some n') : Q n' := by
  have hrel := rel_turn_of_writes (m := id) hQ.robust hturn fun n n' hn hwrites => by
    have hother : ∀ k, top.run? = some k → k ≠ run := fun k hk heq => htop (heq ▸ hk)
    cases hwrites with
    | taken _ k _ hfree => exact fun _ => hQ.other _ (hother k rfl)
    | started _ k _ hrun | blocked _ k _ _ hrun | completed _ k _ _ _ _ _ hrun
    | failed _ k _ _ _ _ _ _ hrun =>
      exact fun _ => hQ.other _ fun heq => hother k rfl (hrun.symm.trans heq)
    | released _ k ending _ =>
      intro hn
      unfold Node.released
      split
      · rename_i hhas
        rw [Bool.and_eq_true, beq_iff_eq] at hhas
        exact hQ.other _ fun heq => hother k rfl (hhas.1.symm.trans heq)
      · exact hn
  obtain ⟨n, hn, himp⟩ := exists_of_rel' hrel hn'
  exact himp (h n hn)

theorem Performed.bound (hQ : Node.Bound run Q) (hpos : 0 < run) (hw : e.graph.wiring.Sound)
    {m : Move σ} (hm : m.isRestore = false) (hperformed : e.Performed m e')
    (h : ∀ n, e.graph.node? id = some n → Q n) (n' : Node σ)
    (hn' : e'.graph.node? id = some n') : Q n' := by
  rcases hperformed.fades hw hm id with hrel | hnone | ⟨state, hnew⟩
  · obtain ⟨n, hn, hf⟩ := exists_of_rel' hrel hn'
    exact hQ.fades n n' hf (h n hn)
  · rw [hnone] at hn'
    cases hn'
  · rw [hnew] at hn'
    cases hn'
    exact hQ.other _ (Nat.ne_of_lt hpos)

end Engine

namespace Frame

variable {f : Frame σ} {g g' : Graph σ}

omit [NodeState σ] in
theorem poised_of_idle (h : f.run? = none) (g : Graph σ) : f.Poised g := by
  cases f with
  | run id phase =>
    cases phase with
    | listing k | pulling k todo | releasing k ending => cases h
    | _ => trivial
  | _ => trivial

omit [NodeState σ] in
theorem Poised.kept (h : f.Poised g)
    (hkept : ∀ k Q id, f.run? = some k → Node.Bound k Q →
      (∀ n, g.node? id = some n → Q n) → ∀ n, g'.node? id = some n → Q n) : f.Poised g' := by
  cases f with
  | run id phase =>
    cases phase with
    | listing k | pulling k todo => exact hkept k _ id rfl (Node.bound_waiting k) h
    | releasing k ending => exact hkept k _ id rfl (Node.bound_over k) h
    | _ => trivial
  | _ => trivial

end Frame

namespace Engine

variable {top : Frame σ} {rest new : List (Frame σ)}

/-- By the end of a computation the run does not have its node any more. -/
theorem unclaimed_commit {id : NodeId} {run epoch : Nat} {d : Definition σ} {context : Context σ}
    {result : Except Failure Outputs} {s : Stack σ}
    (h : e.step (.run id (.computing run epoch d context (.done result)) :: rest) = some (e', s))
    (n' : Node σ) (hn' : e'.graph.node? id = some n') (hrun : n'.run = run) :
    n'.claimed = false := by
  simp only [step, stepRun, Option.map_some, Option.some.injEq, Prod.mk.injEq] at h
  obtain ⟨rfl, -⟩ := h
  unfold commit at hn'
  split at hn'
  · rename_i hlost
    have hn' : e.graph.node? id = some n' := hn'
    refine Bool.eq_false_iff.2 fun hclaimed => ?_
    rw [Option.filter_eq_some_iff.2 ⟨ownedNode?_eq_some.2 ⟨hn', hrun⟩, hclaimed⟩] at hlost
    cases hlost
  · rename_i n hn
    cases result with
    | ok outputs =>
      obtain ⟨-, -, hgraph, -⟩ := commitOutputs_spec e id n epoch d outputs
      simp only [hgraph] at hn'
      obtain ⟨n₁, -, hf⟩ := exists_of_written (fades_complete ..) hn'
      exact hf.claimed
    | error cause =>
      obtain ⟨n₁, -, hf⟩ := exists_of_written (each_invalidate Node.robust_fades _ id) hn'
      exact hf.claimed

/-- The levels that a step leaves in place of one find what they rely on. -/
theorem poised_turn (hturn : Turn e top rest e' new)
    (hstep : e.step (top :: rest) = some (e', new ++ rest)) (hpoised : top.Poised e.graph)
    (h : ∀ id n, e.graph.node? id = some n → n.Consistent) (f : Frame σ) (hf : f ∈ new) :
    f.Poised e'.graph := by
  cases hturn with
  | enter id rest =>
    obtain rfl := List.mem_singleton.1 hf
    trivial
  | claim id run rest n hn hfree =>
    obtain rfl := List.mem_singleton.1 hf
    intro n' hn' _
    obtain ⟨n₁, hn₁, hfades⟩ := exists_of_written (.refl Node.robust_fades _) hn'
    rw [hn] at hn₁
    cases hn₁
    -- Nobody had the node, and so it was not generating.
    refine ⟨hfades.claimed, hfades.ne_status nofun nofun fun hs => ?_⟩
    exact Bool.false_ne_true (hfree.symm.trans ((h id n hn).generating hs))
  | list id run rest =>
    obtain rfl := List.mem_singleton.1 hf
    exact hpoised
  | pull id run p todo rest =>
    rcases List.mem_cons.1 hf with rfl | hf
    · trivial
    · obtain rfl := List.mem_singleton.1 hf
      exact hpoised
  | block id run rest n d events hn hrun hd hinputs =>
    obtain rfl := List.mem_singleton.1 hf
    intro n' hn' _
    obtain ⟨n₁, -, hfades⟩ := exists_of_written (fades_block e.graph id (d.ports n.state)) hn'
    exact hfades.ne_status nofun nofun nofun
  | begin id run rest n d inputs hn hrun hd hinputs =>
    obtain rfl := List.mem_singleton.1 hf
    trivial
  | finish id run epoch rest n d context outputs hn hrun hclaimed =>
    obtain rfl := List.mem_singleton.1 hf
    intro n' hn' _
    obtain ⟨-, -, hgraph, -⟩ := commitOutputs_spec e id n epoch d outputs
    rw [hgraph] at hn'
    obtain ⟨n₁, -, hfades⟩ := exists_of_written (fades_complete ..) hn'
    exact hfades.ne_status nofun nofun nofun
  | fail id run epoch rest d context cause n hn hrun hclaimed =>
    obtain rfl := List.mem_singleton.1 hf
    intro n' hn' _
    obtain ⟨n₁, -, hfades⟩ := exists_of_written (each_invalidate Node.robust_fades _ id) hn'
    exact hfades.ne_status nofun nofun nofun
  | release id run ending rest =>
    obtain rfl := List.mem_singleton.1 hf
    trivial
  | pass top rest e' new hpass =>
    rcases hpass.new_cases with rfl | ⟨f', rfl, hidle | ⟨id, run, ending, rfl, -⟩⟩
    · exact absurd hf List.not_mem_nil
    · obtain rfl := List.mem_singleton.1 hf
      exact Frame.poised_of_idle hidle _
    · obtain rfl := List.mem_singleton.1 hf
      have hgraph := hpass.same.graph
      cases hpass with
      | quit id run phase rest e' ending hsame hbeat hphase hend hlost =>
        rw [hgraph]
        rcases hphase with rfl | ⟨epoch, d, context, result, rfl⟩
        · exact fun n hn hrun => (hpoised n hn hrun).2
        -- A computation ends without a write only if the run has lost its node.
        · intro n hn hrun hs
          have hfree := unclaimed_commit hstep n (hgraph.symm ▸ hn) hrun
          exact Bool.false_ne_true (hfree.symm.trans ((h id n hn).generating hs))

end Engine

/-! ## All worlds -/

namespace World

variable {w : World σ} {id : NodeId}

/-- What every node says of itself agrees, and every run finds at its node what it relies on. -/
structure Coherent (w : World σ) : Prop where
  nodes : ∀ id n, w.engine.graph.node? id = some n → n.Consistent
  levels : ∀ f ∈ w.frames, f.Poised w.engine.graph

namespace Coherent

theorem performed (h : w.Coherent) (hw : w.engine.graph.wiring.Sound)
    (hnumbered : Numbered w.engine w.frames) {m : Move σ} (hm : m.isRestore = false) {w' : World σ}
    (hperforms : w.Performs m w') : w'.Coherent := by
  obtain ⟨e, hperformed, hsame⟩ := hperforms.engine
  obtain ⟨idle, hidle, hframes⟩ := hperforms.frames
  refine ⟨fun id n' hn' => ?_, fun f hf => ?_⟩
  · rw [hsame.graph] at hn'
    rcases hperformed.fades hw hm id with hrel | hnone | ⟨state, hnew⟩
    · obtain ⟨n, hn, hfades⟩ := exists_of_rel' hrel hn'
      exact (h.nodes id n hn).fades hfades
    · rw [hnone] at hn'
      cases hn'
    · rw [hnew] at hn'
      cases hn'
      exact Node.consistent_new id state
  · rw [hframes] at hf
    rw [hsame.graph]
    rcases List.mem_append.1 hf with hf | hf
    · refine (h.levels f hf).kept fun run Q id hrun hQ hold => ?_
      have hpos := hnumbered.positive run (List.mem_filterMap.2 ⟨f, hf, hrun⟩)
      exact hperformed.bound hQ hpos hw hm hold
    · exact Frame.poised_of_idle (hidle f hf) _

theorem takes (h : w.Coherent) (hw : w.engine.graph.wiring.Sound)
    (hnumbered : Numbered w.engine w.frames) {task : Nat} {top : Frame σ}
    {rest new : List (Frame σ)} {e : Engine σ} {w' : World σ}
    (htakes : w.Takes task top rest e new w') : w'.Coherent := by
  obtain ⟨pre, post, hsteps⟩ := htakes.steps
  obtain ⟨idle, hidle, hframes⟩ := hsteps.after
  have hdistinct := hnumbered.distinct
  have hlevels := h.levels
  rw [hsteps.before] at hdistinct hlevels
  have hpoised := hlevels top (List.mem_append_right _ List.mem_cons_self)
  refine ⟨fun id n' hn' => ?_, fun f hf => ?_⟩
  · rw [htakes.engine.graph] at hn'
    exact Engine.consistent_turn hw htakes.turn hpoised (h.nodes id) n' hn'
  · rw [htakes.engine.graph]
    have hcases : f ∈ new ∨ f ∈ pre ++ post ∨ f ∈ idle := by
      simp only [hframes, List.mem_append] at hf ⊢
      tauto
    rcases hcases with hf | hf | hf
    · exact Engine.poised_turn htakes.turn htakes.step hpoised h.nodes f hf
    · -- A level of another task, or further down, has another number, so the step is none of its.
      have hold : f ∈ pre ++ top :: post := by
        simp only [List.mem_append, List.mem_cons] at hf ⊢
        tauto
      exact (hlevels f hold).kept fun run Q id hrun hQ hnode =>
        Engine.bound_turn hQ htakes.turn (Tenured.run?_ne hdistinct hf hrun) hnode
    · exact Frame.poised_of_idle (hidle f hf) _

theorem deliver (h : w.Coherent) (task : Nat) (c : Computation) :
    (w.next (.deliver task c)).Coherent := by
  refine ⟨h.nodes, fun f hf => ?_⟩
  rcases mem_frames_deliver hf with hf | ⟨id, run, epoch, d, context, c₀, -, rfl⟩
  · exact h.levels f hf
  · trivial

/-- Every move but a restoration keeps a world coherent. -/
theorem next (h : w.Coherent) (hw : w.engine.graph.wiring.Sound)
    (hnumbered : Numbered w.engine w.frames) {m : Move σ} (hm : m.isRestore = false) :
    (w.next m).Coherent := by
  rcases w.move_cases m with hperforms | ⟨task, top, rest, e, new, rfl, htakes⟩ | ⟨task, c, rfl⟩
  · exact h.performed hw hnumbered hm hperforms
  · exact h.takes hw hnumbered htakes
  · exact h.deliver task c

end Coherent

theorem coherent_after (r : Registry σ) (p : Policy) {moves : List (Move σ)}
    (hmoves : ∀ m ∈ moves, m.isRestore = false) : (after r p moves).Coherent := by
  induction moves using List.reverseRecOn with
  | nil => exact ⟨fun _ _ hn => (nomatch hn), nofun⟩
  | append_singleton moves m ih =>
    rw [List.forall_mem_append, List.forall_mem_singleton] at hmoves
    rw [after_concat]
    exact (ih hmoves.1).next (sound_wiring_after r p moves) (numbered_after r p moves) hmoves.2

/-! ## Results -/

def Commits (w : World σ) (task : Nat) (id : NodeId) : Prop :=
  ∃ top rest, w.tasks[task]? = some (top :: rest) ∧ top.Completes w.engine.graph id

/-- Among these moves is a step that wrote a result to the node, which has been there ever since. -/
def HasResult (r : Registry σ) (p : Policy) (moves : List (Move σ)) (id : NodeId) : Prop :=
  ∃ earlier task later, moves = earlier ++ .step task :: later ∧
    (after r p earlier).Commits task id ∧
    ∀ more, more <+: later →
      ((after r p (earlier ++ .step task :: more)).engine.graph.node? id).isSome = true

/-- A node becomes fresh only as a result is written to it, unless a graph is restored. -/
theorem fresh_next (hw : w.engine.graph.wiring.Sound) {m : Move σ} (hm : m.isRestore = false)
    (hfresh : (w.next m).engine.graph.isFresh id = true) :
    w.engine.graph.isFresh id = true ∨ ∃ task, m = .step task ∧ w.Commits task id := by
  obtain ⟨n', hn', hs'⟩ := isFresh_iff.1 hfresh
  rcases w.move_cases m with hperforms | ⟨task, top, rest, e, new, rfl, htakes⟩ | ⟨task, c, rfl⟩
  · obtain ⟨e, hperformed, hsame⟩ := hperforms.engine
    rw [hsame.graph] at hn'
    rcases hperformed.fades hw hm id with hrel | hnone | ⟨state, hnew⟩
    · obtain ⟨n, hn, hfades⟩ := exists_of_rel' hrel hn'
      exact .inl (isFresh_iff.2 ⟨n, hn, (hfades.status_of_fresh hs').1⟩)
    · rw [hnone] at hn'
      cases hn'
    · rw [hnew] at hn'
      cases hn'
      cases hs'
  · by_cases hcompletes : top.Completes w.engine.graph id
    · exact .inr ⟨task, rfl, top, rest, htakes.before, hcompletes⟩
    · rw [htakes.engine.graph] at hn'
      have hrel := Engine.rel_turn_of_not_completes (m := id) Node.robust_stale htakes.turn
        hcompletes fun a b _ hwrites hnot hs => by
          cases hwrites with
          | completed => exact absurd rfl (hnot _ _ _ _ _)
          | released _ run _ _ =>
            unfold Node.released
            split <;> exact hs
          | _ => exact hs
      obtain ⟨n, hn, hkeeps⟩ := exists_of_rel' hrel hn'
      refine .inl (isFresh_iff.2 ⟨n, hn, Bool.eq_false_iff.2 fun hs => ?_⟩)
      exact Bool.false_ne_true (hs'.symm.trans (hkeeps hs))
  · exact .inl hfresh

/-- A fresh node has had a result ever since it was made. -/
theorem hasResult_of_fresh (r : Registry σ) (p : Policy) {moves : List (Move σ)}
    (hmoves : ∀ m ∈ moves, m.isRestore = false)
    (hfresh : (after r p moves).engine.graph.isFresh id = true) : HasResult r p moves id := by
  induction moves using List.reverseRecOn with
  | nil => cases hfresh
  | append_singleton moves m ih =>
    rw [List.forall_mem_append, List.forall_mem_singleton] at hmoves
    have hnow : ((after r p (moves ++ [m])).engine.graph.node? id).isSome = true := by
      obtain ⟨n, hn, -⟩ := isFresh_iff.1 hfresh
      rw [hn]
      rfl
    rw [after_concat] at hfresh
    rcases fresh_next (sound_wiring_after r p moves) hmoves.2 hfresh with
      hbefore | ⟨task, rfl, hcommits⟩
    · obtain ⟨earlier, task, later, rfl, hcommits, hsince⟩ := ih hmoves.1 hbefore
      refine ⟨earlier, task, later ++ [m], by simp, hcommits, fun more hmore => ?_⟩
      rcases List.prefix_concat_iff.1 hmore with rfl | hmore
      · simpa using hnow
      · exact hsince more hmore
    · refine ⟨moves, task, [], rfl, hcommits, fun more hmore => ?_⟩
      obtain rfl := List.prefix_nil.1 hmore
      exact hnow

/-- In every world that can be reached without restorations what a node says of itself agrees, and
a node is stale unless a result was written to it. -/
theorem consistent_after (r : Registry σ) (p : Policy) {moves : List (Move σ)}
    (hmoves : ∀ m ∈ moves, m.isRestore = false) (id : NodeId) (n : Node σ)
    (hn : (after r p moves).engine.graph.node? id = some n) :
    n.Consistent ∧ (¬ HasResult r p moves id → n.stale = true) := by
  refine ⟨(coherent_after r p hmoves).nodes id n hn, fun hnever => ?_⟩
  by_contra hstale
  have hfresh : n.stale = false := Bool.eq_false_iff.2 hstale
  exact hnever (hasResult_of_fresh r p hmoves (isFresh_iff.2 ⟨n, hn, hfresh⟩))

end World

namespace Bench

def refusing : List (Move BenchNode) :=
  [.createWith "c" (.constant 3), .createWith "d" (.double true),
    .connect ⟨"c", "output"⟩ ⟨"d", "input"⟩, .start "d"] ++ List.replicate 19 (.step 0)

/-- The number is fresh, and the doubler has failed. -/
theorem consistent_refusing :
    let w := World.after (registry {}) {} refusing
    (∃ n, w.engine.graph.node? "c" = some n ∧ (n.stale, n.status) = (false, .succeeded) ∧
      n.Consistent) ∧
    ∃ n, w.engine.graph.node? "d" = some n ∧
      (n.stale, n.status, n.lastError.isSome) = (true, .failed, true) ∧ n.Consistent := by
  intro w
  have hmoves : ∀ m ∈ refusing, m.isRestore = false := by decide
  obtain ⟨c, hc, hcnode⟩ : ∃ n, w.engine.graph.node? "c" = some n ∧
      (n.stale, n.status) = (false, .succeeded) := Option.map_eq_some_iff.1 (by decide +kernel)
  obtain ⟨d, hd, hdnode⟩ : ∃ n, w.engine.graph.node? "d" = some n ∧
      (n.stale, n.status, n.lastError.isSome) = (true, .failed, true) :=
    Option.map_eq_some_iff.1 (by decide +kernel)
  exact ⟨⟨c, hc, hcnode, (World.consistent_after (registry {}) {} hmoves "c" c hc).1⟩,
    d, hd, hdnode, (World.consistent_after (registry {}) {} hmoves "d" d hd).1⟩

end Bench

end Patchbay
