import Mathlib.Data.List.Induction
import Patchbay.Proofs.Numbering

/-!
# Who has a node

A claimed node belongs to the run that claimed it last. That run is going on, and there is no
other one that could write to the node. Nothing is assumed of the node types, computations go on
as anything at all, and nodes are removed, made anew and restored while runs are going on.

What is proved here:
  1. `Held.turn`, `World.held_after`: whoever has claimed a node is still going on.
  2. `World.claimed_next`: a claim comes from the step that made it.
  3. `World.exclusive_claims`: each claimed node has exactly one owner, which has had it ever
     since it claimed it; and what follows for those who come to a claimed node, for results that
     come in, and for the end of a run.
-/

namespace Patchbay

variable {σ : Type}

/-! ## Claims and levels -/

/-- The node that is claimed on this level, with the number of the run. -/
def Frame.claim? : Frame σ → Option (NodeId × Nat)
  | .run id (.listing k) | .run id (.pulling k _) | .run id (.computing k _ _ _ _)
  | .run id (.releasing k _) => some (id, k)
  | _ => none

def Held (g : Graph σ) (frames : List (Frame σ)) : Prop :=
  ∀ id n, g.node? id = some n → n.claimed = true → ∃ f ∈ frames, f.claim? = some (id, n.run)

theorem Frame.run?_of_claim? {f : Frame σ} {id : NodeId} {k : Nat}
    (h : f.claim? = some (id, k)) : f.run? = some k := by
  unfold Frame.claim? at h
  split at h
  · cases h
    rfl
  · cases h
    rfl
  · cases h
    rfl
  · cases h
    rfl
  · cases h

namespace Held

variable {g g' : Graph σ} {frames : List (Frame σ)}

theorem mono (h : Held g frames) {frames' : List (Frame σ)} (hsub : ∀ f ∈ frames, f ∈ frames') :
    Held g frames' := by
  intro id n hn hclaimed
  obtain ⟨f, hf, hclaim⟩ := h id n hn hclaimed
  exact ⟨f, hsub f hf, hclaim⟩

theorem inherits (h : Held g frames) (hg : g.Inherits g') : Held g' frames := by
  intro id n' hn' hclaimed
  obtain ⟨n, hn, hlast⟩ := hg id n' hn'
  rw [hlast.run]
  exact h id n hn (hlast.claimed hclaimed)

/-- Where nobody has a node, there is nobody to be held to account. -/
theorem of_unclaimed (h : ∀ id n, g.node? id = some n → n.claimed = false) : Held g frames :=
  fun id n hn hclaimed => absurd ((h id n hn).symm.trans hclaimed) Bool.false_ne_true

theorem keep {top : Frame σ} {new pre post : List (Frame σ)} (h : Held g (pre ++ top :: post))
    (htop : ∀ c, top.claim? = some c → ∃ f ∈ new, f.claim? = some c) :
    Held g (pre ++ new ++ post) := by
  intro id n hn hclaimed
  obtain ⟨f, hf, hclaim⟩ := h id n hn hclaimed
  simp only [List.mem_append, List.mem_cons] at hf ⊢
  rcases hf with hf | rfl | hf
  · exact ⟨f, .inl (.inl hf), hclaim⟩
  · obtain ⟨f', hf', hclaim'⟩ := htop _ hclaim
    exact ⟨f', .inl (.inr hf'), hclaim'⟩
  · exact ⟨f, .inr hf, hclaim⟩

theorem claim {id : NodeId} {run : Nat} {pre post : List (Frame σ)}
    (h : Held g (pre ++ .run id (.claiming run) :: post)) :
    Held (g.modify id (·.taken run)) (pre ++ [.run id (.listing run)] ++ post) := by
  intro m n' hn' hclaimed
  rw [Graph.node?_modify] at hn'
  split at hn'
  · rename_i hm
    subst hm
    obtain ⟨n, -, rfl⟩ := Option.map_eq_some_iff.1 hn'
    exact ⟨_, List.mem_append_left _ (List.mem_append_right _ List.mem_cons_self), rfl⟩
  · obtain ⟨f, hf, hclaim⟩ := h m n' hn' hclaimed
    simp only [List.mem_append, List.mem_cons] at hf ⊢
    rcases hf with hf | rfl | hf
    · exact ⟨f, .inl (.inl hf), hclaim⟩
    · cases hclaim
    · exact ⟨f, .inr hf, hclaim⟩

theorem release {id : NodeId} {run : Nat} {ending : Ending} {pre post : List (Frame σ)}
    (h : Held g (pre ++ .run id (.releasing run ending) :: post)) :
    Held (g.modify id (·.released run)) (pre ++ [.run id (.announcing ending)] ++ post) := by
  -- If the node is claimed afterwards, it is not by this run.
  have hother : ∀ m n', (g.modify id (·.released run)).node? m = some n' → n'.claimed = true →
      g.node? m = some n' ∧ (m = id → n'.run ≠ run) := by
    intro m n' hn' hclaimed
    rw [Graph.node?_modify] at hn'
    split at hn'
    · rename_i hm
      subst hm
      obtain ⟨n, hn, rfl⟩ := Option.map_eq_some_iff.1 hn'
      unfold Node.released at hclaimed ⊢
      split at hclaimed
      · cases hclaimed
      · rename_i hnot
        rw [if_neg hnot]
        refine ⟨hn, fun _ hrun => hnot ?_⟩
        simp [hrun, hclaimed]
    · rename_i hm
      exact ⟨hn', fun he => absurd he.symm hm⟩
  intro m n' hn' hclaimed
  obtain ⟨hn, hrun⟩ := hother m n' hn' hclaimed
  obtain ⟨f, hf, hclaim⟩ := h m n' hn hclaimed
  simp only [List.mem_append, List.mem_cons] at hf ⊢
  rcases hf with hf | rfl | hf
  · exact ⟨f, .inl (.inl hf), hclaim⟩
  · cases hclaim
    exact absurd rfl (hrun rfl)
  · exact ⟨f, .inr hf, hclaim⟩

variable [NodeState σ] {e e' : Engine σ}

theorem turn {top : Frame σ} {rest new pre post : List (Frame σ)}
    (h : Held e.graph (pre ++ top :: post)) (hturn : Turn e top rest e' new) :
    Held e'.graph (pre ++ new ++ post) := by
  have hkept : ∀ {f : Frame σ} {fs : List (Frame σ)}, f ∈ fs → top.claim? = f.claim? →
      ∀ c, top.claim? = some c → ∃ f ∈ fs, f.claim? = some c :=
    fun hf heq c hc => ⟨_, hf, by rw [← heq, hc]⟩
  cases hturn with
  | enter id rest => exact h.keep fun c hc => nomatch hc
  | claim id run rest n hn hfree => exact h.claim
  | list id run rest => exact h.keep (hkept List.mem_cons_self rfl)
  | pull id run p todo rest =>
    exact h.keep (hkept (List.mem_cons_of_mem _ List.mem_cons_self) rfl)
  | block id run rest n d events hn hrun hd hinputs =>
    exact (h.inherits (Graph.keeps_block e.graph id _).nodes).keep (hkept List.mem_cons_self rfl)
  | begin id run rest n d inputs hn hrun hd hinputs =>
    exact (h.inherits (e.inherits_begin id [.nodeStarted id]).nodes).keep
      (hkept List.mem_cons_self rfl)
  | finish id run epoch rest n d context outputs hn hrun hclaimed =>
    exact (h.inherits (e.inherits_commitOutputs id n epoch d outputs).nodes).keep
      (hkept List.mem_cons_self rfl)
  | fail id run epoch rest d context cause n hn hrun hclaimed =>
    exact (h.inherits (e.inherits_commitFailure id _).nodes).keep (hkept List.mem_cons_self rfl)
  | release id run ending rest => exact h.release
  | pass top rest e' new hpass =>
    rw [hpass.same.graph]
    apply h.keep
    cases hpass with
    | quit id run phase rest e' ending hsame hbeat hphase hend hlost =>
      apply hkept List.mem_cons_self
      rcases hphase with rfl | ⟨epoch, d, context, result, rfl⟩ <;> rfl
    | _ => exact fun c hc => nomatch hc

theorem performed {m : Move σ} (h : Held e.graph frames) (hperformed : e.Performed m e') :
    Held e'.graph frames := by
  rcases hperformed.inherits with hinherits | ⟨id, state, hcreate⟩ | ⟨s, -, hrestore⟩
  · exact h.inherits hinherits.nodes
  · obtain ⟨-, -, rfl⟩ := Engine.createWith_eq_ok hcreate
    intro m n hn hclaimed
    rcases Graph.node?_of_inserted hn with ⟨-, rfl⟩ | hn
    · cases hclaimed
    · exact h m n hn hclaimed
  · exact of_unclaimed fun id n hn => ((Engine.restore_spec hrestore).2 id n hn).1

theorem invariant (r : Registry σ) (p : Policy) :
    Invariant r p fun e frames => Held e.graph frames where
  start := of_unclaimed fun id n hn => nomatch hn
  same h hsame := hsame.graph.symm ▸ h
  idle h _ := h.mono fun _ hf => List.mem_append_left _ hf
  performed h hperformed := h.performed hperformed
  turn h hturn := h.turn hturn
  progress {e pre post id run epoch d context c₀} c h := by
    have hkeep : Held e.graph (pre ++ [.run id (.computing run epoch d context c)] ++ post) :=
      h.keep fun k hk => ⟨_, List.mem_cons_self, hk⟩
    simpa using hkeep

end Held

/-! ## The beginning of a claim -/

namespace World

variable [NodeState σ] {w : World σ} {id : NodeId} {n' : Node σ}

/-- In every world that can be reached, whoever has claimed a node is still going on. -/
theorem held_after (r : Registry σ) (p : Policy) (moves : List (Move σ)) :
    Held (after r p moves).engine.graph (after r p moves).frames :=
  (Held.invariant r p).after moves

/-- The node is there, and the run with this number has it. -/
def Has (w : World σ) (id : NodeId) (run : Nat) : Prop :=
  ∃ n, w.engine.graph.node? id = some n ∧ n.claimed = true ∧ n.run = run

/-- The step of this task is the one with which the run with this number claims the node. -/
def Claims (w : World σ) (task : Nat) (id : NodeId) (run : Nat) : Prop :=
  ∃ rest n, w.tasks[task]? = some (.run id (.claiming run) :: rest) ∧
    w.engine.graph.node? id = some n ∧ n.claimed = false

omit [NodeState σ] in
theorem Has.of_inherits {g : Graph σ} (hg : w.engine.graph.Inherits g)
    (hn' : g.node? id = some n') (hclaimed : n'.claimed = true) : w.Has id n'.run := by
  obtain ⟨n, hn, hlast⟩ := hg id n' hn'
  exact ⟨n, hn, hlast.claimed hclaimed, hlast.run.symm⟩

/-- A run that has a node had it before, or has just claimed it. -/
theorem claimed_next {m : Move σ} {run : Nat} (h : (w.next m).Has id run) :
    w.Has id run ∨ ∃ task, m = .step task ∧ w.Claims task id run := by
  obtain ⟨n', hn', hclaimed, rfl⟩ := h
  rcases w.move_cases m with hperforms | ⟨task, top, rest, e, new, rfl, htakes⟩ | ⟨task, c, rfl⟩
  · obtain ⟨e, hperformed, hsame⟩ := hperforms.engine
    rw [hsame.graph] at hn'
    rcases hperformed.inherits with hinherits | ⟨id', state, hcreate⟩ | ⟨s, -, hrestore⟩
    · exact .inl (.of_inherits hinherits.nodes hn' hclaimed)
    · obtain ⟨-, -, rfl⟩ := Engine.createWith_eq_ok hcreate
      rcases Graph.node?_of_inserted hn' with ⟨-, rfl⟩ | hn
      · cases hclaimed
      · exact .inl ⟨n', hn, hclaimed, rfl⟩
    · rw [((Engine.restore_spec hrestore).2 id n' hn').1] at hclaimed
      cases hclaimed
  · rw [htakes.engine.graph] at hn'
    rcases Engine.inherits_turn htakes.turn with hinherits | ⟨id', -, rfl⟩ |
      ⟨id', run, n, rfl, hn, hfree, rfl⟩
    · exact .inl (.of_inherits hinherits.nodes hn' hclaimed)
    · exact .inl ⟨n', hn', hclaimed, rfl⟩
    · rw [Engine.withGraph, Graph.node?_modify] at hn'
      split at hn'
      · rename_i heq
        subst heq
        rw [hn] at hn'
        cases hn'
        exact .inr ⟨task, rfl, rest, n, htakes.before, hn, hfree⟩
      · exact .inl ⟨n', hn', hclaimed, rfl⟩
  · exact .inl ⟨n', hn', hclaimed, rfl⟩

theorem after_concat (r : Registry σ) (p : Policy) (moves : List (Move σ)) (m : Move σ) :
    after r p (moves ++ [m]) = (after r p moves).next m := by
  rw [after, List.foldl_append]
  rfl

/-- Among these moves is the step with which the run with this number claimed the node, and the
run has had it ever since. -/
def HasSince (r : Registry σ) (p : Policy) (moves : List (Move σ)) (id : NodeId) (run : Nat) :
    Prop :=
  ∃ earlier task later, moves = earlier ++ .step task :: later ∧
    (after r p earlier).Claims task id run ∧
    ∀ more, more <+: later → (after r p (earlier ++ .step task :: more)).Has id run

/-- Whoever has a node has had it ever since claiming it. -/
theorem Has.since {r : Registry σ} {p : Policy} {moves : List (Move σ)} {run : Nat}
    (h : (after r p moves).Has id run) : HasSince r p moves id run := by
  induction moves using List.reverseRecOn with
  | nil =>
    obtain ⟨n, hn, -⟩ := h
    cases hn
  | append_singleton moves m ih =>
    have hnow := h
    rw [after_concat] at h
    rcases claimed_next h with hbefore | ⟨task, rfl, hclaims⟩
    · obtain ⟨earlier, task, later, rfl, hclaims, hsince⟩ := ih hbefore
      refine ⟨earlier, task, later ++ [m], by simp, hclaims, fun more hmore => ?_⟩
      rcases List.prefix_concat_iff.1 hmore with rfl | hmore
      · simpa using hnow
      · exact hsince more hmore
    · refine ⟨moves, task, [], rfl, hclaims, fun more hmore => ?_⟩
      obtain rfl := List.prefix_nil.1 hmore
      exact hnow

/-! ## Owners -/

/-- On this level a run with this number is going on that has claimed the node and has not
released it. -/
def Owns (w : World σ) (level : Nat) (id : NodeId) (run : Nat) : Prop :=
  w.frames[level]?.bind Frame.claim? = some (id, run)

/-- On this level a computation of the node is going on, and there is a result with which it
would not come too late. -/
def CanCommit (w : World σ) (level : Nat) (id : NodeId) : Prop :=
  ∃ run epoch d context c, w.frames[level]? = some (.run id (.computing run epoch d context c)) ∧
    ∃ result, (w.engine.commit id run epoch d result).2 ≠ .releasing run (.ok .discarded)

omit [NodeState σ] in
theorem owns_iff {level run : Nat} :
    w.Owns level id run ↔ ∃ f, w.frames[level]? = some f ∧ f.claim? = some (id, run) :=
  Option.bind_eq_some_iff

omit [NodeState σ] in
/-- A node that is claimed is owned on exactly one level. -/
theorem Has.owner {run : Nat} (h : w.Has id run) (hheld : Held w.engine.graph w.frames)
    (hdistinct : (w.frames.filterMap Frame.run?).Nodup) : ∃! level, w.Owns level id run := by
  obtain ⟨n, hn, hclaimed, rfl⟩ := h
  obtain ⟨f, hf, hclaim⟩ := hheld id n hn hclaimed
  obtain ⟨level, hlevel⟩ := List.mem_iff_getElem?.1 hf
  refine ⟨level, owns_iff.2 ⟨f, hlevel, hclaim⟩, fun other hother => ?_⟩
  obtain ⟨f', hlevel', hclaim'⟩ := owns_iff.1 hother
  exact index_eq_of_run? hdistinct hlevel' hlevel (Frame.run?_of_claim? hclaim')
    (Frame.run?_of_claim? hclaim)

end World

namespace Engine

variable [NodeState σ] {e : Engine σ}

theorem commit_eq_discard {id : NodeId} {run : Nat}
    (h : ∀ n, e.graph.node? id = some n → n.run = run → n.claimed = false) (epoch : Nat)
    (d : Definition σ) (result : Except Failure Outputs) :
    e.commit id run epoch d result = e.discard id run := by
  have hlost : (e.graph.ownedNode? id run).filter (·.claimed) = none := by
    rw [Option.filter_eq_none_iff]
    intro n hn
    obtain ⟨hn, hrun⟩ := ownedNode?_eq_some.1 hn
    simp [h n hn hrun]
  rw [commit, hlost]

/-- Before its claim and after its release a run does not touch the graph. -/
theorem graph_turn_of_idle {e' : Engine σ} {top : Frame σ} {rest new : List (Frame σ)}
    (h : Turn e top rest e' new) (htop : top.run? = none) : e'.graph = e.graph := by
  cases h with
  | enter id rest => rfl
  | pass top rest e' new hpass => exact hpass.same.graph
  | _ => cases htop

end Engine

namespace World

variable [NodeState σ] {w : World σ} {id : NodeId}

omit [NodeState σ] in
theorem CanCommit.has {level : Nat} [NodeState σ] (h : w.CanCommit level id) :
    ∃ f run, w.frames[level]? = some f ∧ f.run? = some run ∧ w.Has id run := by
  obtain ⟨run, epoch, d, context, c, hlevel, result, hresult⟩ := h
  refine ⟨_, run, hlevel, rfl, ?_⟩
  by_contra hnot
  refine hresult ?_
  rw [Engine.commit_eq_discard (fun n hn hrun => ?_) epoch d result]
  · rfl
  · exact Bool.eq_false_iff.2 fun hclaimed => hnot ⟨n, hn, hclaimed, hrun⟩

/-- When its run releases it a node is no longer claimed by that run, nor is any other. -/
theorem not_has_release (hheld : Held w.engine.graph w.frames)
    (hdistinct : (w.frames.filterMap Frame.run?).Nodup) {task run : Nat} {ending : Ending}
    {rest : List (Frame σ)}
    (htask : w.tasks[task]? = some (.run id (.releasing run ending) :: rest)) (m : NodeId) :
    ¬ (w.next (.step task)).Has m run := by
  intro hhas
  rcases claimed_next hhas with ⟨n, hn, hclaimed, rfl⟩ | ⟨task', heq, hclaims⟩
  · obtain ⟨f, hf, hclaim⟩ := hheld m n hn hclaimed
    have hmem : Frame.run id (.releasing n.run ending) ∈ w.frames :=
      mem_frames htask List.mem_cons_self
    -- The number is that of this level alone, so the node is the one that is released.
    obtain rfl := eq_of_run? hdistinct hf hmem (Frame.run?_of_claim? hclaim) rfl
    cases hclaim
    obtain ⟨hgraph, -⟩ := next_step htask
      (show w.engine.step _ = some (w.engine.release id n.run, _) from rfl)
    obtain ⟨n', hn', hclaimed', -⟩ := hhas
    rw [hgraph, Engine.release, Engine.withGraph, Graph.node?_modify_self, hn] at hn'
    cases hn'
    simp [Node.released, hclaimed] at hclaimed'
  · cases heq
    obtain ⟨rest', n, hother, -⟩ := hclaims
    rw [htask] at hother
    cases hother

/-- Two computations that can still be written to one node are the same. -/
theorem CanCommit.level_unique (hdistinct : (w.frames.filterMap Frame.run?).Nodup) {i j : Nat}
    (hi : w.CanCommit i id) (hj : w.CanCommit j id) : i = j := by
  obtain ⟨f, k, hf, hk, n, hn, -, hrun⟩ := hi.has
  obtain ⟨f', k', hf', hk', n', hn', -, hrun'⟩ := hj.has
  have hsame : k' = k := by
    rw [hn] at hn'
    cases hn'
    exact hrun'.symm.trans hrun
  exact index_eq_of_run? hdistinct hf hf' hk (hsame ▸ hk')

theorem next_claiming {task run : Nat} {rest : List (Frame σ)} {n : Node σ}
    (htask : w.tasks[task]? = some (.run id (.claiming run) :: rest))
    (hn : w.engine.graph.node? id = some n) (hclaimed : n.claimed = true) :
    (w.next (.step task)).engine.graph = w.engine.graph ∧ (w.next (.step task)).tasks[task]? =
      some (.run id (.leaving (.ok .alreadyRunning)) :: rest) := by
  have hclaim : w.engine.claim id run = (w.engine, .leaving (.ok .alreadyRunning)) := by
    rw [Engine.claim]
    simp only [hn, hclaimed, if_true]
  have hstep : w.engine.step (.run id (.claiming run) :: rest) =
      some (w.engine, .run id (.leaving (.ok .alreadyRunning)) :: rest) := by
    show some ((w.engine.claim id run).1, [.run id (w.engine.claim id run).2] ++ rest) = _
    rw [hclaim]
    rfl
  obtain ⟨hgraph, -, htasks⟩ := next_step htask hstep
  exact ⟨hgraph, htasks⟩

theorem graph_next_of_idle {task : Nat} {top : Frame σ} {rest : List (Frame σ)}
    (htask : w.tasks[task]? = some (top :: rest)) (htop : top.run? = none) :
    (w.next (.step task)).engine.graph = w.engine.graph := by
  rcases w.takes_step task with heq | ⟨top', rest', e, new, htakes⟩
  · rw [heq]
  · have hbefore := htakes.before
    rw [htask] at hbefore
    cases hbefore
    rw [htakes.engine.graph]
    exact Engine.graph_turn_of_idle htakes.turn htop

/-- In every world that can be reached:
  1. a node that is claimed has exactly one owner, which has had it ever since it claimed it;
  2. there is at most one computation that can still be written to a node;
  3. a run that finds its node claimed goes away and leaves the graph alone,
  4. as every run does before its claim and after its release;
  5. no claim outlives its run, however the run ended,
  6. so that nothing is claimed where no run has a node. -/
theorem exclusive_claims (r : Registry σ) (p : Policy) (moves : List (Move σ)) :
    let w := after r p moves
    (∀ id n, w.engine.graph.node? id = some n → n.claimed = true →
      (∃! level, w.Owns level id n.run) ∧ HasSince r p moves id n.run) ∧
    (∀ id i j, w.CanCommit i id → w.CanCommit j id → i = j) ∧
    (∀ task id run rest n, w.tasks[task]? = some (.run id (.claiming run) :: rest) →
      w.engine.graph.node? id = some n → n.claimed = true →
      (w.next (.step task)).engine.graph = w.engine.graph ∧ (w.next (.step task)).tasks[task]? =
        some (.run id (.leaving (.ok .alreadyRunning)) :: rest)) ∧
    (∀ task top rest, w.tasks[task]? = some (top :: rest) → top.run? = none →
      (w.next (.step task)).engine.graph = w.engine.graph) ∧
    (∀ task id run ending rest, w.tasks[task]? = some (.run id (.releasing run ending) :: rest) →
      ∀ m, ¬ (w.next (.step task)).Has m run) ∧
    ((∀ f ∈ w.frames, f.claim? = none) →
      ∀ id n, w.engine.graph.node? id = some n → n.claimed = false) := by
  intro w
  have hheld := held_after r p moves
  have hdistinct := (numbered_after r p moves).distinct
  refine ⟨fun id n hn hclaimed => ?_, fun id i j hi hj => hi.level_unique hdistinct hj, ?_, ?_, ?_,
    fun hidle id n hn => ?_⟩
  · have hhas : w.Has id n.run := ⟨n, hn, hclaimed, rfl⟩
    exact ⟨hhas.owner hheld hdistinct, hhas.since⟩
  · intro task id run rest n htask hn hclaimed
    exact next_claiming htask hn hclaimed
  · intro task top rest htask htop
    exact graph_next_of_idle htask htop
  · intro task id run ending rest htask
    exact not_has_release hheld hdistinct htask
  · refine Bool.eq_false_iff.2 fun hclaimed => ?_
    obtain ⟨f, hf, hclaim⟩ := hheld id n hn hclaimed
    rw [hidle f hf] at hclaim
    cases hclaim

end World

namespace Bench

/-- A gated node is executed and waits for its permit, and someone else is about to claim it. -/
def contending : List (Move BenchNode) :=
  [.create "g" "gated", .start "g"] ++ List.replicate 4 (.step 0) ++ [.start "g", .step 1]

/-- The first has the node, and the second has to go away. -/
theorem exclusive_claims_contending :
    let w := World.after (registry {}) {} contending
    w.frames.map Frame.run? = [some 1, some 2] ∧ (∃! level, w.Owns level "g" 1) ∧
      (w.next (.step 1)).engine.graph = w.engine.graph := by
  intro w
  obtain ⟨n, hn, hfacts⟩ : ∃ n, w.engine.graph.node? "g" = some n ∧
      (n.claimed, n.run) = (true, 1) := Option.map_eq_some_iff.1 (by decide +kernel)
  obtain ⟨hclaimed, hrun⟩ := Prod.mk.inj hfacts
  have htask : ∃ rest, w.tasks[1]? = some (.run "g" (.claiming 2) :: rest) := ⟨[], rfl⟩
  obtain ⟨rest, htask⟩ := htask
  have h := World.exclusive_claims (registry {}) {} contending
  exact ⟨by decide +kernel, hrun ▸ (h.1 "g" n hn hclaimed).1,
    (h.2.2.1 1 "g" 2 rest n htask hn hclaimed).1⟩

end Bench

end Patchbay
