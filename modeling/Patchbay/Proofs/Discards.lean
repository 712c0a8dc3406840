import Patchbay.Proofs.Ownership

/-!
# Runs that come to nothing

A run that is going on when its node is removed, or when the graph is replaced, has lost its node
for good. It goes on executing what feeds the node, and it may come to the end of its computation;
but it writes nothing, and it ends as discarded. A node that is made anew under the same identity
is told from the old one by the number of its last claim, and every claim has a number of its own.

A restored node, however, has the number with which it was saved. A run that has not read its
inputs yet takes such a node for its own if the snapshot was taken while the run had claimed it.

What is proved here:
  1. `Phase.Cut.step`: what a step of a run does that has lost its node.
  2. `World.cut_next`: no move, of whatever task, gives the node back.
  3. `World.removed_run_discarded`, `World.restored_run_discarded`: the run comes to nothing.
  4. `Bench.taken_for_its_own`: a run that takes a restored node for its own.
-/

namespace Patchbay

variable {σ : Type}

/-! ## Lost nodes -/

namespace Graph

/-- No node of this identity was last claimed by the run with this number. -/
def Forgotten (g : Graph σ) (id : NodeId) (run : Nat) : Prop :=
  ∀ n, g.node? id = some n → n.run ≠ run

def Unheld (g : Graph σ) (id : NodeId) (run : Nat) : Prop :=
  ∀ n, g.node? id = some n → n.run = run → n.claimed = false

variable {g g' : Graph σ} {id : NodeId} {run : Nat}

theorem Forgotten.unheld (h : g.Forgotten id run) : g.Unheld id run :=
  fun n hn hrun => absurd hrun (h n hn)

theorem Forgotten.inherits (h : g.Forgotten id run) (hg : g.Inherits g') :
    g'.Forgotten id run := by
  intro n' hn' hrun
  obtain ⟨n, hn, hlast⟩ := hg id n' hn'
  exact h n hn (hlast.run.symm.trans hrun)

theorem Unheld.inherits (h : g.Unheld id run) (hg : g.Inherits g') : g'.Unheld id run := by
  intro n' hn' hrun
  obtain ⟨n, hn, hlast⟩ := hg id n' hn'
  refine Bool.eq_false_iff.2 fun hclaimed => ?_
  have hfree := h n hn (hlast.run.symm.trans hrun)
  exact Bool.false_ne_true (hfree.symm.trans (hlast.claimed hclaimed))

theorem forgotten_of_none (h : g.node? id = none) : g.Forgotten id run := by
  intro n hn
  rw [h] at hn
  cases hn

/-- There is nothing to release for a run that does not have the node. -/
theorem modify_released (h : g.Unheld id run) : g.modify id (·.released run) = g := by
  refine modify_eq_self fun n hn => if_neg ?_
  rw [Bool.and_eq_true, beq_iff_eq]
  rintro ⟨hrun, hclaimed⟩
  exact Bool.false_ne_true ((h n hn hrun).symm.trans hclaimed)

end Graph

namespace Phase

/-- The run with this number has claimed its node, and has written nothing yet. -/
def Open (run : Nat) : Phase σ → Prop
  | .listing k | .pulling k _ | .computing k _ _ _ _ => k = run
  | _ => False

/-- The run has yet to look whether its node is still the one that it claimed. -/
def Reading : Phase σ → Prop
  | .listing _ | .pulling _ _ => True
  | _ => False

def Dropped : Phase σ → Prop
  | .releasing _ ending | .announcing ending | .leaving ending | .parting ending
  | .ended ending => ending = .ok .discarded
  | _ => False

/-- The run with this number has lost its node. If it has yet to look for it, it will not find a
node with its number; `reading` says whether that can still be so. -/
def Cut (g : Graph σ) (id : NodeId) (run : Nat) (reading : Prop) : Phase σ → Prop
  | .listing k | .pulling k _ => k = run ∧ reading ∧ g.Forgotten id run
  | .computing k _ _ _ _ => k = run ∧ g.Unheld id run
  | .releasing k ending => k = run ∧ ending = .ok .discarded ∧ g.Unheld id run
  | .announcing ending | .leaving ending | .parting ending | .ended ending =>
    ending = .ok .discarded
  | _ => False

variable {g g' : Graph σ} {id : NodeId} {run : Nat} {reading : Prop} {phase : Phase σ}

theorem Open.run? (h : phase.Open run) : phase.run? = some run := by
  cases phase with
  | listing k | pulling k todo | computing k epoch d context c => exact congrArg some h
  | _ => exact h.elim

/-- A run that is open has lost its node if the graph knows nothing of it. -/
theorem Open.cut (h : phase.Open run) (hunheld : g.Unheld id run)
    (hforgotten : phase.Reading → g.Forgotten id run) :
    phase.Cut g id run phase.Reading := by
  cases phase with
  | listing k => exact ⟨h, trivial, hforgotten trivial⟩
  | pulling k todo => exact ⟨h, trivial, hforgotten trivial⟩
  | computing k epoch d context c => exact ⟨h, hunheld⟩
  | _ => exact h.elim

theorem Cut.open_or_dropped (h : phase.Cut g id run reading) :
    phase.Open run ∨ phase.Dropped := by
  cases phase with
  | listing k | pulling k todo | computing k epoch d context c => exact .inl h.1
  | releasing k ending => exact .inr h.2.1
  | announcing ending | leaving ending | parting ending | ended ending => exact .inr h
  | _ => exact h.elim

theorem Dropped.not_open (h : phase.Dropped) : ¬ phase.Open run := by
  cases phase with
  | listing k | pulling k todo | computing k epoch d context c => exact h.elim
  | _ => exact fun hopen => hopen.elim

/-- As long as it matters that the node is lost, the number of the run is in play. -/
theorem Cut.mono (h : phase.Cut g id run reading)
    (hforgotten : phase.run? = some run → reading → g.Forgotten id run → g'.Forgotten id run)
    (hunheld : phase.run? = some run → g.Unheld id run → g'.Unheld id run) :
    phase.Cut g' id run reading := by
  cases phase with
  | listing k => exact ⟨h.1, h.2.1, hforgotten (congrArg some h.1) h.2.1 h.2.2⟩
  | pulling k todo => exact ⟨h.1, h.2.1, hforgotten (congrArg some h.1) h.2.1 h.2.2⟩
  | computing k epoch d context c => exact ⟨h.1, hunheld (congrArg some h.1) h.2⟩
  | releasing k ending => exact ⟨h.1, h.2.1, hunheld (congrArg some h.1) h.2.2⟩
  | announcing ending | leaving ending | parting ending | ended ending => exact h
  | _ => exact h.elim

end Phase

/-! ## Steps of the run -/

section

variable [NodeState σ] {e e' : Engine σ} {id : NodeId} {run : Nat} {reading : Prop}

namespace Engine

/-- A run that does not find its number at the node is discarded. -/
theorem resolve_eq_discard (h : e.graph.Forgotten id run) :
    e.resolve id run = e.discard id run := by
  have hlost : e.graph.ownedNode? id run = none := by
    rw [Option.eq_none_iff_forall_ne_some]
    intro n hn
    obtain ⟨hn, hrun⟩ := ownedNode?_eq_some.1 hn
    exact h n hn hrun
  rw [resolve, hlost]

omit [NodeState σ] in
theorem release_eq_self (h : e.graph.Unheld id run) : e.release id run = e := by
  rw [release, Graph.modify_released h]
  rfl

end Engine

/-- Where a run looks for its node and has lost it, it is discarded. -/
theorem Phase.Cut.step_discard {phase : Phase σ} (h : phase.Cut e.graph id run reading)
    (hphase : phase = .pulling run [] ∨
      ∃ epoch d context result, phase = .computing run epoch d context (.done result))
    (outer : List (Frame σ)) : e.step (.run id phase :: outer) =
      some (e.emit [.resultDiscarded id], .run id (.releasing run (.ok .discarded)) :: outer) := by
  rcases hphase with rfl | ⟨epoch, d, context, result, rfl⟩
  · show some ((e.resolve id run).1, [.run id (e.resolve id run).2] ++ outer) = _
    rw [Engine.resolve_eq_discard h.2.2]
    rfl
  · show some ((e.commit id run epoch d result).1,
      [.run id (e.commit id run epoch d result).2] ++ outer) = _
    rw [Engine.commit_eq_discard h.2]
    rfl

/-- What a step of a run does that has lost its node: the graph stays as it is, and the run goes
on as before, or is discarded and says so, or is over. -/
theorem Phase.Cut.step {phase : Phase σ} {outer s' : List (Frame σ)}
    (h : phase.Cut e.graph id run reading)
    (hstep : e.step (.run id phase :: outer) = some (e', s')) :
    e'.graph = e.graph ∧
      ((∃ inner' phase', s' = inner' ++ .run id phase' :: outer ∧
          phase'.Cut e.graph id run reading ∧ (phase'.Open run ↔ phase.Open run) ∧
          e'.log = e.log) ∨
        (phase.Open run ∧ e.graph.Unheld id run ∧ e'.log = e.log ++ [.resultDiscarded id] ∧
          s' = .run id (.releasing run (.ok .discarded)) :: outer) ∨
        (phase = .ended (.ok .discarded) ∧ e'.log = e.log)) := by
  cases phase with
  | entering => exact h.elim
  | claiming k => exact h.elim
  | listing k =>
    cases hstep
    obtain ⟨rfl, hcut⟩ := h
    exact ⟨rfl, .inl ⟨[], _, rfl, ⟨rfl, hcut⟩, Iff.rfl, rfl⟩⟩
  | pulling k todo =>
    have hcut := h
    obtain ⟨rfl, hreading, hforgotten⟩ := h
    cases todo with
    | nil =>
      rw [hcut.step_discard (.inl rfl)] at hstep
      cases hstep
      exact ⟨rfl, .inr (.inl ⟨rfl, hforgotten.unheld, rfl, rfl⟩)⟩
    | cons p todo =>
      cases hstep
      exact ⟨rfl, .inl ⟨[_], _, rfl, ⟨rfl, hreading, hforgotten⟩, Iff.rfl, rfl⟩⟩
  | computing k epoch d context c =>
    have hcut := h
    obtain ⟨rfl, hunheld⟩ := h
    cases c with
    | done result =>
      rw [hcut.step_discard (.inr ⟨epoch, d, context, result, rfl⟩)] at hstep
      cases hstep
      exact ⟨rfl, .inr (.inl ⟨rfl, hunheld, rfl, rfl⟩)⟩
    | awaitPermit c => cases hstep
    | generate request c => cases hstep
  | releasing k ending =>
    obtain ⟨rfl, rfl, hunheld⟩ := h
    have hrelease : e.step (.run id (.releasing k (.ok .discarded)) :: outer) =
        some (e, [.run id (.announcing (.ok .discarded))] ++ outer) := by
      show some (e.release id k, _) = _
      rw [Engine.release_eq_self hunheld]
    rw [hrelease] at hstep
    cases hstep
    exact ⟨rfl, .inl ⟨[], _, rfl, rfl, Iff.rfl, rfl⟩⟩
  | announcing ending | leaving ending | parting ending =>
    cases hstep
    exact ⟨rfl, .inl ⟨[], _, rfl, h, Iff.rfl, rfl⟩⟩
  | ended ending =>
    obtain rfl : ending = .ok .discarded := h
    cases outer with
    | nil => cases hstep
    | cons frame rest =>
      cases hstep
      exact ⟨rfl, .inr (.inr ⟨rfl, rfl⟩)⟩

end

/-! ## Other moves -/

/-- No node of the snapshot with this identity was saved with the number of this run. -/
def Snapshot.Lacks (s : Snapshot σ) (id : NodeId) (run : Nat) : Prop :=
  ∀ n ∈ s.nodes, n.id = id → n.run ≠ run

instance (s : Snapshot σ) (id : NodeId) (run : Nat) : Decidable (s.Lacks id run) :=
  inferInstanceAs (Decidable (∀ n ∈ s.nodes, n.id = id → n.run ≠ run))

/-- The progress of a computation leaves a run in its place, and it has what it had. -/
theorem Stack.exists_proceed (c : Computation) (inner outer : List (Frame σ)) (id : NodeId)
    (phase : Phase σ) : ∃ inner' phase',
      Stack.proceed c (inner ++ .run id phase :: outer) = inner' ++ .run id phase' :: outer ∧
      (∀ run, phase'.Open run ↔ phase.Open run) ∧
      ∀ g run reading, phase.Cut g id run reading → phase'.Cut g id run reading := by
  cases inner with
  | nil =>
    cases phase with
    | computing k epoch d context c₀ =>
      exact ⟨[], .computing k epoch d context c, rfl, fun _ => Iff.rfl, fun _ _ _ h => h⟩
    | _ => exact ⟨[], _, rfl, fun _ => Iff.rfl, fun _ _ _ h => h⟩
  | cons f inner =>
    cases f with
    | run m other =>
      cases other with
      | computing k epoch d context c₀ =>
        exact ⟨_ :: inner, phase, rfl, fun _ => Iff.rfl, fun _ _ _ h => h⟩
      | _ => exact ⟨_ :: inner, phase, rfl, fun _ => Iff.rfl, fun _ _ _ h => h⟩
    | wait t watch => exact ⟨_ :: inner, phase, rfl, fun _ => Iff.rfl, fun _ _ _ h => h⟩
    | errand left => exact ⟨_ :: inner, phase, rfl, fun _ => Iff.rfl, fun _ _ _ h => h⟩

variable [NodeState σ] {e e' : Engine σ} {id : NodeId} {run : Nat} {reading : Prop}

namespace Engine

/-- An operation gives no node to a run, unless it restores one that was saved with its number. -/
theorem Performed.lost {m : Move σ} (h : e.Performed m e') (hrun : 0 < run)
    (hm : reading → ∀ s, m = .restore s → s.Lacks id run) :
    (reading → e.graph.Forgotten id run → e'.graph.Forgotten id run) ∧
      (e.graph.Unheld id run → e'.graph.Unheld id run) := by
  rcases h.inherits with hinherits | ⟨m, state, hcreate⟩ | ⟨s, hs, hrestore⟩
  · exact ⟨fun _ h => h.inherits hinherits.nodes, fun h => h.inherits hinherits.nodes⟩
  · obtain ⟨-, -, rfl⟩ := createWith_eq_ok hcreate
    constructor
    · intro _ h n hn
      rcases Graph.node?_of_inserted hn with ⟨-, rfl⟩ | hn
      · exact Nat.ne_of_lt hrun
      · exact h n hn
    · intro h n hn heq
      rcases Graph.node?_of_inserted hn with ⟨-, rfl⟩ | hn
      · rfl
      · exact h n hn heq
  · obtain ⟨-, hnodes⟩ := restore_spec hrestore
    constructor
    · intro hreading _ n hn heq
      obtain ⟨-, n₀, hn₀, hid, hrun₀⟩ := hnodes id n hn
      exact hm hreading s hs n₀ hn₀ hid (hrun₀.trans heq)
    · exact fun _ n hn _ => (hnodes id n hn).1

theorem lost_turn {top : Frame σ} {rest new : List (Frame σ)} (h : Turn e top rest e' new)
    (htop : top.run? ≠ some run) :
    (e.graph.Forgotten id run → e'.graph.Forgotten id run) ∧
      (e.graph.Unheld id run → e'.graph.Unheld id run) := by
  rcases inherits_turn h with hinherits | ⟨m, -, rfl⟩ | ⟨m, other, n₀, rfl, -, -, rfl⟩
  · exact ⟨fun h => h.inherits hinherits.nodes, fun h => h.inherits hinherits.nodes⟩
  · exact ⟨fun h => h, fun h => h⟩
  · have hother : other ≠ run := fun heq => htop (congrArg some heq)
    -- The node that was claimed has the other number now.
    have hclaimed : ∀ n, (e.graph.modify m (·.taken other)).node? id = some n → n.run = run →
        e.graph.node? id = some n := by
      intro n hn hrun
      rw [Graph.node?_modify] at hn
      split at hn
      · obtain ⟨n₁, -, rfl⟩ := Option.map_eq_some_iff.1 hn
        exact absurd hrun hother
      · exact hn
    exact ⟨fun h n hn hrun => h n (hclaimed n hn hrun) hrun,
      fun h n hn hrun => h n (hclaimed n hn hrun) hrun⟩

end Engine

namespace World

variable {w : World σ} {task : Nat} {inner outer : List (Frame σ)} {phase : Phase σ}

omit [NodeState σ] in
theorem run?_ne_of_place (hdistinct : (w.frames.filterMap Frame.run?).Nodup)
    (hplace : w.tasks[task]? = some (inner ++ .run id phase :: outer))
    (hrun : phase.run? = some run) {other : Nat} {top : Frame σ} {rest : List (Frame σ)}
    (hother : w.tasks[other]? = some (top :: rest)) (hne : other ≠ task ∨ inner ≠ []) :
    top.run? ≠ some run := by
  have hmem : Frame.run id phase ∈ inner ++ .run id phase :: outer :=
    List.mem_append_right _ List.mem_cons_self
  by_cases heq : other = task
  · subst heq
    rw [hplace] at hother
    cases inner with
    | nil => exact absurd rfl (hne.resolve_left fun h => h rfl)
    | cons f inner =>
      cases hother
      exact run?_ne_of_task hdistinct hplace
        (List.mem_append_right _ List.mem_cons_self) hrun
  · exact run?_ne_of_tasks hdistinct (Ne.symm heq) hplace hother hmem List.mem_cons_self hrun

omit [NodeState σ] in
theorem run?_pos_of_place (hnumbered : Numbered w.engine w.frames)
    (hplace : w.tasks[task]? = some (inner ++ .run id phase :: outer))
    (hrun : phase.run? = some run) : 0 < run := by
  refine hnumbered.positive run (List.mem_filterMap.2 ⟨.run id phase, ?_, hrun⟩)
  exact mem_frames hplace (List.mem_append_right _ List.mem_cons_self)

/-- An operation on the engine leaves a run in its place, and does not give it its node back. -/
theorem cut_performs {w' : World σ} {m : Move σ} (hnumbered : Numbered w.engine w.frames)
    (hplace : w.tasks[task]? = some (inner ++ .run id phase :: outer))
    (hcut : phase.Cut w.engine.graph id run reading)
    (hm : reading → ∀ s, m = .restore s → s.Lacks id run) (h : w.Performs m w') :
    w'.tasks[task]? = some (inner ++ .run id phase :: outer) ∧
      phase.Cut w'.engine.graph id run reading := by
  obtain ⟨e, hperformed, hsame⟩ := h.engine
  obtain ⟨idle, -, htasks⟩ := h.tasks
  constructor
  · rw [htasks, getElem?_append_of_some hplace]
  · rw [hsame.graph]
    exact hcut.mono
      (fun hrun => (hperformed.lost (run?_pos_of_place hnumbered hplace hrun) hm).1)
      (fun hrun => (hperformed.lost (run?_pos_of_place hnumbered hplace hrun) hm).2)

/-- A step of another level does not give a run its node back. -/
theorem cut_turn {e : Engine σ} (hdistinct : (w.frames.filterMap Frame.run?).Nodup)
    (hplace : w.tasks[task]? = some (inner ++ .run id phase :: outer))
    (hcut : phase.Cut w.engine.graph id run reading) {other : Nat} {top : Frame σ}
    {rest new : List (Frame σ)} (hother : w.tasks[other]? = some (top :: rest))
    (hturn : Turn w.engine top rest e new) (hne : other ≠ task ∨ inner ≠ []) :
    phase.Cut e.graph id run reading := by
  refine hcut.mono (fun hrun _ => ?_) fun hrun => ?_
  · exact (Engine.lost_turn hturn (run?_ne_of_place hdistinct hplace hrun hother hne)).1
  · exact (Engine.lost_turn hturn (run?_ne_of_place hdistinct hplace hrun hother hne)).2

/-- The progress of a computation leaves a run in its place, and does not give it its node back. -/
theorem cut_deliver (hplace : w.tasks[task]? = some (inner ++ .run id phase :: outer))
    (hcut : phase.Cut w.engine.graph id run reading) (other : Nat) (c : Computation) :
    ∃ inner' phase',
      (w.next (.deliver other c)).tasks[task]? = some (inner' ++ .run id phase' :: outer) ∧
        phase'.Cut w.engine.graph id run reading ∧ (phase'.Open run ↔ phase.Open run) := by
  have htasks : (w.next (.deliver other c)).tasks = w.tasks.modify other (Stack.proceed c) := rfl
  rw [htasks, List.getElem?_modify, hplace, Option.map_eq_map, Option.map_some]
  by_cases heq : other = task
  · obtain ⟨inner', phase', hnew, hopen, hcut'⟩ := Stack.exists_proceed c inner outer id phase
    refine ⟨inner', phase', ?_, hcut' _ _ _ hcut, hopen run⟩
    rw [if_pos heq, hnew]
  · refine ⟨inner, phase, ?_, hcut, Iff.rfl⟩
    rw [if_neg heq]

/-- No move gives a lost node back. The run stays in its place, until it is discarded and says so,
or is over. -/
theorem cut_next (hnumbered : Numbered w.engine w.frames)
    (hplace : w.tasks[task]? = some (inner ++ .run id phase :: outer))
    (hcut : phase.Cut w.engine.graph id run reading) (m : Move σ)
    (hm : reading → ∀ s, m = .restore s → s.Lacks id run) :
    (∃ inner' phase', (w.next m).tasks[task]? = some (inner' ++ .run id phase' :: outer) ∧
        phase'.Cut (w.next m).engine.graph id run reading ∧
        (phase'.Open run ↔ phase.Open run)) ∨
      (m = .step task ∧ inner = [] ∧ phase.Open run ∧ (w.next m).engine.graph.Unheld id run ∧
        (w.next m).engine.log = w.engine.log ++ [.resultDiscarded id] ∧
        (w.next m).tasks[task]? = some (.run id (.releasing run (.ok .discarded)) :: outer)) ∨
      (inner = [] ∧ phase = .ended (.ok .discarded)) := by
  rcases w.move_cases m with hperforms | ⟨other, top, rest, e, new, rfl, htakes⟩ | ⟨other, c, rfl⟩
  · obtain ⟨hplace', hcut'⟩ := cut_performs hnumbered hplace hcut hm hperforms
    exact .inl ⟨inner, phase, hplace', hcut', Iff.rfl⟩
  · obtain ⟨idle, -, htasks⟩ := htakes.tasks
    have hlt := (List.getElem?_eq_some_iff.1 hplace).1
    have hlost := cut_turn hnumbered.distinct hplace hcut htakes.before htakes.turn
    rw [htakes.engine.graph, htakes.log, htasks,
      List.getElem?_append_left (by rwa [List.length_set])]
    by_cases heq : other = task
    · subst heq
      have hbefore := htakes.before
      rw [hplace] at hbefore
      rw [List.getElem?_set_self hlt]
      -- The step is one of the run itself if nothing stands above it.
      cases inner with
      | nil =>
        cases hbefore
        obtain ⟨hgraph, hcase⟩ := hcut.step htakes.step
        rcases hcase with ⟨inner', phase', hnew, hcut', hopen, -⟩ | ⟨hopen, hunheld, hlog, hnew⟩ |
          ⟨hphase, -⟩
        · exact .inl ⟨inner', phase', congrArg some hnew, hgraph.symm ▸ hcut', hopen⟩
        · exact .inr (.inl ⟨rfl, rfl, hopen, hgraph.symm ▸ hunheld, hlog, congrArg some hnew⟩)
        · exact .inr (.inr ⟨rfl, hphase⟩)
      | cons f inner =>
        cases hbefore
        exact .inl ⟨new ++ inner, phase, congrArg some (List.append_assoc _ _ _).symm,
          hlost (.inr (List.cons_ne_nil _ _)), Iff.rfl⟩
    · rw [List.getElem?_set_ne heq]
      exact .inl ⟨inner, phase, hplace, hlost (.inl heq), Iff.rfl⟩
  · exact .inl (cut_deliver hplace hcut other c)

/-! ## What becomes of the run -/

/-- The run with this number stands in this phase, above the outer levels of its task and below
the inner ones, and its steps come to nothing. -/
structure InVain (w : World σ) (task : Nat) (inner outer : List (Frame σ)) (id : NodeId)
    (run : Nat) (phase : Phase σ) : Prop where
  place : w.tasks[task]? = some (inner ++ .run id phase :: outer)
  graph : inner = [] ∨ (∃ t watch, inner = [.wait t watch]) →
    (w.next (.step task)).engine.graph = w.engine.graph
  onward : inner = [] → phase.Open run →
    (∃ inner' phase', (w.next (.step task)).tasks[task]? =
        some (inner' ++ .run id phase' :: outer) ∧ phase'.Open run ∧
      (w.next (.step task)).engine.log = w.engine.log) ∨
    (w.next (.step task)).tasks[task]? = some (.run id (.releasing run (.ok .discarded)) :: outer) ∧
      (w.next (.step task)).engine.log = w.engine.log ++ [.resultDiscarded id]
  ended : inner = [] → (phase = .pulling run [] ∨
      ∃ epoch d context result, phase = .computing run epoch d context (.done result)) →
    ((List.replicate 5 (.step task)).foldl next w).tasks[task]? =
      some (.run id (.ended (.ok .discarded)) :: outer)

/-- At one of these moves the run, which had written nothing until then, was discarded and
announced it. -/
def Announced (w : World σ) (moves : List (Move σ)) (task : Nat) (outer : List (Frame σ))
    (id : NodeId) (run : Nat) : Prop :=
  ∃ earlier phase, earlier ++ [.step task] <+: moves ∧
    (earlier.foldl next w).tasks[task]? = some (.run id phase :: outer) ∧ phase.Open run ∧
    ((earlier ++ [.step task]).foldl next w).engine.log =
      (earlier.foldl next w).engine.log ++ [.resultDiscarded id]

/-- After these moves the run has written nothing, and what it does is in vain; or it was
discarded and has announced it, and it is on its way out or has ended as discarded. -/
def Discards (w : World σ) (moves : List (Move σ)) (task : Nat) (outer : List (Frame σ))
    (id : NodeId) (run : Nat) : Prop :=
  (∃ inner phase, phase.Open run ∧ (moves.foldl next w).InVain task inner outer id run phase) ∨
    w.Announced moves task outer id run ∧
      ((∃ inner phase, phase.Dropped ∧ (moves.foldl next w).InVain task inner outer id run phase) ∨
        ∃ earlier, earlier <+: moves ∧
          (earlier.foldl next w).tasks[task]? = some (.run id (.ended (.ok .discarded)) :: outer))

theorem ended_of_releasing {ending : Ending}
    (h : w.tasks[task]? = some (.run id (.releasing run ending) :: outer)) :
    ((List.replicate 4 (.step task)).foldl next w).tasks[task]? =
      some (.run id (.ended ending) :: outer) := by
  have hannounce := (next_step h rfl).2.2
  have hleave := (next_step hannounce rfl).2.2
  have hpart := (next_step hleave rfl).2.2
  exact (next_step hpart rfl).2.2

theorem inVain_of_cut (hplace : w.tasks[task]? = some (inner ++ .run id phase :: outer))
    (hcut : phase.Cut w.engine.graph id run reading) : w.InVain task inner outer id run phase := by
  -- Either the run cannot go on by itself, or its step is one of those of a run without a node.
  have hstep : inner = [] → w.next (.step task) = w ∨ ∃ e s',
      w.engine.step (.run id phase :: outer) = some (e, s') := by
    rintro rfl
    rcases w.takes_step task with heq | ⟨top, rest, e, new, htakes⟩
    · exact .inl heq
    · have hbefore := htakes.before
      rw [hplace] at hbefore
      cases hbefore
      exact .inr ⟨e, _, htakes.step⟩
  refine ⟨hplace, ?_, ?_, ?_⟩
  · rintro (hinner | ⟨t, watch, rfl⟩)
    · rcases hstep hinner with heq | ⟨e, s', hs⟩
      · rw [heq]
      · subst hinner
        exact (next_step hplace hs).1.trans (hcut.step hs).1
    · exact graph_next_of_idle hplace rfl
  · intro hinner hopen
    rcases hstep hinner with heq | ⟨e, s', hs⟩
    · rw [heq]
      exact .inl ⟨inner, phase, hplace, hopen, rfl⟩
    · subst hinner
      obtain ⟨-, hlog, htasks⟩ := next_step hplace hs
      rcases (hcut.step hs).2 with ⟨inner', phase', rfl, -, hopen', hlog'⟩ |
        ⟨-, -, hlog', rfl⟩ | ⟨rfl, -⟩
      · exact .inl ⟨inner', phase', htasks, hopen'.2 hopen, hlog.trans hlog'⟩
      · exact .inr ⟨htasks, hlog.trans hlog'⟩
      · exact hopen.elim
  · rintro rfl hphase
    have hdiscard := (next_step hplace (hcut.step_discard hphase outer)).2.2
    exact ended_of_releasing hdiscard

theorem Announced.mono {moves more : List (Move σ)} (h : w.Announced moves task outer id run)
    (hmore : moves <+: more) : w.Announced more task outer id run := by
  obtain ⟨earlier, phase, hearlier, hrest⟩ := h
  exact ⟨earlier, phase, hearlier.trans hmore, hrest⟩

/-- After these moves the run has written nothing, and it has lost its node; or it was discarded
and has announced it, and it is on its way out or has ended as discarded. -/
def Doomed (w : World σ) (moves : List (Move σ)) (task : Nat) (outer : List (Frame σ))
    (id : NodeId) (run : Nat) (reading : Prop) : Prop :=
  (∃ inner phase, (moves.foldl next w).tasks[task]? = some (inner ++ .run id phase :: outer) ∧
      phase.Open run ∧ phase.Cut (moves.foldl next w).engine.graph id run reading) ∨
    w.Announced moves task outer id run ∧
      ((∃ inner phase, (moves.foldl next w).tasks[task]? =
            some (inner ++ .run id phase :: outer) ∧ phase.Dropped ∧
          phase.Cut (moves.foldl next w).engine.graph id run reading) ∨
        ∃ earlier, earlier <+: moves ∧
          (earlier.foldl next w).tasks[task]? = some (.run id (.ended (.ok .discarded)) :: outer))

theorem Doomed.discards {moves : List (Move σ)} (h : w.Doomed moves task outer id run reading) :
    w.Discards moves task outer id run := by
  rcases h with ⟨inner, phase, hplace, hopen, hcut⟩ |
    ⟨hannounced, ⟨inner, phase, hplace, hdropped, hcut⟩ | hended⟩
  · exact .inl ⟨inner, phase, hopen, inVain_of_cut hplace hcut⟩
  · exact .inr ⟨hannounced, .inl ⟨inner, phase, hdropped, inVain_of_cut hplace hcut⟩⟩
  · exact .inr ⟨hannounced, .inr hended⟩

theorem Doomed.next {moves : List (Move σ)} (h : w.Doomed moves task outer id run reading)
    (hnumbered : Numbered (moves.foldl next w).engine (moves.foldl next w).frames) (m : Move σ)
    (hm : reading → ∀ s, m = .restore s → s.Lacks id run) :
    w.Doomed (moves ++ [m]) task outer id run reading := by
  have hbefore : moves <+: moves ++ [m] := List.prefix_append moves [m]
  have hlast : (moves ++ [m]).foldl World.next w = (moves.foldl World.next w).next m := by
    rw [List.foldl_append]
    rfl
  rw [Doomed, hlast]
  rcases h with ⟨inner, phase, hplace, hopen, hcut⟩ |
    ⟨hannounced, ⟨inner, phase, hplace, hdropped, hcut⟩ | ⟨earlier, hearlier, hended⟩⟩
  · rcases cut_next hnumbered hplace hcut m hm with ⟨inner', phase', hplace', hcut', hopen'⟩ |
      ⟨rfl, rfl, -, hunheld, hlog, hplace'⟩ | ⟨-, rfl⟩
    · exact .inl ⟨inner', phase', hplace', hopen'.2 hopen, hcut'⟩
    · refine .inr ⟨⟨moves, phase, List.prefix_rfl, hplace, hopen, ?_⟩,
        .inl ⟨[], _, hplace', rfl, rfl, rfl, hunheld⟩⟩
      rw [hlast, hlog]
    · exact hopen.elim
  · rcases cut_next hnumbered hplace hcut m hm with ⟨inner', phase', hplace', hcut', hopen'⟩ |
      ⟨-, -, hopen, -⟩ | ⟨rfl, rfl⟩
    · have hnot : ¬ phase'.Open run := fun h => hdropped.not_open (hopen'.1 h)
      exact .inr ⟨hannounced.mono hbefore,
        .inl ⟨inner', phase', hplace', hcut'.open_or_dropped.resolve_left hnot, hcut'⟩⟩
    · exact absurd hopen hdropped.not_open
    · exact .inr ⟨hannounced.mono hbefore, .inr ⟨moves, hbefore, hplace⟩⟩
  · exact .inr ⟨hannounced.mono hbefore, .inr ⟨earlier, hearlier.trans hbefore, hended⟩⟩

/-- A run that has lost its node comes to nothing, whatever else happens. -/
theorem discards_of_cut (hnumbered : Numbered w.engine w.frames)
    (hplace : w.tasks[task]? = some (inner ++ .run id phase :: outer))
    (hopen : phase.Open run) (hcut : phase.Cut w.engine.graph id run reading)
    (moves : List (Move σ)) (hmoves : reading → ∀ s, .restore s ∈ moves → s.Lacks id run) :
    w.Discards moves task outer id run := by
  suffices h : w.Doomed moves task outer id run reading from h.discards
  induction moves using List.reverseRecOn with
  | nil => exact .inl ⟨inner, phase, hplace, hopen, hcut⟩
  | append_singleton moves m ih =>
    have hnow := (Numbered.invariant w.engine.registry w.engine.policy).foldl hnumbered moves
    have hdoomed := ih fun hreading s hs => hmoves hreading s (List.mem_append_left _ hs)
    exact hdoomed.next hnow m fun hreading s hs =>
      hmoves hreading s (hs ▸ List.mem_append_right _ List.mem_cons_self)

/-! ## Removal -/

omit [NodeState σ] in
theorem tasks_edit (w : World σ) (result : Except Error (Engine σ)) :
    ∃ idle, (w.edit result).tasks = w.tasks ++ idle := by
  cases result with
  | error err => exact ⟨[], (List.append_nil _).symm⟩
  | ok e => exact ⟨_, rfl⟩

/-- After a removal there is no node, whether there was one before or not. -/
theorem node?_next_remove (w : World σ) (id : NodeId) :
    (w.next (.remove id)).engine.graph.node? id = none := by
  rw [next]
  cases hn : w.engine.graph.node? id with
  | none =>
    have herror : w.engine.remove id = .error (.nodeNotFound id) := by
      rw [Engine.remove, Graph.node, hn]
      rfl
    rw [herror]
    exact hn
  | some n =>
    obtain ⟨e', cs, hremove⟩ := Engine.exists_remove hn
    have hgone := Engine.node?_remove hremove
    rw [hremove]
    exact hgone

/-- For every run that has claimed a node and has written nothing yet: if the node is removed, the
run comes to nothing, whatever happens afterwards but for a restoration. The node may be made anew
under the same identity, wired and executed. -/
theorem removed_run_discarded (r : Registry σ) (p : Policy) (moves : List (Move σ)) (task : Nat)
    (inner outer : List (Frame σ)) (id : NodeId) (phase : Phase σ) (run : Nat)
    (hplace : (after r p moves).tasks[task]? = some (inner ++ .run id phase :: outer))
    (hopen : phase.Open run) (more : List (Move σ))
    (hmore : ∀ m ∈ more, m.isRestore = false) :
    (after r p (moves ++ [.remove id])).Discards more task outer id run := by
  have hgone : (after r p (moves ++ [.remove id])).engine.graph.Forgotten id run := by
    rw [after_concat]
    exact Graph.forgotten_of_none ((after r p moves).node?_next_remove id)
  have hplace' : (after r p (moves ++ [.remove id])).tasks[task]? =
      some (inner ++ .run id phase :: outer) := by
    obtain ⟨idle, htasks⟩ := tasks_edit (after r p moves)
      (((after r p moves).engine.remove id).map (·.1))
    rw [after_concat, next, htasks, getElem?_append_of_some hplace]
  refine discards_of_cut (numbered_after r p _) hplace' hopen
    (hopen.cut hgone.unheld fun _ => hgone) more fun _ s hs => ?_
  cases hmore _ hs

end World

namespace Bench

/-- A gated node is executed, and its computation waits for its permit. -/
def executing : List (Move BenchNode) :=
  [.create "g" "gated", .start "g"] ++ List.replicate 4 (.step 0)

/-- A node is made anew under the same identity and executed; then the first computation fails. -/
def remaking : List (Move BenchNode) :=
  [.create "g" "gated", .start "g"] ++ List.replicate 4 (.step 1) ++
    [.deliver 0 (.done (.error (.stated "too late")))] ++ List.replicate 5 (.step 0)

/-- The first run is discarded, and the second one has the new node. -/
theorem removed_run_discarded_remaking :
    let w := World.after (registry {}) {} (executing ++ [.remove "g"])
    w.Discards remaking 0 [] "g" 1 ∧ (remaking.foldl World.next w).Has "g" 2 ∧
      (remaking.foldl World.next w).tasks[0]? = some [.run "g" (.ended (.ok .discarded))] := by
  obtain ⟨phase, hplace, hopen⟩ : ∃ phase,
      (World.after (registry {}) {} executing).tasks[0]? = some ([] ++ .run "g" phase :: []) ∧
        phase.Open 1 := ⟨_, rfl, rfl⟩
  exact ⟨World.removed_run_discarded _ _ executing 0 [] [] "g" phase 1 hplace hopen remaking
    (by decide), ⟨_, rfl, rfl, rfl⟩, rfl⟩

end Bench

namespace World

/-! ## Restoration -/

/-- For every run that has claimed a node and has written nothing yet: if a snapshot is restored,
the run comes to nothing, whatever happens afterwards, further restorations included; provided
that the run has read its inputs already, or no snapshot that is restored has a node of this
identity that was saved with the number of the run. -/
theorem restored_run_discarded (r : Registry σ) (p : Policy) (moves : List (Move σ)) (task : Nat)
    (inner outer : List (Frame σ)) (id : NodeId) (phase : Phase σ) (run : Nat)
    (hplace : (after r p moves).tasks[task]? = some (inner ++ .run id phase :: outer))
    (hopen : phase.Open run) (s : Snapshot σ) (e : Engine σ)
    (hrestore : (after r p moves).engine.restore s = .ok e) (more : List (Move σ))
    (hlacks : phase.Reading → ∀ s', .restore s' ∈ .restore s :: more → s'.Lacks id run) :
    (after r p (moves ++ [.restore s])).Discards more task outer id run := by
  obtain ⟨-, hnodes⟩ := Engine.restore_spec hrestore
  have hgraph : (after r p (moves ++ [.restore s])).engine.graph = e.graph := by
    rw [after_concat, next, hrestore]
    rfl
  have hplace' : (after r p (moves ++ [.restore s])).tasks[task]? =
      some (inner ++ .run id phase :: outer) := by
    obtain ⟨idle, htasks⟩ := tasks_edit (after r p moves) ((after r p moves).engine.restore s)
    rw [after_concat, next, htasks, getElem?_append_of_some hplace]
  have hcut : phase.Cut (after r p (moves ++ [.restore s])).engine.graph id run phase.Reading := by
    rw [hgraph]
    refine hopen.cut (fun n hn _ => (hnodes id n hn).1) fun hreading n hn heq => ?_
    obtain ⟨-, n₀, hn₀, hid, hrun₀⟩ := hnodes id n hn
    exact hlacks hreading s List.mem_cons_self n₀ hn₀ hid (hrun₀.trans heq)
  exact discards_of_cut (numbered_after r p _) hplace' hopen hcut more fun hreading s' hs' =>
    hlacks hreading s' (List.mem_cons_of_mem _ hs')

end World

namespace Bench

/-- A gated node is executed, and it is about to read its inputs. -/
def poised : List (Move BenchNode) :=
  [.create "g" "gated", .start "g"] ++ List.replicate 3 (.step 0)

/-- What is restored was saved before the run claimed its node, so that the run is discarded. -/
theorem restored_run_discarded_poised :
    let s := (World.after (registry {}) {} [.create "g" "gated"]).engine.snapshot
    let w := World.after (registry {}) {} (poised ++ [.restore s])
    w.Discards (List.replicate 5 (.step 0)) 0 [] "g" 1 ∧
      (((List.replicate 5 (.step 0)).foldl World.next w).frames.any
        fun | .run "g" (.ended (.ok .discarded)) => true | _ => false) = true := by
  intro s w
  obtain ⟨phase, hplace, hopen⟩ : ∃ phase,
      (World.after (registry {}) {} poised).tasks[0]? = some ([] ++ .run "g" phase :: []) ∧
        phase.Open 1 := ⟨_, rfl, rfl⟩
  have hlacks : s.Lacks "g" 1 := by decide +kernel
  have haccepted : ((World.after (registry {}) {} poised).engine.restore s).isOk = true := by
    decide +kernel
  cases hrestore : (World.after (registry {}) {} poised).engine.restore s with
  | error err =>
    rw [hrestore] at haccepted
    cases haccepted
  | ok e =>
    refine ⟨World.restored_run_discarded _ _ poised 0 [] [] "g" phase 1 hplace hopen s e hrestore
      (List.replicate 5 (.step 0)) fun _ s' hs' => ?_, by decide +kernel⟩
    obtain rfl : s' = s := by simpa using hs'
    exact hlacks

/-- A gated node is executed for another one that reads from it, and waits for its permit. -/
def pulling : List (Move BenchNode) :=
  [.create "g" "gated", .create "m" "gated", .connect ⟨"g", "output"⟩ ⟨"m", "input"⟩, .start "m"]
    ++ List.replicate 8 (.step 0)

def resuming : List (Move BenchNode) :=
  .deliver 0 (.done (.ok .empty)) :: List.replicate 6 (.step 0)

/-- The graph is saved and restored at once while a run waits for what feeds its node. The
restored node has the number of the run, and nobody has claimed it; when the run goes on it
nevertheless takes it for its own, blocks it, and ends as blocked. -/
theorem taken_for_its_own :
    let w := World.after (registry { reactiveGated := true }) {} pulling
    let w' := resuming.foldl World.next (w.next (.restore w.engine.snapshot))
    let w'' := w'.next (.step 0)
    w.frames.map Frame.claim? = [some ("g", 2), some ("m", 1)] ∧
      (w.engine.restore w.engine.snapshot).isOk = true ∧
      w'.frames.map Frame.claim? = [some ("m", 1)] ∧
      (w'.engine.graph.node? "m").map (fun n => (n.claimed, n.status)) = some (false, .idle) ∧
      (w''.engine.graph.node? "m").map (fun n => (n.claimed, n.status)) = some (false, .blocked) ∧
      (w''.frames.any fun | .run "m" (.releasing 1 (.ok .blocked)) => true | _ => false) = true :=
  ⟨by decide +kernel, by decide +kernel, by decide +kernel, by decide +kernel, by decide +kernel,
    by decide +kernel⟩

end Bench

end Patchbay
