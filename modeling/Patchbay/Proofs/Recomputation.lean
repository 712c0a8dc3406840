import Patchbay.Proofs.Levels

/-!
# Tasks that go on together

A node is executed on an engine on which nothing else goes on. The execution may start other
tasks, and all of them take their steps in any order. All levels of all these tasks stay in
order, so that when the execution ends it says what the recursion says. That needs one thing of
the policy or of the graph: a computation that ends on a fresh node does not make the consumers
stale, or nobody is left whom that could harm.

What is proved here:
  1. `Underway.stepTask`: the invariant of all tasks that come from one execution.
  2. `Underway.steps_of_careful`: the same for a run, as long as no computation does harm.
  3. `Underway.ended`: what the execution ends with.
-/

namespace Patchbay

variable {σ : Type}

namespace Stack

def IsOver (s : Stack σ) : Prop := s = [] ∨ ∃ id ending, s = [.run id (.ended ending)]

theorem ending?_eq_some {s : Stack σ} {ending : Ending} :
    s.ending? = some ending ↔ ∃ id, s = [.run id (.ended ending)] := by
  constructor
  · intro h
    unfold ending? at h
    split at h
    · cases h
      exact ⟨_, rfl⟩
    · cases h
  · intro hex
    obtain ⟨id, rfl⟩ := hex
    rfl

theorem eq_of_singleton {above : Stack σ} {m id : NodeId} {out phase : Phase σ}
    (h : [Frame.run m out] = above ++ [.run id phase]) : m = id ∧ out = phase := by
  cases above with
  | nil =>
    cases h
    exact ⟨rfl, rfl⟩
  | cons f above => simp at h

theorem isOver_iff {s : Stack σ} : s.IsOver ↔ s = [] ∨ s.ending?.isSome = true := by
  apply or_congr_right
  rw [Option.isSome_iff_exists, exists_comm]
  exact exists_congr fun ending => ending?_eq_some.symm

instance (s : Stack σ) : Decidable s.IsOver :=
  match s with
  | [] => .isTrue (.inl rfl)
  | f :: rest =>
    decidable_of_iff (Stack.ending? (f :: rest)).isSome <|
      ⟨fun h => isOver_iff.2 (.inr h), fun h => (isOver_iff.1 h).resolve_left (List.cons_ne_nil _ _)⟩

theorem IsOver.claim? {s : Stack σ} (h : s.IsOver) {f : Frame σ} (hf : f ∈ s) :
    f.claim? = none := by
  rcases h with rfl | ⟨id, ending, rfl⟩
  · cases hf
  · obtain rfl := List.mem_singleton.1 hf
    rfl

end Stack

def Phase.ending? : Phase σ → Option Ending
  | .releasing _ ending | .announcing ending | .leaving ending | .parting ending
  | .ended ending => some ending
  | _ => none

def Phase.IsEarly : Phase σ → Prop
  | .entering | .claiming _ => True
  | _ => False

variable [NodeState σ] {r : Registry σ} {p : Policy} {v : NodeId → Ending} {w : World σ}
  {e e' : Engine σ}

theorem Engine.step_of_isOver {s : Stack σ} (h : s.IsOver) : e.step s = none := by
  rcases h with rfl | ⟨id, ending, rfl⟩
  · rfl
  · rw [Engine.step]
    · rfl
    · intro _ _ _ hrest
      cases hrest
    · intro _ _ _ hrest _
      cases hrest

namespace World

theorem Regular.tends (h : w.Regular r p) (hr : r.Functional)
    (hv : ∀ h, w.engine.graph.evaluate r h = v) : w.engine.graph.Tends r v where
  whole := h.sound.whole
  closed := h.sound.closed
  correct := h.truthful.correct hr h.sound h.answers _
  value := hv _

/-- Whether all operations that were started are over. -/
def Quiet (w : World σ) : Prop := ∀ s ∈ w.tasks, s.IsOver

instance (w : World σ) : Decidable w.Quiet := inferInstanceAs (Decidable (∀ s ∈ w.tasks, s.IsOver))

omit [NodeState σ] in
theorem Quiet.not_isClaimed (h : w.Quiet) (hheld : Held w.engine.graph w.frames) (id : NodeId) :
    ¬ w.engine.graph.IsClaimed id := by
  intro hex
  obtain ⟨run, n, hn, hclaimed, -⟩ := hex
  obtain ⟨f, hf, hclaim⟩ := hheld id n hn hclaimed
  obtain ⟨s, hs, hf⟩ := List.mem_flatten.1 hf
  rw [(h s hs).claim? hf] at hclaim
  cases hclaim

theorem stepTask_of_isOver {task : Nat} {s : Stack σ} (hs : w.tasks[task]? = some s)
    (h : s.IsOver) : w.stepTask task = w := by
  rw [stepTask]
  simp only [hs, Engine.step_of_isOver h]

/-! ## One execution and what comes of it -/

/-- The world after some steps of an execution of a node, the task of this number, and of the
tasks that it brought about. All tasks before it are over. -/
structure Underway (r : Registry σ) (p : Policy) (v : NodeId → Ending) (task : Nat) (id : NodeId)
    (w : World σ) : Prop where
  regular : w.Regular r p
  value : ∀ h, w.engine.graph.evaluate r h = v
  before : ∀ j s, j < task → w.tasks[j]? = some s → s.IsOver
  fits : ∀ j s, task ≤ j → w.tasks[j]? = some s → Stack.Fits v w.engine.graph none s
  /-- The outermost level of the task is the execution, which has not been turned away; and
  before it has its node, it is the only one that could have it. -/
  base : ∃ above phase, w.tasks[task]? = some (above ++ [.run id phase]) ∧
    phase.ending? ≠ some (.ok .alreadyRunning) ∧
    (phase.IsEarly → above = [] ∧ w.tasks.length = task + 1 ∧ ¬ w.engine.graph.IsClaimed id)

/-- No task that began with this one or after it is about to write to a fresh node where the
policy propagates equal outputs too, unless that is its only level and it is the last task. -/
def Considerate (task : Nat) (w : World σ) : Prop :=
  ∀ j top rest, task ≤ j → w.tasks[j]? = some (top :: rest) →
    (w.engine.policy.propagateUnchanged = false ∨ top.Novel w.engine.graph) ∨
      rest = [] ∧ w.tasks.length = task + 1

def Careful (task : Nat) (w : World σ) : Prop :=
  ∀ js : List Nat, (js.foldl stepTask w).Considerate task

theorem Careful.foldl {task : Nat} (h : w.Careful task) (steps : List Nat) :
    (steps.foldl stepTask w).Careful task := by
  intro js
  rw [← List.foldl_append]
  exact h (steps ++ js)

namespace Underway

variable {task : Nat} {id : NodeId}

theorem tends (h : w.Underway r p v task id) (hr : r.Functional) : w.engine.graph.Tends r v :=
  h.regular.tends hr h.value

/-- An execution begins on an engine on which everything is over. -/
theorem start (hr : r.Steady) (h : w.Regular r p) (hquiet : w.Quiet)
    (hv : ∀ h, w.engine.graph.evaluate r h = v) (id : NodeId) :
    (w.next (.start id)).Underway r p v w.tasks.length id where
  regular := regular_next hr h rfl rfl
  value := hv
  before j s hj hs := by
    rw [next, List.getElem?_append_left hj] at hs
    exact hquiet s (List.mem_of_getElem? hs)
  fits j s hj hs := by
    rw [next, List.getElem?_append_right hj] at hs
    obtain rfl := List.mem_singleton.1 (List.mem_of_getElem? hs)
    exact ⟨trivial, trivial⟩
  base := by
    refine ⟨[], .entering, ?_, ?_, fun _ => ⟨rfl, ?_, ?_⟩⟩
    · rw [next, List.getElem?_append_right (Nat.le_refl _), Nat.sub_self]
      rfl
    · intro hend
      cases hend
    · rw [next, List.length_append, List.length_singleton]
    · exact hquiet.not_isClaimed h.held id

/-- A step of the task keeps its outermost level, and turns it away only if its node was
claimed. -/
theorem base_turn {above : Stack σ} {phase : Phase σ} {top : Frame σ} {rest new : Stack σ}
    (hstack : top :: rest = above ++ [.run id phase]) (hturn : Turn e top rest e' new)
    (hend : phase.ending? ≠ some (.ok .alreadyRunning))
    (hearly : phase.IsEarly → above = [] ∧ ¬ e.graph.IsClaimed id) :
    ∃ above' phase', new ++ rest = above' ++ [.run id phase'] ∧
      phase'.ending? ≠ some (.ok .alreadyRunning) ∧
      (phase'.IsEarly → above' = [] ∧ phase.IsEarly ∧ e'.graph = e.graph ∧
        e'.scheduled = e.scheduled) := by
  cases above with
  | cons f above =>
    obtain ⟨rfl, rfl⟩ := List.cons.inj hstack
    refine ⟨new ++ above, phase, (List.append_assoc _ _ _).symm, hend, fun he => ?_⟩
    cases (hearly he).1
  | nil =>
    obtain ⟨rfl, rfl⟩ := List.cons.inj hstack
    have hlate : ∀ {phase' : Phase σ}, phase'.ending? ≠ some (.ok .alreadyRunning) →
        ¬ phase'.IsEarly → ∃ above' phase'', [Frame.run id phase'] ++ [] =
          above' ++ [.run id phase''] ∧ phase''.ending? ≠ some (.ok .alreadyRunning) ∧
          (phase''.IsEarly → above' = [] ∧ phase.IsEarly ∧ e'.graph = e.graph ∧
            e'.scheduled = e.scheduled) :=
      fun hend hlate => ⟨[], _, rfl, hend, fun he => absurd he hlate⟩
    cases hturn with
    | enter id rest =>
      exact ⟨[], _, rfl, nofun, fun _ => ⟨rfl, trivial, rfl, rfl⟩⟩
    | claim id run rest n hn hfree => exact hlate nofun fun h => h
    | list id run rest => exact hlate nofun fun h => h
    | pull id run p todo rest =>
      exact ⟨[.run p .entering], _, rfl, nofun, fun he => he.elim⟩
    | block id run rest n d events hn hrun hd hinputs => exact hlate nofun fun h => h
    | begin id run rest n d inputs hn hrun hd hinputs => exact hlate nofun fun h => h
    | finish id run epoch rest n d context outputs hn hrun hclaimed =>
      exact hlate nofun fun h => h
    | fail id run epoch rest d context cause n hn hrun hclaimed =>
      exact hlate nofun fun h => h
    | release id run ending rest => exact hlate hend fun h => h
    | pass top rest e' new hpass =>
      cases hpass with
      | absent id run rest hn => exact hlate nofun fun h => h
      | busy id run rest n hn hclaimed =>
        exact absurd ⟨n.run, n, hn, hclaimed, rfl⟩ (hearly trivial).2
      | quit id run phase rest e' ending hsame hbeat hphase hne hlost =>
        exact hlate (fun h => hne (Option.some.inj h)) fun h => h
      | announce id ending rest | leave id ending rest | part id ending rest =>
        exact hlate hend fun h => h
      | drop id ending rest hrest hbusy => exact absurd rfl hrest

/-- What a step of a task does to the other tasks and to the task. -/
theorem turn (hr : r.Functional) (h : w.Underway r p v task id) (hc : w.Considerate task)
    {j : Nat} (hj : task ≤ j) {top : Frame σ} {rest new : Stack σ}
    (hs : w.tasks[j]? = some (top :: rest)) (hturn : Turn w.engine top rest e new) :
    Graph.Congruent w.engine.graph e.graph ∧
      (w.engine.policy.propagateUnchanged = false ∨ top.Novel w.engine.graph →
        Graph.Advance v top.run? w.engine.graph e.graph) ∧
      Stack.Fits v e.graph none (new ++ rest) := by
  have hsound := h.regular.sound
  obtain ⟨pre, post, hframes, -⟩ := frames_of_getElem? hs
  rw [List.append_assoc, List.cons_append] at hframes
  have hrest : ∀ f ∈ rest, ∀ k, f.run? = some k → top.run? ≠ some k :=
    fun f hf k hk => run?_ne_of_task hsound.distinct hs hf hk
  obtain ⟨hcong, hadvance, hfits⟩ :=
    fits_turn hr (hframes ▸ hsound) (h.tends hr) hrest hturn (h.fits j _ hj hs)
  exact ⟨hcong, hadvance, hfits ((hc j top rest hj hs).imp_right And.left)⟩

/-- The outermost level of the task after a step of any task that is not over. -/
theorem base_stepTask (h : w.Underway r p v task id) {j : Nat} (hj : task ≤ j) {top : Frame σ}
    {rest new : Stack σ} (hs : w.tasks[j]? = some (top :: rest))
    (hturn : Turn w.engine top rest e new) :
    let w' := collect ⟨e, w.tasks.set j (new ++ rest), w.answers ++ top.answer?.toList⟩
    ∃ above phase, w'.tasks[task]? = some (above ++ [.run id phase]) ∧
      phase.ending? ≠ some (.ok .alreadyRunning) ∧ (phase.IsEarly →
        above = [] ∧ w'.tasks.length = task + 1 ∧ ¬ w'.engine.graph.IsClaimed id) := by
  obtain ⟨above, phase, hbase, hend, hearly⟩ := h.base
  by_cases heq : task = j
  · subst heq
    rw [hbase] at hs
    obtain ⟨above', phase', hstack, hend', hearly'⟩ := base_turn
      (Option.some.inj hs).symm hturn hend fun he => ⟨(hearly he).1, (hearly he).2.2⟩
    refine ⟨above', phase', ?_, hend', fun he => ?_⟩
    · rw [getElem?_collect_self hbase, hstack]
    · obtain ⟨habove, he, hgraph, hscheduled⟩ := hearly' he
      obtain ⟨-, hlen, hfree⟩ := hearly he
      refine ⟨habove, ?_, ?_⟩
      · rw [collect, hscheduled, h.regular.collected, List.map_nil, List.append_nil,
          List.length_set, hlen]
      · have hgraph' : (collect ⟨e, w.tasks.set task (new ++ rest),
            w.answers ++ top.answer?.toList⟩).engine.graph = w.engine.graph := hgraph
        rw [hgraph']
        exact hfree
  · refine ⟨above, phase, getElem?_collect_ne hbase heq, hend, fun he => ?_⟩
    -- Before the execution has its node there is no later task that could take a step.
    have hlen := (hearly he).2.1
    have hlt := (List.getElem?_eq_some_iff.1 hs).1
    omega

theorem stepTask (hr : r.Functional) (h : w.Underway r p v task id) (hc : w.Considerate task)
    (j : Nat) : (w.stepTask j).Underway r p v task id := by
  rcases w.stepTask_eq j with heq | ⟨top, rest, e, new, hs, hturn, heq⟩
  · rw [heq]
    exact h
  by_cases hj : j < task
  · rw [stepTask_of_isOver hs (h.before j _ hj hs)]
    exact h
  have hj : task ≤ j := Nat.le_of_not_lt hj
  have hsound := h.regular.sound
  have htends := h.tends hr
  obtain ⟨hcong, hadvance, hnew⟩ := h.turn hr hc hj hs hturn
  have hregular := regular_next hr.steady h.regular (m := .step j) rfl rfl
  rw [next, heq] at hregular
  rw [heq]
  refine ⟨hregular, fun hwf => ?_, fun k s hk hs' => ?_, fun k s hk hs' => ?_,
    h.base_stepTask hj hs hturn⟩
  · rw [← h.value htends.whole.wiring.acyclic]
    exact Graph.evaluate_congr hcong.wiring hcong.states _ _
  · have htask := (List.getElem?_eq_some_iff.1 hs).1
    rcases getElem?_collect hs hs' with ⟨rfl, -⟩ | ⟨-, hs'⟩ | ⟨hlen, -⟩
    · exact absurd hk (Nat.not_lt_of_le hj)
    · exact h.before k s hk hs'
    · omega
  · rcases getElem?_collect hs hs' with ⟨rfl, rfl⟩ | ⟨hkj, hs'⟩ | ⟨-, c, rfl⟩
    · exact hnew
    · have hlast : ¬ w.tasks.length = task + 1 := by
        have hk' := (List.getElem?_eq_some_iff.1 hs').1
        have hj' := (List.getElem?_eq_some_iff.1 hs).1
        omega
      have ha := hadvance ((hc j top rest hj hs).resolve_right fun halone => hlast halone.2)
      apply (h.fits k s hk hs').advance ha htends.isCompleted
      intro f hf run hrun
      exact run?_ne_of_tasks hsound.distinct hkj hs' hs hf List.mem_cons_self hrun
    · exact ⟨trivial, trivial, trivial⟩

/-- Where the policy does not ask for it, nothing is propagated that is equal to what was there. -/
theorem considerate (hp : p.propagateUnchanged = false) (h : w.Underway r p v task id) :
    w.Considerate task := by
  intro j top rest _ _
  rw [h.regular.policy]
  exact .inl (.inl hp)

theorem careful (hr : r.Functional) (hp : p.propagateUnchanged = false)
    (h : w.Underway r p v task id) : w.Careful task := by
  intro js
  induction js generalizing w with
  | nil => exact h.considerate hp
  | cons j rest ih => exact ih (h.stepTask hr (h.considerate hp) j)

theorem steps_of_careful (hr : r.Functional) (h : w.Underway r p v task id)
    (hc : w.Careful task) (js : List Nat) :
    (js.foldl World.stepTask w).Underway r p v task id := by
  induction js generalizing w with
  | nil => exact h
  | cons j rest ih => exact ih (h.stepTask hr (hc []) j) fun js => hc (j :: js)

theorem steps (hr : r.Functional) (hp : p.propagateUnchanged = false) (js : List Nat)
    (h : w.Underway r p v task id) : (js.foldl World.stepTask w).Underway r p v task id :=
  h.steps_of_careful hr (h.careful hr hp) js

theorem getElem?_of_ending? (h : w.Underway r p v task id) {ending : Ending}
    (hend : w.tasks[task]?.bind Stack.ending? = some ending) :
    w.tasks[task]? = some [.run id (.ended ending)] := by
  obtain ⟨s, hs, hend⟩ := Option.bind_eq_some_iff.1 hend
  obtain ⟨m, rfl⟩ := Stack.ending?_eq_some.1 hend
  obtain ⟨above, phase, hbase, -⟩ := h.base
  rw [hs] at hbase
  obtain ⟨rfl, -⟩ := Stack.eq_of_singleton (Option.some.inj hbase)
  exact hs

/-- When the execution ends, it says what the recursion says, and its node is fresh exactly if it
completes. -/
theorem ended (hr : r.Functional) (h : w.Underway r p v task id) {ending : Ending}
    (hend : w.tasks[task]? = some [.run id (.ended ending)]) :
    Ending.Agrees ending (v id) ∧
      (w.engine.graph.isFresh id = true ↔ ∃ outputs, ending = .ok (.completed outputs)) := by
  obtain ⟨above, phase, hbase, hne, -⟩ := h.base
  have hfits := (h.fits task _ (Nat.le_refl _) hend).1
  rw [hend] at hbase
  obtain ⟨-, rfl⟩ := Stack.eq_of_singleton (Option.some.inj hbase)
  obtain ⟨hagrees, hsettled⟩ : Ending.Agrees ending (v id) ∧ w.engine.graph.Settled v id := by
    rcases hfits with ⟨rfl, -⟩ | h
    · exact absurd rfl hne
    · exact h
  refine ⟨hagrees, fun hfresh => ?_, fun hcompleted => ?_⟩
  · exact hagrees.symm.isCompleted ((h.tends hr).isCompleted id hfresh)
  · exact hsettled.resolve_right (not_not_intro (hagrees.isCompleted hcompleted))

end Underway

end World

end Patchbay
