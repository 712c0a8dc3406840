import Patchbay.Proofs.Recomputation
import Patchbay.Proofs.Waking

/-!
# Nobody waits in vain

An execution that finds a node claimed waits until it is not. In the middle of the tasks that
come from one execution no circle of such waits arises, since each level of a task is about a
node that feeds the node of the level below, and no wait goes on when its node is free, since
whoever gives up a node has still to say so.

What is proved here:
  1. `Linked.turn`, `Awake.turn`: the two invariants behind this.
  2. `exists_enabled`: as long as the execution has not ended, some task can go on.
-/

namespace Patchbay

open Relation

variable {σ : Type}

/-! ## The levels of a task are linked -/

namespace Frame

/-- What the level goes for: what it pulls feeds its node. -/
def Aims (w : Wiring) : Frame σ → Prop
  | .run id (.pulling _ todo) => ∀ u ∈ todo, w.Feeds u id
  | .wait .all _ => False
  | _ => True

/-- The node of the one level is upstream of the node of the other. -/
def Above (w : Wiring) (f f' : Frame σ) : Prop :=
  ∀ u v, f.node? = some u → f'.node? = some v → TransGen w.Feeds u v

end Frame

/-- What holds between the levels of a task. -/
structure Stack.Linked (w : Wiring) (s : Stack σ) : Prop where
  aims : ∀ f ∈ s, f.Aims w
  above : s.Pairwise (Frame.Above w)

variable {w : Wiring} {top f : Frame σ} {rest new : Stack σ}

namespace Stack.Linked

theorem of_isOver {s : Stack σ} (h : s.IsOver) : s.Linked w := by
  rcases h with rfl | ⟨id, ending, rfl⟩
  · exact ⟨List.forall_mem_nil _, .nil⟩
  · exact ⟨List.forall_mem_singleton.2 trivial, List.pairwise_singleton _ _⟩

theorem execution (id : NodeId) : (Stack.execution id : Stack σ).Linked w :=
  ⟨List.forall_mem_singleton.2 trivial, List.pairwise_singleton _ _⟩

theorem background (id : NodeId) : (Stack.background id : Stack σ).Linked w := by
  refine ⟨List.forall_mem_cons.2 ⟨trivial, List.forall_mem_singleton.2 trivial⟩, ?_⟩
  apply List.pairwise_pair.2
  intro u v _ hv
  cases hv

theorem pop (h : Stack.Linked w (top :: rest)) : Stack.Linked w rest where
  aims f hf := h.aims f (List.mem_cons_of_mem _ hf)
  above := (List.pairwise_cons.1 h.above).2

/-- The innermost level is replaced by one that is about the same node. -/
theorem replace (h : Stack.Linked w (top :: rest)) (hnode : f.node? = top.node?)
    (haims : f.Aims w) : Stack.Linked w (f :: rest) where
  aims := List.forall_mem_cons.2 ⟨haims, h.pop.aims⟩
  above := by
    refine List.pairwise_cons.2 ⟨fun f' hf' u v hu hv => ?_, h.pop.above⟩
    rw [hnode] at hu
    exact (List.pairwise_cons.1 h.above).1 f' hf' u v hu hv

theorem pull {id p : NodeId} {run : Nat} {todo : List NodeId}
    (h : Stack.Linked w (.run id (.pulling run (p :: todo)) :: rest)) :
    Stack.Linked w (.run p .entering :: .run id (.pulling run todo) :: rest) := by
  have haims := h.aims _ List.mem_cons_self
  have hp : w.Feeds p id := haims p List.mem_cons_self
  have hbelow : Stack.Linked w (.run id (.pulling run todo) :: rest) :=
    h.replace rfl fun u hu => haims u (List.mem_cons_of_mem _ hu)
  refine ⟨List.forall_mem_cons.2 ⟨trivial, hbelow.aims⟩, ?_⟩
  refine List.pairwise_cons.2 ⟨fun f hf u v hu hv => ?_, hbelow.above⟩
  cases hu
  rcases List.mem_cons.1 hf with rfl | hf
  · cases hv
    exact .single hp
  · exact .head hp ((List.pairwise_cons.1 hbelow.above).1 f hf id v rfl hv)

variable [NodeState σ] {e e' : Engine σ}

theorem turn (h : Stack.Linked e.graph.wiring (top :: rest)) (hturn : Turn e top rest e' new) :
    Stack.Linked e.graph.wiring (new ++ rest) := by
  cases hturn with
  | list id run rest =>
    exact h.replace rfl fun u hu => Wiring.mem_feeders.1 (List.mem_filter.1 hu).1
  | pull id run p todo rest => exact h.pull
  | pass top rest e' new hpass =>
    cases hpass with
    | drop id ending rest hrest hend => exact h.pop
    | arrive t seen rest hreached => exact h.pop
    | forget rest => exact h.pop
    | look t watch rest hwatch =>
      have haims := h.aims _ List.mem_cons_self
      cases t with
      | node p => exact h.replace rfl trivial
      | all => exact haims.elim
    | park t seen rest hreached =>
      have haims := h.aims _ List.mem_cons_self
      cases t with
      | node p => exact h.replace rfl trivial
      | all => exact haims.elim
    | _ => exact h.replace rfl trivial
  | _ => exact h.replace rfl trivial

end Stack.Linked

/-! ## Wakes -/

/-- The run on this level has the node, or has still to say that it is free. -/
def Frame.Holds (m : NodeId) (f : Frame σ) : Prop :=
  (∃ run, f.claim? = some (m, run)) ∨ f.Wakes m

theorem Frame.node?_of_holds {f : Frame σ} {m : NodeId} (h : f.Holds m) : f.node? = some m := by
  cases f with
  | run id phase =>
    cases phase <;> rcases h with ⟨run, hclaim⟩ | hwakes <;> first
      | cases hclaim
      | cases hwakes
    all_goals rfl
  | _ => rcases h with ⟨run, hclaim⟩ | hwakes <;> first
      | cases hclaim
      | cases hwakes

/-- A wait that is parked has not missed the end of what it waits for. -/
def Awake (e : Engine σ) (frames : List (Frame σ)) : Prop :=
  ∀ id watch, Frame.wait (.node id) watch ∈ frames → match watch with
    | .starting => True
    | .looking seen => seen ≤ e.beat
    | .parked seen => seen ≤ e.beat ∧ (seen = e.beat →
        e.graph.IsClaimed id ∨ ∃ f ∈ frames, f.Wakes id)

theorem awake_iff {e : Engine σ} {frames : List (Frame σ)} :
    Awake e frames ↔ ∀ id, Attends e frames 0 (.node id) := by
  have hdue : ∀ id, Due e frames 0 (.node id) ↔
      e.graph.IsClaimed id ∨ ∃ f ∈ frames, f.Wakes id := by
    intro id
    simp [Due]
  refine forall_congr' fun id => forall_congr' fun watch => imp_congr_right fun _ => ?_
  cases watch with
  | starting => exact Iff.rfl
  | looking seen => exact Iff.rfl
  | parked seen => exact and_congr_right fun _ => imp_congr_right fun _ => (hdue id).symm

namespace Awake

variable {e e' : Engine σ} {frames pre post idle : List (Frame σ)}

theorem append_idle (h : Awake e frames) (hidle : ∀ f ∈ idle, f.node? = none ∨
    ∃ id, f = .run id .entering) : Awake e (frames ++ idle) := by
  rw [awake_iff] at h ⊢
  intro id
  refine (h id).append fun watch hwait => ?_
  rcases hidle _ hwait with hnone | ⟨m, heq⟩
  · cases hnone
  · cases heq

theorem turn [NodeState σ] (h : Awake e (pre ++ top :: post)) (hturn : Turn e top rest e' new) :
    Awake e' (pre ++ new ++ post) := by
  rw [awake_iff] at h ⊢
  intro id
  exact (h id).turn hturn (Due.turn_node hturn)

end Awake

/-! ## All tasks -/

variable [NodeState σ] {e e' : Engine σ} {pre post : List (Frame σ)} {id : NodeId}

namespace World

/-- The levels of each task are linked, and no wait has missed what it waits for. -/
structure Ordered (w : World σ) : Prop where
  linked : ∀ s ∈ w.tasks, s.Linked w.engine.graph.wiring
  awake : Awake w.engine w.frames

variable {r : Registry σ} {p : Policy} {v : NodeId → Ending} {w : World σ} {task : Nat}

theorem Quiet.ordered (h : w.Quiet) (id : NodeId) :
    (w.next (.start id)).Ordered where
  linked s hs := by
    rcases List.mem_append.1 hs with hs | hs
    · exact .of_isOver (h s hs)
    · obtain rfl := List.mem_singleton.1 hs
      exact .execution id
  awake m watch hwait := by
    obtain ⟨s, hs, hwait⟩ := List.mem_flatten.1 hwait
    rcases List.mem_append.1 hs with hs | hs
    · rcases h s hs with rfl | ⟨m, ending, rfl⟩
      · cases hwait
      · cases List.mem_singleton.1 hwait
    · obtain rfl := List.mem_singleton.1 hs
      cases List.mem_singleton.1 hwait

theorem Ordered.stepTask (ho : w.Ordered) (j : Nat) : (w.stepTask j).Ordered := by
  rcases w.stepTask_eq j with heq | ⟨top, rest, e, new, hs, hturn, heq⟩
  · rw [heq]
    exact ho
  have hwiring := w.wiring_stepTask j
  rw [heq] at hwiring ⊢
  constructor
  · intro s hs'
    rw [hwiring]
    obtain ⟨k, hk⟩ := List.mem_iff_getElem?.1 hs'
    rcases getElem?_collect hs hk with ⟨-, rfl⟩ | ⟨-, hs'⟩ | ⟨-, c, rfl⟩
    · exact (ho.linked _ (List.mem_of_getElem? hs)).turn hturn
    · exact ho.linked s (List.mem_of_getElem? hs')
    · exact .background c
  · obtain ⟨pre, post, hframes, hset⟩ := frames_of_getElem? hs
    have hawake := ho.awake
    rw [hframes, List.append_assoc, List.cons_append] at hawake
    have hturned := hawake.turn hturn
    rw [frames_collect_eq]
    refine Awake.append_idle ?_ fun f hf => ?_
    · rw [frames, hset, ← List.append_assoc, List.append_assoc _ rest post]
      exact hturned
    · obtain ⟨s, hs, hf⟩ := List.mem_flatten.1 hf
      obtain ⟨c, -, rfl⟩ := List.mem_map.1 hs
      simp only [Stack.background, List.mem_cons, List.not_mem_nil, or_false] at hf
      rcases hf with rfl | rfl
      · exact .inr ⟨c, rfl⟩
      · exact .inl rfl

theorem Ordered.steps (hr : r.Functional) (hp : p.propagateUnchanged = false) (js : List Nat)
    (h : w.Underway r p v task id) (ho : w.Ordered) :
    (js.foldl World.stepTask w).Ordered := by
  induction js generalizing w with
  | nil => exact ho
  | cons j rest ih => exact ih (h.stepTask hr (h.considerate hp) j) (ho.stepTask j)

/-! ## Progress -/

def Enabled (w : World σ) (j : Nat) : Prop :=
  ∃ s, w.tasks[j]? = some s ∧ (∀ c, s ≠ Stack.background c) ∧ w.engine.step s ≠ none

end World

theorem Engine.stepRun_eq_none {phase : Phase σ} (h : e.stepRun id phase = none) :
    (∃ ending, phase = .ended ending) ∨ ∃ run epoch d context c,
      phase = .computing run epoch d context c ∧ ∀ result, c ≠ .done result := by
  cases phase with
  | ended ending => exact .inl ⟨ending, rfl⟩
  | computing run epoch d context c =>
    refine .inr ⟨run, epoch, d, context, c, rfl, ?_⟩
    intro result heq
    subst heq
    cases h
  | pulling run todo => cases todo <;> cases h
  | _ => cases h

/-- A task whose computation has come to its end and that cannot go on is over, or waits for a
node. -/
theorem Engine.step_eq_none (hlinked : Stack.Linked e.graph.wiring (f :: rest))
    (hdone : ∀ id run epoch d context c, f = .run id (.computing run epoch d context c) →
      ∃ result, c = .done result) (h : e.step (f :: rest) = none) :
    Stack.IsOver (f :: rest) ∨ ∃ id, f = .wait (.node id) (.parked e.beat) := by
  unfold Engine.step at h
  split at h
  · exact .inl (.inl ‹_›)
  · cases h
  · cases h
  · rename_i id phase rest' hbusy hended heq
    obtain ⟨rfl, rfl⟩ := List.cons.inj heq
    rw [Option.map_eq_none_iff] at h
    rcases stepRun_eq_none h with ⟨ending, rfl⟩ | ⟨run, epoch, d, context, c, rfl, hc⟩
    · cases rest with
      | nil => exact .inl (.inr ⟨id, ending, rfl⟩)
      | cons f' rest => exact (hended _ _ _ rfl rfl).elim
    · obtain ⟨result, rfl⟩ := hdone id run epoch d context c rfl
      exact absurd rfl (hc result)
  · rename_i t watch rest' heq
    obtain ⟨rfl, rfl⟩ := List.cons.inj heq
    rw [Option.map_eq_none_iff] at h
    cases watch with
    | starting => cases h
    | looking seen => cases h
    | parked seen =>
      rw [Engine.stepWait] at h
      split at h
      · rename_i hseen
        subst hseen
        cases t with
        | node id => exact .inr ⟨id, rfl⟩
        | all => exact (hlinked.aims _ List.mem_cons_self).elim
      · cases h
  · cases h
  · cases h

namespace World

variable {r : Registry σ} {p : Policy} {v : NodeId → Ending} {w : World σ} {task : Nat}

/-- A task that has begun, is in order and cannot go on is over, or waits for a node. -/
theorem not_enabled (h : w.Underway r p v task id) (ho : w.Ordered) {j : Nat}
    (hstuck : ¬ w.Enabled j) {f : Frame σ} {rest : Stack σ}
    (hs : w.tasks[j]? = some (f :: rest)) :
    Stack.IsOver (f :: rest) ∨ (∃ c, f :: rest = Stack.background c) ∨
      ∃ id, f = .wait (.node id) (.parked w.engine.beat) := by
  by_cases hj : j < task
  · exact .inl (h.before j _ hj hs)
  by_cases hbackground : ∃ c, f :: rest = Stack.background c
  · exact .inr (.inl hbackground)
  have hnone : w.engine.step (f :: rest) = none := by
    by_contra hstep
    exact hstuck ⟨_, hs, fun c hc => hbackground ⟨c, hc⟩, hstep⟩
  have hlinked := ho.linked _ (List.mem_of_getElem? hs)
  have hfits := (h.fits j _ (Nat.le_of_not_lt hj) hs).1
  refine (Engine.step_eq_none hlinked ?_ hnone).imp_right .inr
  rintro m run epoch d context c rfl
  obtain ⟨-, -, result, hresult, -⟩ := hfits
  exact ⟨result, hresult⟩

omit [NodeState σ] in
/-- If every task holds nothing or waits for a node, none waits for a node: whoever has the node, or
has still to say that it is free, would have to wait for a node upstream of it. -/
theorem Ordered.not_parked (ho : w.Ordered) (hwiring : w.engine.graph.wiring.Sound)
    (hheld : Held w.engine.graph w.frames)
    (hstuck : ∀ s ∈ w.tasks, (∀ f ∈ s, ∀ m, ¬ f.Holds m) ∨
      ∃ u rest, s = Frame.wait (.node u) (.parked w.engine.beat) :: rest) (m : NodeId) :
    ∀ rest, Frame.wait (.node m) (.parked w.engine.beat) :: rest ∉ w.tasks := by
  induction m using hwiring.acyclic.transGen.induction with
  | _ m ih =>
    intro rest hs
    have hwait : Frame.wait (.node m) (.parked w.engine.beat) ∈ w.frames :=
      List.mem_flatten.2 ⟨_, hs, List.mem_cons_self⟩
    obtain ⟨f, hf, hholds⟩ : ∃ f ∈ w.frames, f.Holds m := by
      rcases (ho.awake m _ hwait).2 rfl with ⟨run, n, hn, hclaimed, -⟩ | ⟨f, hf, hwakes⟩
      · obtain ⟨f, hf, hclaim⟩ := hheld m n hn hclaimed
        exact ⟨f, hf, .inl ⟨n.run, hclaim⟩⟩
      · exact ⟨f, hf, .inr hwakes⟩
    obtain ⟨s, hs', hfs⟩ := List.mem_flatten.1 hf
    rcases hstuck s hs' with hnothing | ⟨u, below, rfl⟩
    · exact hnothing f hfs m hholds
    · rcases List.mem_cons.1 hfs with rfl | hfs
      · rcases hholds with ⟨run, hclaim⟩ | hwakes
        · cases hclaim
        · cases hwakes
      · have habove := (List.pairwise_cons.1 (ho.linked _ hs').above).1 f hfs
        exact ih u (habove u m rfl (Frame.node?_of_holds hholds)) below hs'

omit [NodeState σ] in
theorem not_holds_of_isOver {s : Stack σ} (h : s.IsOver) : ∀ f ∈ s, ∀ m, ¬ f.Holds m := by
  rcases h with rfl | ⟨u, ending, rfl⟩
  · exact List.forall_mem_nil _
  · refine List.forall_mem_singleton.2 fun m hholds => ?_
    rcases hholds with ⟨run, hclaim⟩ | hwakes
    · cases hclaim
    · cases hwakes

omit [NodeState σ] in
theorem not_holds_background (c : NodeId) :
    ∀ f ∈ (Stack.background c : Stack σ), ∀ m, ¬ f.Holds m := by
  refine List.forall_mem_cons.2 ⟨fun m hholds => ?_, List.forall_mem_singleton.2 fun m hholds => ?_⟩
  all_goals
    rcases hholds with ⟨run, hclaim⟩ | hwakes
    · cases hclaim
    · cases hwakes

theorem not_parked (h : w.Underway r p v task id) (ho : w.Ordered)
    (hstuck : ∀ j, ¬ w.Enabled j) (m : NodeId) (j : Nat) (rest : Stack σ) :
    w.tasks[j]? ≠ some (Frame.wait (.node m) (.parked w.engine.beat) :: rest) := by
  intro hs
  refine ho.not_parked h.regular.sound.whole.wiring h.regular.held (fun s hs' => ?_) m rest
    (List.mem_of_getElem? hs)
  obtain ⟨k, hk⟩ := List.mem_iff_getElem?.1 hs'
  cases s with
  | nil => exact .inl (List.forall_mem_nil _)
  | cons top below =>
    rcases not_enabled h ho (hstuck k) hk with hover | ⟨c, hc⟩ | ⟨u, rfl⟩
    · exact .inl (not_holds_of_isOver hover)
    · rw [hc]
      exact .inl (not_holds_background c)
    · exact .inr ⟨u, below, rfl⟩

/-- As long as the execution has not ended, some task can go on. -/
theorem exists_enabled (h : w.Underway r p v task id) (ho : w.Ordered)
    (hnot : ∀ ending, w.tasks[task]? ≠ some [.run id (.ended ending)]) : ∃ j, w.Enabled j := by
  by_contra hstuck
  have hstuck : ∀ j, ¬ w.Enabled j := fun j hj => hstuck ⟨j, hj⟩
  obtain ⟨above, phase, hbase, -⟩ := h.base
  cases hstack : above ++ [Frame.run id phase] with
  | nil => simp at hstack
  | cons f rest =>
    rw [hstack] at hbase
    rcases not_enabled h ho (hstuck task) hbase with hover | ⟨c, hc⟩ | ⟨m, rfl⟩
    · rcases hover with hnil | ⟨m, ending, heq⟩
      · cases hnil
      · rw [heq] at hstack hbase
        obtain ⟨rfl, -⟩ := Stack.eq_of_singleton hstack.symm
        exact hnot ending hbase
    · have hlast := congrArg List.getLast? (hstack.trans hc)
      simp [Stack.background] at hlast
    · exact not_parked h ho hstuck m task rest hbase

end World

end Patchbay
