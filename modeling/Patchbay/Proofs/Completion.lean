import Mathlib.Algebra.GroupWithZero.Nat
import Mathlib.Algebra.Order.BigOperators.Group.List
import Mathlib.Algebra.Order.Group.Nat
import Patchbay.Proofs.Waiting

/-!
# Executions come to an end

How many steps are left to a level depends on the feeders of its node alone, since connections
stay as they are while tasks go on: a run executes each of its feeders at most once, and each of
these executions has fewer steps left than the run. Only waits can look again and again; but
each time it is because something else has happened.

What is proved here:
  1. `Turn.less`: every step leaves fewer steps, or it is the step of a wait.
  2. `Underway.exists_ended`: whatever has happened, an execution can come to its end.
-/

namespace Patchbay

variable {σ : Type}

/-- At least as many as the steps of an execution of the node. -/
def Wiring.cost (w : Wiring) (h : WellFounded w.Feeds) (id : NodeId) : Nat :=
  12 + ((w.feeders id).attach.map fun p => w.cost h p.1 + 1).sum
termination_by h.wrap id
decreasing_by exact Wiring.mem_feeders.1 p.2

theorem Wiring.cost_eq (w : Wiring) (h : WellFounded w.Feeds) (id : NodeId) :
    w.cost h id = 12 + ((w.feeders id).map fun p => w.cost h p + 1).sum := by
  rw [cost]
  rw [List.attach_map_val (f := fun p => w.cost h p + 1)]

variable (cost : NodeId → Nat) (beat : Nat)

/-! ## Steps that are left -/

/-- The steps that are left to a run. -/
def Phase.left (id : NodeId) : Phase σ → Nat
  | .entering => cost id
  | .claiming _ => cost id - 1
  | .listing _ => cost id - 2
  | .pulling _ todo => 9 + (todo.map fun p => cost p + 1).sum
  | .computing _ _ _ _ _ => 8
  | .releasing _ _ => 7
  | .announcing _ => 6
  | .leaving _ => 5
  | .parting _ => 4
  | .ended _ => 3

namespace Frame

/-- The steps that are left to a level, not counting those of a wait. -/
def left : Frame σ → Nat
  | .run id phase => phase.left cost id
  | .wait _ _ => 0
  | .errand false => 2
  | .errand true => 1

/-- The steps that a wait has left as long as nothing else happens. -/
def idle : Frame σ → Nat
  | .wait _ .starting => 2
  | .wait _ (.looking seen) => if seen = beat then 1 else 3
  | .wait _ (.parked seen) => if seen = beat then 0 else 2
  | _ => 0

end Frame

namespace Stack

def work (s : Stack σ) : Nat := (s.map (Frame.left cost)).sum

/-- The steps that are left to a task that has begun. -/
def left : Stack σ → Nat
  | [.run _ .entering, .errand false] => 0
  | s => work cost s

/-- The steps that the waits of a task have left as long as nothing else happens. -/
def idle (s : Stack σ) : Nat := (s.map (Frame.idle beat)).sum

variable {cost} {s : Stack σ}

theorem left_le_work : left cost s ≤ work cost s := by
  unfold left
  split
  · exact Nat.zero_le _
  · exact Nat.le_refl _

theorem left_eq_work (h : ∀ c, s ≠ Stack.background c) : left cost s = work cost s := by
  unfold left
  split
  · exact absurd rfl (h _)
  · rfl

theorem work_append (s s' : Stack σ) : work cost (s ++ s') = work cost s + work cost s' := by
  rw [work, List.map_append, List.sum_append, work, work]

theorem work_cons (f : Frame σ) (s : Stack σ) :
    work cost (f :: s) = f.left cost + work cost s := by
  rw [work, List.map_cons, List.sum_cons, work]

theorem idle_append (s s' : Stack σ) : idle beat (s ++ s') = idle beat s + idle beat s' := by
  rw [idle, List.map_append, List.sum_append, idle, idle]

theorem idle_cons (f : Frame σ) (s : Stack σ) : idle beat (f :: s) = f.idle beat + idle beat s := by
  rw [idle, List.map_cons, List.sum_cons, idle]

end Stack

variable {cost beat} [NodeState σ] {e e' : Engine σ} {top : Frame σ} {rest new : Stack σ}

/-- A step that begins nothing leaves fewer steps, or it is the step of a wait. -/
theorem Pass.less (hcost : ∀ id, 12 ≤ cost id) (hpass : Pass e top rest e' new) :
    Stack.work cost new < top.left cost ∨ e' = e ∧ Stack.work cost new ≤ top.left cost ∧
      Stack.idle e.beat new < top.idle e.beat := by
  cases hpass with
  | absent id run rest hn =>
    have h := hcost id
    apply Or.inl
    simp only [Stack.work, Frame.left, Phase.left, List.map_cons, List.map_nil, List.sum_cons,
      List.sum_nil]
    omega
  | busy id run rest n hn hclaimed =>
    have h := hcost id
    apply Or.inl
    simp only [Stack.work, Frame.left, Phase.left, List.map_cons, List.map_nil, List.sum_cons,
      List.sum_nil]
    omega
  | quit id run phase rest e' ending hsame hbeat hphase hne hlost =>
    apply Or.inl
    rcases hphase with rfl | ⟨epoch, d, context, result, rfl⟩
    · simp [Stack.work, Frame.left, Phase.left]
    · simp [Stack.work, Frame.left, Phase.left]
  | announce | leave | part | await | drop | giveUp | forget =>
    apply Or.inl
    simp [Stack.work, Frame.left, Phase.left]
  | look t watch rest hwatch =>
    refine .inr ⟨rfl, Nat.le_refl _, ?_⟩
    rcases hwatch with rfl | ⟨seen, rfl, hseen⟩
    · simp [Stack.idle, Frame.idle]
    · simp [Stack.idle, Frame.idle, Ne.symm hseen]
  | park t seen rest h =>
    refine .inr ⟨rfl, Nat.le_refl _, ?_⟩
    simp only [Stack.idle, Frame.idle, List.map_cons, List.map_nil, List.sum_cons, List.sum_nil]
    split <;> decide
  | arrive t seen rest h =>
    refine .inr ⟨rfl, Nat.le_refl _, ?_⟩
    simp only [Stack.idle, Frame.idle, List.map_nil, List.sum_nil]
    split <;> decide

theorem Turn.less (h : WellFounded e.graph.wiring.Feeds) (hturn : Turn e top rest e' new) :
    Stack.work (e.graph.wiring.cost h) new < top.left (e.graph.wiring.cost h) ∨
      e' = e ∧ Stack.work (e.graph.wiring.cost h) new ≤ top.left (e.graph.wiring.cost h) ∧
        Stack.idle e.beat new < top.idle e.beat := by
  have hcost : ∀ id, 12 ≤ e.graph.wiring.cost h id := fun id => by
    rw [Wiring.cost_eq]
    exact Nat.le_add_right _ _
  cases hturn with
  | enter id rest =>
    have := hcost id
    apply Or.inl
    simp only [Stack.work, Frame.left, Phase.left, List.map_cons, List.map_nil, List.sum_cons,
      List.sum_nil]
    omega
  | claim id run rest n hn hfree =>
    have := hcost id
    apply Or.inl
    simp only [Stack.work, Frame.left, Phase.left, List.map_cons, List.map_nil, List.sum_cons,
      List.sum_nil]
    omega
  | list id run rest =>
    have hsub : ((e.toPull id).map fun p => e.graph.wiring.cost h p + 1).sum ≤
        ((e.graph.wiring.feeders id).map fun p => e.graph.wiring.cost h p + 1).sum :=
      (List.filter_sublist.map _).sum_le_sum fun _ _ => Nat.zero_le _
    have hid := e.graph.wiring.cost_eq h id
    apply Or.inl
    simp only [Stack.work, Frame.left, Phase.left, List.map_cons, List.map_nil, List.sum_cons,
      List.sum_nil]
    omega
  | pull id run p todo rest =>
    apply Or.inl
    simp only [Stack.work, Frame.left, Phase.left, List.map_cons, List.map_nil, List.sum_cons,
      List.sum_nil]
    omega
  | block | begin | finish | fail | release =>
    apply Or.inl
    simp [Stack.work, Frame.left, Phase.left]
  | pass top rest e' new hpass => exact hpass.less hcost

/-! ## All tasks -/

theorem sum_map_set {α : Type} (f : α → Nat) {l : List α} {i : Nat} {a : α}
    (h : l[i]? = some a) (b : α) : ((l.set i b).map f).sum + f a = (l.map f).sum + f b := by
  induction l generalizing i with
  | nil => cases h
  | cons x rest ih =>
    cases i with
    | zero =>
      cases h
      simp only [List.set_cons_zero, List.map_cons, List.sum_cons]
      omega
    | succ i =>
      have hrest := ih (i := i) (by simpa using h)
      simp only [List.set_cons_succ, List.map_cons, List.sum_cons]
      omega

namespace World

variable {r : Registry σ} {p : Policy} {v : NodeId → Ending} {w : World σ} {task : Nat}
  {id : NodeId}

/-- The steps that are left to the tasks that have begun. -/
def left (w : World σ) (cost : NodeId → Nat) : Nat := (w.tasks.map (Stack.left cost)).sum

/-- The steps that the waits have left as long as nothing else happens. -/
def idle (w : World σ) : Nat := (w.tasks.map (Stack.idle w.engine.beat)).sum

omit [NodeState σ] in
theorem sum_collect {f : Stack σ → Nat} (h : ∀ c, f (Stack.background c) = 0) (w : World σ) :
    (w.collect.tasks.map f).sum = (w.tasks.map f).sum := by
  have hnew : ((w.engine.scheduled.map Stack.background).map f).sum = 0 := by
    rw [List.map_map, List.sum_eq_zero_iff_forall_eq_nat]
    intro x hx
    obtain ⟨c, -, rfl⟩ := List.mem_map.1 hx
    exact h c
  rw [collect, List.map_append, List.sum_append, hnew, Nat.add_zero]

omit [NodeState σ] in
theorem left_collect (w : World σ) : w.collect.left cost = w.left cost :=
  sum_collect (fun _ => rfl) w

omit [NodeState σ] in
theorem idle_collect (w : World σ) : w.collect.idle = w.idle :=
  sum_collect (fun _ => rfl) w

/-- A step of a task that has begun leaves fewer steps, or as many and the waits have fewer. -/
theorem stepTask_less {wiring : Wiring} (h : WellFounded wiring.Feeds)
    (hwiring : w.engine.graph.wiring = wiring) {j : Nat} (hj : w.Enabled j) :
    (w.stepTask j).left (wiring.cost h) < w.left (wiring.cost h) ∨
      (w.stepTask j).left (wiring.cost h) ≤ w.left (wiring.cost h) ∧
        (w.stepTask j).idle < w.idle := by
  subst hwiring
  obtain ⟨s, hs, hbegun, hstep⟩ := hj
  obtain ⟨⟨e, s'⟩, hstep⟩ := Option.ne_none_iff_exists'.1 hstep
  obtain ⟨top, rest, new, rfl, rfl, hturn⟩ := Engine.turn_of_step hstep
  have heq : w.stepTask j =
      collect ⟨e, w.tasks.set j (new ++ rest), w.answers ++ top.answer?.toList⟩ := by
    rw [stepTask]
    simp only [hs, hstep]
    rfl
  have hold : Stack.left (w.engine.graph.wiring.cost h) (top :: rest) = _ :=
    Stack.left_eq_work hbegun
  have hnew : Stack.left (w.engine.graph.wiring.cost h) (new ++ rest) ≤ _ := Stack.left_le_work
  have hsum := sum_map_set (Stack.left (w.engine.graph.wiring.cost h)) hs (new ++ rest)
  rw [Stack.work_cons] at hold
  rw [Stack.work_append] at hnew
  rw [heq, left_collect, idle_collect]
  rcases hturn.less h with hless | ⟨rfl, hle, hidle⟩
  · simp only [left]
    omega
  · have hwaits := sum_map_set (Stack.idle w.engine.beat) hs (new ++ rest)
    rw [Stack.idle_append, Stack.idle_cons] at hwaits
    simp only [left, idle]
    omega

/-- If some task can go on as long as the end has not come, then it can come. -/
theorem exists_steps {I : World σ → Prop} (hstep : ∀ w j, I w → I (w.stepTask j))
    (hwf : WellFounded w.engine.graph.wiring.Feeds) (h : I w) (End : World σ → Prop)
    (henabled : ∀ w, I w → ¬ End w → ∃ j, w.Enabled j) :
    ∃ js : List Nat, End (js.foldl World.stepTask w) := by
  obtain ⟨wiring, hwiring⟩ : ∃ wiring, w.engine.graph.wiring = wiring := ⟨_, rfl⟩
  rw [hwiring] at hwf
  -- Along the steps the number of steps left falls, or it stays and that of the waits falls.
  induction hm : (w.left (wiring.cost hwf), w.idle) using
    (Prod.lex Nat.lt_wfRel Nat.lt_wfRel).wf.induction generalizing w with
  | _ m ih =>
    subst hm
    by_cases hend : End w
    · exact ⟨[], hend⟩
    · obtain ⟨j, hj⟩ := henabled w h hend
      have hless : Prod.Lex (· < ·) (· < ·) ((w.stepTask j).left (wiring.cost hwf),
          (w.stepTask j).idle) (w.left (wiring.cost hwf), w.idle) := by
        rcases stepTask_less hwf hwiring hj with hless | ⟨hle, hidle⟩
        · exact .left _ _ hless
        · exact .right' _ hle hidle
      obtain ⟨js, hjs⟩ := ih _ hless (hstep w j h) ((w.wiring_stepTask j).trans hwiring) rfl
      exact ⟨j :: js, hjs⟩

/-- Whatever the tasks have done so far, the execution can come to its end. -/
theorem Underway.exists_ended (hr : r.Functional) (hp : p.propagateUnchanged = false)
    (h : w.Underway r p v task id) (ho : w.Ordered) : ∃ (js : List Nat) (ending : Ending),
      (js.foldl World.stepTask w).tasks[task]? = some [.run id (.ended ending)] := by
  have hstep : ∀ (w : World σ) (j : Nat), w.Underway r p v task id ∧ w.Ordered →
      (w.stepTask j).Underway r p v task id ∧ (w.stepTask j).Ordered :=
    fun w j h => ⟨h.1.stepTask hr (h.1.considerate hp) j, h.2.stepTask j⟩
  obtain ⟨js, hjs⟩ := exists_steps hstep h.regular.sound.whole.wiring.acyclic ⟨h, ho⟩
    (fun w => ∃ ending, w.tasks[task]? = some [.run id (.ended ending)]) fun w h hnot =>
      exists_enabled h.1 h.2 fun ending hend => hnot ⟨ending, hend⟩
  exact ⟨js, hjs⟩

end World

end Patchbay
