import Patchbay.Proofs.Edits
import Patchbay.Proofs.Interleaving

/-!
# Moves

What a move can be, in terms of the engine and of the levels of all tasks: an operation on the
engine, to which tasks are added that have not begun; a step of the innermost level of one task;
or the progress of a computation. Nothing is assumed of the node types here.

What is proved here:
  1. `World.move_cases`: every move is one of the three.
  2. `Invariant.after`: what holds of an engine without nodes, and what every operation and every
     step keeps, holds in every world that can be reached.
-/

namespace Patchbay

variable {σ : Type} [NodeState σ]

/-- What an operation does to the engine, if it does anything. -/
inductive Engine.Performed (e : Engine σ) : Move σ → Engine σ → Prop
  | nothing (m : Move σ) : Performed e m e
  | created (m : Move σ) (e' : Engine σ) (id : NodeId) (state : σ)
    (h : e.createWith id state = .ok e') : Performed e m e'
  | removed (e' : Engine σ) (id : NodeId) (cs : List Connection)
    (h : e.remove id = .ok (e', cs)) : Performed e (.remove id) e'
  | updated (e' : Engine σ) (id : NodeId) (edit : σ → σ) (ids : List NodeId)
    (h : e.update id edit = .ok (e', ids)) : Performed e (.update id edit) e'
  | marked (e' : Engine σ) (id : NodeId) (ids : List NodeId)
    (h : e.markStale id = .ok (e', ids)) : Performed e (.markStale id) e'
  | connected (e' : Engine σ) (source sink : PortRef) (c : Connection)
    (h : e.connect source sink = .ok (e', c)) : Performed e (.connect source sink) e'
  | disconnected (e' : Engine σ) (source sink : PortRef) (c : Connection)
    (h : e.disconnect source sink = .ok (e', c)) : Performed e (.disconnect source sink) e'
  | restored (e' : Engine σ) (s : Snapshot σ) (h : e.restore s = .ok e') :
    Performed e (.restore s) e'

theorem mem_of_mem_modify {α : Type} {l : List α} {k : Nat} {f : α → α} {a : α}
    (h : a ∈ l.modify k f) : a ∈ l ∨ ∃ b, l[k]? = some b ∧ a = f b := by
  obtain ⟨j, hj⟩ := List.mem_iff_getElem?.1 h
  rw [List.getElem?_modify, Option.map_eq_map, Option.map_eq_some_iff] at hj
  obtain ⟨b, hb, rfl⟩ := hj
  split
  · rename_i heq
    exact .inr ⟨b, heq ▸ hb, rfl⟩
  · exact .inl (List.mem_of_getElem? hb)

namespace World

variable {w w' : World σ}

/-- The move is an operation on the engine. The tasks that it brings about have not begun. -/
structure Performs (w : World σ) (m : Move σ) (w' : World σ) : Prop where
  engine : ∃ e, w.engine.Performed m e ∧ e.Same w'.engine
  tasks : ∃ idle : List (Stack σ), (∀ s ∈ idle, ∀ f ∈ s, f.run? = none) ∧
    w'.tasks = w.tasks ++ idle
  answers : w'.answers = w.answers

/-- The move is a step of this level of this task. -/
structure Takes (w : World σ) (task : Nat) (top : Frame σ) (rest : List (Frame σ))
    (e : Engine σ) (new : List (Frame σ)) (w' : World σ) : Prop where
  before : w.tasks[task]? = some (top :: rest)
  step : w.engine.step (top :: rest) = some (e, new ++ rest)
  turn : Turn w.engine top rest e new
  tasks : ∃ idle : List (Stack σ), (∀ s ∈ idle, ∀ f ∈ s, f.run? = none) ∧
    w'.tasks = w.tasks.set task (new ++ rest) ++ idle
  engine : e.Same w'.engine
  log : w'.engine.log = e.log
  answers : w'.answers = w.answers ++ top.answer?.toList

/-- The move is a step of a task, and this is the level that goes on. -/
structure Steps (w : World σ) (pre : List (Frame σ)) (top : Frame σ) (post : List (Frame σ))
    (e : Engine σ) (new : List (Frame σ)) (w' : World σ) : Prop where
  before : w.frames = pre ++ top :: post
  turn : ∃ rest, Turn w.engine top rest e new
  after : ∃ idle, (∀ f ∈ idle, f.run? = none) ∧ w'.frames = pre ++ new ++ post ++ idle
  engine : e.Same w'.engine
  answers : w'.answers = w.answers ++ top.answer?.toList

omit [NodeState σ] in
theorem map_eq_ok {α : Type} {x : Except Error (Engine σ × α)} {e' : Engine σ}
    (h : x.map (·.1) = .ok e') : ∃ a, x = .ok (e', a) := by
  cases x with
  | error err => cases h
  | ok y =>
    cases h
    exact ⟨y.2, rfl⟩

omit [NodeState σ] in
/-- What the engine has scheduled are tasks that have not begun. -/
theorem idle_background (ids : List NodeId) :
    ∀ s ∈ ids.map (Stack.background (σ := σ)), ∀ f ∈ s, f.run? = none := by
  intro s hs
  obtain ⟨id, -, rfl⟩ := List.mem_map.1 hs
  exact List.forall_mem_cons.2 ⟨rfl, List.forall_mem_singleton.2 rfl⟩

omit [NodeState σ] in
theorem idle_flatten {idle : List (Stack σ)} (h : ∀ s ∈ idle, ∀ f ∈ s, f.run? = none) :
    ∀ f ∈ idle.flatten, f.run? = none := by
  intro f hf
  obtain ⟨s, hs, hf⟩ := List.mem_flatten.1 hf
  exact h s hs f hf

theorem Performs.frames {m : Move σ} (h : w.Performs m w') :
    ∃ idle, (∀ f ∈ idle, f.run? = none) ∧ w'.frames = w.frames ++ idle := by
  obtain ⟨idle, hidle, htasks⟩ := h.tasks
  refine ⟨idle.flatten, idle_flatten hidle, ?_⟩
  rw [World.frames, htasks, List.flatten_append, World.frames]

theorem Takes.steps {task : Nat} {top : Frame σ} {rest new : List (Frame σ)} {e : Engine σ}
    (h : w.Takes task top rest e new w') : ∃ pre post, w.Steps pre top post e new w' := by
  obtain ⟨pre, post, hframes, hset⟩ := frames_of_getElem? h.before
  obtain ⟨idle, hidle, htasks⟩ := h.tasks
  refine ⟨pre, rest ++ post, ?_, ⟨rest, h.turn⟩, ⟨idle.flatten, idle_flatten hidle, ?_⟩,
    h.engine, h.answers⟩
  · rw [hframes]
    simp
  · rw [World.frames, htasks, List.flatten_append, hset]
    simp

/-- What a move comes to, with all that the engine keeps count of. -/
inductive Goes (w : World σ) : Move σ → World σ → Prop
  | nothing (m : Move σ) : Goes w m w
  | edited (m : Move σ) (e : Engine σ) (h : w.engine.Performed m e) (hstep : ∀ k, m ≠ .step k) :
    Goes w m (collect { w with engine := e })
  | started (id : NodeId) :
    Goes w (.start id) { w with tasks := w.tasks ++ [Stack.execution id] }
  | waited (t : Target) :
    Goes w (.wait t) { w with tasks := w.tasks ++ [Stack.waiting t] }
  | delivered (task : Nat) (c : Computation) :
    Goes w (.deliver task c) { w with tasks := w.tasks.modify task (Stack.proceed c) }
  | stepped (task : Nat) (top : Frame σ) (rest new : List (Frame σ)) (e : Engine σ)
    (hs : w.tasks[task]? = some (top :: rest))
    (hstep : w.engine.step (top :: rest) = some (e, new ++ rest))
    (hturn : Turn w.engine top rest e new) :
    Goes w (.step task)
      (collect ⟨e, w.tasks.set task (new ++ rest), w.answers ++ top.answer?.toList⟩)

theorem goes_edit {m : Move σ} {result : Except Error (Engine σ)} (hstep : ∀ k, m ≠ .step k)
    (h : ∀ e', result = .ok e' → w.engine.Performed m e') : w.Goes m (w.edit result) := by
  cases result with
  | error err => exact .nothing m
  | ok e => exact .edited m e (h e rfl) hstep

/-- Every move is an operation on the engine, the beginning of a task, the progress of a
computation, or a step of a task. -/
theorem goes_next (w : World σ) (m : Move σ) : w.Goes m (w.next m) := by
  cases m with
  | create id type =>
    refine goes_edit (by simp) fun e he => ?_
    obtain ⟨state, he⟩ := Engine.create_eq_ok he
    exact .created _ e id state he
  | createWith id state => exact goes_edit (by simp) fun e he => .created _ e id state he
  | remove id =>
    refine goes_edit (by simp) fun e he => ?_
    obtain ⟨cs, he⟩ := map_eq_ok he
    exact .removed e id cs he
  | update id edit =>
    refine goes_edit (by simp) fun e he => ?_
    obtain ⟨ids, he⟩ := map_eq_ok he
    exact .updated e id edit ids he
  | markStale id =>
    refine goes_edit (by simp) fun e he => ?_
    obtain ⟨ids, he⟩ := map_eq_ok he
    exact .marked e id ids he
  | connect source sink =>
    refine goes_edit (by simp) fun e he => ?_
    obtain ⟨c, he⟩ := map_eq_ok he
    exact .connected e source sink c he
  | disconnect source sink =>
    refine goes_edit (by simp) fun e he => ?_
    obtain ⟨c, he⟩ := map_eq_ok he
    exact .disconnected e source sink c he
  | restore s => exact goes_edit (by simp) fun e he => .restored e s he
  | start id => exact .started id
  | wait t => exact .waited t
  | deliver task c => exact .delivered task c
  | step task =>
    rw [next, stepTask]
    cases hs : w.tasks[task]? with
    | none => exact .nothing _
    | some s =>
      cases hstep : w.engine.step s with
      | none =>
        simp only [hstep]
        exact .nothing _
      | some x =>
        obtain ⟨e, s'⟩ := x
        obtain ⟨top, rest, new, rfl, rfl, hturn⟩ := Engine.turn_of_step hstep
        simp only [hstep]
        exact .stepped task top rest new e hs hstep hturn

theorem performs_append (m : Move σ) {s : Stack σ} (hs : ∀ f ∈ s, f.run? = none) :
    w.Performs m { w with tasks := w.tasks ++ [s] } :=
  ⟨⟨_, .nothing m, ⟨rfl, rfl, rfl, rfl⟩⟩, ⟨[s], List.forall_mem_singleton.2 hs, rfl⟩, rfl⟩

theorem takes_step (w : World σ) (task : Nat) : w.next (.step task) = w ∨
    ∃ top rest e new, w.Takes task top rest e new (w.next (.step task)) := by
  have hgoes := w.goes_next (.step task)
  generalize w.next (.step task) = w' at hgoes ⊢
  cases hgoes with
  | nothing => exact .inl rfl
  | edited _ e h hnot => exact absurd rfl (hnot task)
  | stepped _ top rest new e hs hstep hturn =>
    refine .inr ⟨top, rest, e, new, hs, hstep, hturn, ?_, ⟨rfl, rfl, rfl, rfl⟩, rfl, rfl⟩
    exact ⟨_, idle_background _, rfl⟩

/-- Every move is an operation on the engine, or a step of a task, or the progress of a
computation. -/
theorem move_cases (w : World σ) (m : Move σ) :
    w.Performs m (w.next m) ∨
      (∃ task top rest e new, m = .step task ∧ w.Takes task top rest e new (w.next m)) ∨
      ∃ task c, m = .deliver task c := by
  have hsame : ∀ e : Engine σ, e.Same { e with scheduled := [] } := fun e => ⟨rfl, rfl, rfl, rfl⟩
  have hgoes := w.goes_next m
  generalize w.next m = w' at hgoes ⊢
  cases hgoes with
  | nothing =>
    exact .inl ⟨⟨_, .nothing m, ⟨rfl, rfl, rfl, rfl⟩⟩, ⟨[], by simp⟩, rfl⟩
  | edited _ e h hstep => exact .inl ⟨⟨e, h, hsame e⟩, ⟨_, idle_background _, rfl⟩, rfl⟩
  | started id => exact .inl (performs_append _ (List.forall_mem_singleton.2 rfl))
  | waited t => exact .inl (performs_append _ (List.forall_mem_singleton.2 rfl))
  | delivered task c => exact .inr (.inr ⟨task, c, rfl⟩)
  | stepped task top rest new e hs hstep hturn =>
    refine .inr (.inl ⟨task, top, rest, e, new, rfl, hs, hstep, hturn, ?_, hsame e, rfl, rfl⟩)
    exact ⟨_, idle_background _, rfl⟩

/-! ## One task -/

omit [NodeState σ] in
theorem getElem?_collect {e : Engine σ} {answers : List (Answer σ)} {j k : Nat} {s s' t : Stack σ}
    (hs : w.tasks[j]? = some s)
    (h : (collect ⟨e, w.tasks.set j t, answers⟩).tasks[k]? = some s') :
    (k = j ∧ s' = t) ∨ (k ≠ j ∧ w.tasks[k]? = some s') ∨
      (w.tasks.length ≤ k ∧ ∃ c, s' = Stack.background c) := by
  have hlt := (List.getElem?_eq_some_iff.1 hs).1
  rw [collect] at h
  by_cases hk : k < w.tasks.length
  · rw [List.getElem?_append_left (by rwa [List.length_set])] at h
    by_cases hkj : k = j
    · subst hkj
      rw [List.getElem?_set_self hlt] at h
      exact .inl ⟨rfl, (Option.some.inj h).symm⟩
    · rw [List.getElem?_set_ne (Ne.symm hkj)] at h
      exact .inr (.inl ⟨hkj, h⟩)
  · rw [List.getElem?_append_right (by rw [List.length_set]; omega)] at h
    obtain ⟨c, -, rfl⟩ := List.mem_map.1 (List.mem_of_getElem? h)
    exact .inr (.inr ⟨by omega, c, rfl⟩)

omit [NodeState σ] in
theorem getElem?_collect_self {e : Engine σ} {answers : List (Answer σ)} {j : Nat} {s t : Stack σ}
    (hs : w.tasks[j]? = some s) :
    (collect ⟨e, w.tasks.set j t, answers⟩).tasks[j]? = some t := by
  have hlt := (List.getElem?_eq_some_iff.1 hs).1
  rw [collect, List.getElem?_append_left (by rwa [List.length_set]),
    List.getElem?_set_self hlt]

omit [NodeState σ] in
theorem getElem?_collect_ne {e : Engine σ} {answers : List (Answer σ)} {j k : Nat} {s t : Stack σ}
    (hs : w.tasks[k]? = some s) (hk : k ≠ j) :
    (collect ⟨e, w.tasks.set j t, answers⟩).tasks[k]? = some s := by
  have hlt := (List.getElem?_eq_some_iff.1 hs).1
  rw [collect, List.getElem?_append_left (by rwa [List.length_set]),
    List.getElem?_set_ne (Ne.symm hk), hs]

/-- What becomes of the engine and of the task when it goes a step further. -/
theorem next_step {task : Nat} {s s' : Stack σ} {e : Engine σ} (hs : w.tasks[task]? = some s)
    (hstep : w.engine.step s = some (e, s')) :
    (w.next (.step task)).engine.graph = e.graph ∧ (w.next (.step task)).engine.log = e.log ∧
      (w.next (.step task)).tasks[task]? = some s' := by
  have heq : w.next (.step task) =
      collect ⟨e, w.tasks.set task s', w.answers ++ (s.head?.bind Frame.answer?).toList⟩ := by
    rw [next, stepTask]
    simp only [hs, hstep]
  rw [heq]
  exact ⟨rfl, rfl, getElem?_collect_self hs⟩

omit [NodeState σ] in
/-- Whatever becomes of the other tasks, a task stays in its place. -/
theorem getElem?_append_of_some {idle : List (Stack σ)} {task : Nat} {s : Stack σ}
    (hs : w.tasks[task]? = some s) : (w.tasks ++ idle)[task]? = some s := by
  rw [List.getElem?_append_left (List.getElem?_eq_some_iff.1 hs).1, hs]

end World

namespace World

variable {w : World σ}

inductive Follows (w : World σ) (task : Nat) (s : Stack σ) : Move σ → Stack σ → Prop
  | same (m : Move σ) : Follows w task s m s
  | delivered (c : Computation) : Follows w task s (.deliver task c) (s.proceed c)
  | stepped (top : Frame σ) (rest new : List (Frame σ)) (e : Engine σ) (hs : s = top :: rest)
    (hstep : w.engine.step s = some (e, new ++ rest)) (hturn : Turn w.engine top rest e new) :
    Follows w task s (.step task) (new ++ rest)

theorem follows_next {task : Nat} {s : Stack σ} (hs : w.tasks[task]? = some s) (m : Move σ) :
    ∃ s', (w.next m).tasks[task]? = some s' ∧ w.Follows task s m s' := by
  have hgoes := w.goes_next m
  generalize w.next m = w' at hgoes ⊢
  cases hgoes with
  | nothing => exact ⟨s, hs, .same m⟩
  | edited _ e h hstep => exact ⟨s, getElem?_append_of_some hs, .same m⟩
  | started id => exact ⟨s, getElem?_append_of_some hs, .same _⟩
  | waited t => exact ⟨s, getElem?_append_of_some hs, .same _⟩
  | delivered j c =>
    by_cases hj : j = task
    · subst hj
      refine ⟨s.proceed c, ?_, .delivered c⟩
      rw [List.getElem?_modify, hs]
      exact congrArg some (if_pos rfl)
    · refine ⟨s, ?_, .same _⟩
      rw [List.getElem?_modify, hs]
      exact congrArg some (if_neg hj)
  | stepped j top rest new e hj hstep hturn =>
    by_cases heq : task = j
    · subst heq
      rw [hs] at hj
      cases hj
      exact ⟨_, getElem?_collect_self hs, .stepped top rest new e rfl hstep hturn⟩
    · exact ⟨s, getElem?_collect_ne hs heq, .same _⟩

theorem tasks_next_step {task : Nat} {s s' : Stack σ} {e : Engine σ}
    (hs : w.tasks[task]? = some s) (hstep : w.engine.step s = some (e, s')) :
    (w.next (.step task)).tasks = w.tasks.set task s' ++ e.scheduled.map Stack.background := by
  rw [next, stepTask]
  simp only [hs, hstep]
  rfl

theorem getElem?_scheduled {task i : Nat} {s s' : Stack σ} {e : Engine σ} {id : NodeId}
    (hs : w.tasks[task]? = some s) (hstep : w.engine.step s = some (e, s'))
    (hid : e.scheduled[i]? = some id) :
    (w.next (.step task)).tasks[w.tasks.length + i]? = some (.background id) := by
  rw [tasks_next_step hs hstep, List.getElem?_append_right (by rw [List.length_set]; omega),
    List.length_set, Nat.add_sub_cancel_left, List.getElem?_map, hid]
  rfl

end World

/-! ## Invariants -/

/-- What holds of an engine with the levels of all tasks on it before anything has happened, and
what nothing that happens changes. -/
structure Invariant (r : Registry σ) (p : Policy)
    (I : Engine σ → List (Frame σ) → Prop) : Prop where
  start : I (.new r p) []
  same : ∀ {e e' : Engine σ} {frames : List (Frame σ)}, I e frames → e.Same e' → I e' frames
  idle : ∀ {e : Engine σ} {frames idle : List (Frame σ)}, I e frames →
    (∀ f ∈ idle, f.run? = none) → I e (frames ++ idle)
  performed : ∀ {e e' : Engine σ} {frames : List (Frame σ)} {m : Move σ}, I e frames →
    e.Performed m e' → I e' frames
  turn : ∀ {e e' : Engine σ} {top : Frame σ} {rest new pre post : List (Frame σ)},
    I e (pre ++ top :: post) → Turn e top rest e' new → I e' (pre ++ new ++ post)
  progress : ∀ {e : Engine σ} {pre post : List (Frame σ)} {id : NodeId} {run epoch : Nat}
    {d : Definition σ} {context : Context σ} {c₀ : Computation} (c : Computation),
    I e (pre ++ .run id (.computing run epoch d context c₀) :: post) →
      I e (pre ++ .run id (.computing run epoch d context c) :: post)

namespace Invariant

variable {r : Registry σ} {p : Policy} {I : Engine σ → List (Frame σ) → Prop} {w : World σ}

theorem next (hI : Invariant r p I) (h : I w.engine w.frames) (m : Move σ) :
    I (w.next m).engine (w.next m).frames := by
  rcases w.move_cases m with hperforms | ⟨task, top, rest, e, new, -, htakes⟩ | ⟨task, c, rfl⟩
  · obtain ⟨e, hperformed, hsame⟩ := hperforms.engine
    obtain ⟨idle, hidle, hframes⟩ := hperforms.frames
    rw [hframes]
    exact hI.idle (hI.same (hI.performed h hperformed) hsame) hidle
  · obtain ⟨pre, post, hsteps⟩ := htakes.steps
    obtain ⟨idle, hidle, hframes⟩ := hsteps.after
    rw [hsteps.before] at h
    rw [hframes]
    exact hI.idle (hI.same (hI.turn h htakes.turn) hsteps.engine) hidle
  · rcases w.frames_deliver task c with heq |
      ⟨pre, id, run, epoch, d, context, c₀, post, hframes, hframes'⟩
    · rw [heq]
      exact h
    · rw [hframes']
      rw [hframes] at h
      exact hI.progress c h

theorem foldl (hI : Invariant r p I) (h : I w.engine w.frames) (moves : List (Move σ)) :
    I (moves.foldl World.next w).engine (moves.foldl World.next w).frames := by
  induction moves generalizing w with
  | nil => exact h
  | cons m rest ih => exact ih (hI.next h m)

/-- An invariant holds in every world that can be reached. -/
theorem after (hI : Invariant r p I) (moves : List (Move σ)) :
    I (World.after r p moves).engine (World.after r p moves).frames :=
  hI.foldl hI.start moves

end Invariant

end Patchbay
