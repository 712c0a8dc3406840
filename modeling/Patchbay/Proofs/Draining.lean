import Patchbay.Proofs.Convergence
import Patchbay.Proofs.Functional
import Patchbay.Proofs.Solo
import Patchbay.Session

/-!
# Queues are emptied

A session works off its queue, first in, first out: a task goes on until it has ended or waits,
and whatever the engine schedules meanwhile goes to the end of the queue. If computations that are
executed on demand come to their results at once, and a result that was written back does not change
what the next computation gives, that comes to an end, whatever the queue is, whatever state the
engine is in and whatever the outcomes of jobs are.

If no run had begun before, at most one has begun at any time. It finds no node claimed: what it
has claimed itself is downstream of what it pulls. So nobody has to wait, and every execution has
an ending.

What is proved here:
  1. `World.exists_stuck`: no interleaving of tasks goes on without end.
  2. `Session.Proper.acc`: nor does a session.
  3. `Session.Serial.advances`: what holds of a session in which one run goes on at a time.
  4. `Session.drains`: if no computation asks for a job, a session comes to its end, and every
     execution to an ending.
-/

namespace Patchbay

open Relation

variable {σ : Type} [NodeState σ] {r : Registry σ}

/-! ## Any interleaving -/

namespace World

variable {w : World σ}

theorem acts_stepTask {task : ℕ} {s s' : Stack σ} {e : Engine σ}
    (hs : w.tasks[task]? = some s) (hstep : w.engine.step s = some (e, s')) :
    Acts (w.engine, w.frames) ((w.stepTask task).engine, (w.stepTask task).frames) := by
  obtain ⟨top, rest, new, rfl, rfl, hturn⟩ := Engine.turn_of_step hstep
  obtain ⟨pre, post, hframes, hset⟩ := frames_of_getElem? hs
  have heq : w.stepTask task =
      collect ⟨e, w.tasks.set task (new ++ rest), w.answers ++ top.answer?.toList⟩ := by
    rw [stepTask]
    simp only [hs, hstep]
    rfl
  refine ⟨top, rest, pre ++ rest ++ post, e, new, ?_, hturn, by rw [heq]; rfl, ?_⟩
  · rw [hframes]
    simp only [List.append_assoc, List.cons_append]
    exact List.perm_middle
  · rw [heq, frames_collect_eq, frames, hset, Engine.errands, List.flatMap_def]
    refine List.Perm.append_right _ ?_
    have hswap : (pre ++ new).Perm (new ++ pre) := List.perm_append_comm
    simpa using hswap.append_right (rest ++ post)

/-- No interleaving goes on without end: in any sequence of tasks one of them cannot go on when
its turn has come. -/
theorem exists_stuck (hr : r.Steady) (hs : r.Settling) (h : Sound r w.engine w.frames)
    (hcollected : w.engine.scheduled = []) (tasks : ℕ → ℕ) :
    ∃ t, ∀ s, (((List.range t).map tasks).foldl stepTask w).tasks[tasks t]? = some s →
      (((List.range t).map tasks).foldl stepTask w).engine.step s = none := by
  have hacc := acc_of_sound hr hs.convergent h hcollected
  generalize hx : (w.engine, w.frames) = x at hacc
  induction hacc generalizing w tasks with
  | intro x hbefore ih =>
    subst hx
    by_cases hstuck : ∀ s, w.tasks[tasks 0]? = some s → w.engine.step s = none
    · exact ⟨0, hstuck⟩
    · push Not at hstuck
      obtain ⟨s, hs, hstep⟩ := hstuck
      obtain ⟨⟨e, s'⟩, hstep⟩ := Option.ne_none_iff_exists'.1 hstep
      have hnext := Happens.precedes (.inl (acts_stepTask hs hstep))
      obtain ⟨t, ht⟩ := ih _ hnext (sound_next hr h (.step (tasks 0)))
        (collected_next hcollected (.step (tasks 0))) (fun t => tasks (t + 1)) rfl
      refine ⟨t + 1, ?_⟩
      rw [List.range_succ_eq_map, List.map_cons, List.map_map, List.foldl_cons]
      exact ht

end World

/-! ## Sessions -/

def Session.frames (s : Session σ) : List (Frame σ) :=
  (s.current.toList ++ s.queue ++ s.parked ++ s.held).flatMap Task.stack

/-- What the next step of a session can be if no computation waits for a permit. -/
inductive Session.Advances (s : Session σ) : Session σ → Prop
  | stepped (t : Task σ) (e : Engine σ) (stack : Stack σ) (ht : s.current = some t)
    (hstep : s.engine.step t.stack = some (e, stack)) :
    Advances s (({ s with current := some { t with stack := stack } }).withEngine e)
  | answered (t : Task σ) (c₀ c : Computation) (ht : s.current = some t)
    (hpending : t.stack.pending? = some c₀) (hfollows : c.Follows c₀) :
    Advances s { s with current := some { t with stack := t.stack.proceed c } }
  | parked (t : Task σ) (seen : Nat) (ht : s.current = some t)
    (hstuck : s.engine.step t.stack = none) (hpending : t.stack.pending? = none)
    (hparked : t.stack.parked? = some seen) :
    Advances s { s with current := none, parked := s.parked ++ [t] }
  | finished (t : Task σ) (ht : s.current = some t) (hstuck : s.engine.step t.stack = none)
    (hpending : t.stack.pending? = none) (hparked : t.stack.parked? = none) :
    Advances s (s.finish t)
  | taken (t : Task σ) (queue : List (Task σ)) (hcurrent : s.current = none)
    (hqueue : s.queue = t :: queue) : Advances s { s with current := some t, queue := queue }

/-- The invariant of a session. Levels of tasks that are over may be left out. -/
structure Session.Proper (r : Registry σ) (s : Session σ) : Prop where
  sound : ∃ past, Sound r s.engine (s.frames ++ past)
  collected : s.engine.scheduled = []

/-- The same, and every computation that is going on is the one that its context gives. -/
structure Session.Orderly (r : Registry σ) (s : Session σ) : Prop extends Session.Proper r s where
  honest : ∀ f ∈ s.frames, f.Honest

namespace Stack

omit [NodeState σ]

variable {s : Stack σ} {c c₀ : Computation}

/-- The computation that the task waits for is that of its innermost level. -/
theorem pending?_eq_some : s.pending? = some c ↔ ∃ id run epoch d context rest,
    s = .run id (.computing run epoch d context c) :: rest ∧ ∀ result, c ≠ .done result := by
  constructor
  · intro h
    unfold pending? at h
    split at h
    · cases h
    · rename_i id run epoch d context c' rest hnot
      cases h
      exact ⟨id, run, epoch, d, context, rest, rfl, hnot⟩
    · cases h
  · rintro ⟨id, run, epoch, d, context, rest, rfl, hc⟩
    cases c with
    | done result => exact absurd rfl (hc result)
    | awaitPermit next => rfl
    | generate request next => rfl

/-- A task whose computation goes on is the same but for that. -/
theorem proceed_of_pending? (h : s.pending? = some c₀) (c : Computation) :
    ∃ id run epoch d context rest, s = .run id (.computing run epoch d context c₀) :: rest ∧
      s.proceed c = .run id (.computing run epoch d context c) :: rest := by
  obtain ⟨id, run, epoch, d, context, rest, rfl, -⟩ := pending?_eq_some.1 h
  exact ⟨id, run, epoch, d, context, rest, rfl, rfl⟩

/-- Where a task waits for nothing that it could be given, its computation has come to its
result. -/
theorem exists_result {id : NodeId} {run epoch : Nat} {d : Definition σ} {context : Context σ}
    {rest : Stack σ}
    (h : Stack.pending? (.run id (.computing run epoch d context c) :: rest) = none) :
    ∃ result, c = .done result := by
  cases c with
  | done result => exact ⟨result, rfl⟩
  | awaitPermit next => cases h
  | generate request next => cases h

end Stack

namespace Session

variable {s s' : Session σ}

omit [NodeState σ] in
theorem frames_collect (s : Session σ) :
    s.collect.frames.Perm (s.frames ++ s.engine.errands) := by
  have hwoken := List.filter_append_perm (fun t : Task σ => t.stack.parked? != some s.engine.beat)
    s.parked
  have htasks : (s.collect.current.toList ++ s.collect.queue ++ s.collect.parked ++
      s.collect.held).Perm (s.current.toList ++ s.queue ++ s.parked ++ s.held ++
        s.engine.scheduled.map (⟨.background, .background ·⟩)) := by
    refine List.Perm.trans ?_ ((((List.Perm.append_left _ hwoken).append_right _)).append_right _)
    simp only [collect, List.append_assoc]
    refine (List.perm_append_left_iff _).2 ((List.perm_append_left_iff _).2 ?_)
    refine List.perm_append_comm.trans ?_
    simp only [List.append_assoc]
    exact .refl _
  refine (htasks.flatMap_right Task.stack).trans ?_
  rw [List.flatMap_append, List.flatMap_map]
  exact .refl _

/-- How far the session is from doing something else than to change tasks. -/
def pace (s : Session σ) : ℕ := 2 * s.queue.length + s.current.toList.length

/-- The levels are those of the task at work, which cannot go on and waits for nothing that it could
be given; or there are none. -/
def Sheds (s : Session σ) (gone : List (Frame σ)) : Prop :=
  gone = [] ∨ ∃ t, s.current = some t ∧ s.engine.step t.stack = none ∧ t.stack.pending? = none ∧
    gone = t.stack

/-- A session goes a step further, or the task at work is given the outcome of a job, or the session
changes tasks. -/
theorem Advances.cases (h : s.Advances s') :
    Acts (s.engine, s.frames) (s'.engine, s'.frames) ∨
      (Responds (s.engine, s.frames) (s'.engine, s'.frames) ∧
        ∃ t c₀, s.current = some t ∧ t.stack.pending? = some c₀) ∨
      s'.engine = s.engine ∧ s'.pace < s.pace ∧
        ∃ gone, s.Sheds gone ∧ s.frames.Perm (s'.frames ++ gone) := by
  cases h with
  | stepped t e stack ht hstep =>
    obtain ⟨top, rest, new, hstack, rfl, hturn⟩ := Engine.turn_of_step hstep
    refine .inl ⟨top, rest, rest ++ (s.queue ++ s.parked ++ s.held).flatMap Task.stack, e, new,
      ?_, hturn, rfl, ?_⟩
    · simp [frames, ht, hstack]
    · refine (frames_collect _).trans ?_
      simp [frames]
  | answered t c₀ c ht hpending hfollows =>
    obtain ⟨id, run, epoch, d, context, rest, hstack, -⟩ := Stack.pending?_eq_some.1 hpending
    refine .inr (.inl ⟨⟨rfl, id, run, epoch, d, context, c₀, c,
      rest ++ (s.queue ++ s.parked ++ s.held).flatMap Task.stack, hfollows, ?_, ?_⟩, t, c₀, ht,
      hpending⟩)
    · simp [frames, ht, hstack]
    · simp [frames, hstack, Stack.proceed]
  | parked t seen ht hstuck hpending hparked =>
    refine .inr (.inr ⟨rfl, by simp [pace, ht], [], .inl rfl, ?_⟩)
    rw [List.append_nil]
    refine List.Perm.flatMap_right _ ?_
    simp only [ht, Option.toList_some, Option.toList_none, List.append_assoc, List.cons_append,
      List.nil_append]
    rw [← List.append_assoc, ← List.append_assoc]
    exact List.perm_middle.symm
  | finished t ht hstuck hpending hparked =>
    refine .inr (.inr ⟨rfl, by simp [pace, finish, ht], t.stack,
      .inr ⟨t, ht, hstuck, hpending, rfl⟩, ?_⟩)
    simp only [frames, finish, ht, Option.toList_some, Option.toList_none, List.cons_append,
      List.nil_append, List.flatMap_cons, List.append_assoc]
    exact List.perm_append_comm
  | taken t queue hcurrent hqueue =>
    refine .inr (.inr ⟨rfl, ?_, [], .inl rfl, ?_⟩)
    · simp only [pace, hcurrent, hqueue, Option.toList_some, Option.toList_none, List.length_cons,
        List.length_nil]
      omega
    · simp [frames, hcurrent, hqueue]

/-- What happens to the tasks happens whatever tasks are over. -/
theorem Advances.happens (h : s.Advances s') :
    (∀ past, Happens (s.engine, s.frames ++ past) (s'.engine, s'.frames ++ past)) ∨
      s'.engine = s.engine ∧ s'.pace < s.pace ∧
        ∃ gone, s.Sheds gone ∧ s.frames.Perm (s'.frames ++ gone) := by
  rcases h.cases with hacts | ⟨hresponds, -⟩ | hchange
  · exact .inl fun past => .inl (hacts.append past)
  · exact .inl fun past => .inr (hresponds.append past)
  · exact .inr hchange

theorem Proper.advances (h : s.Proper r) (hr : r.Steady) (hadvances : s.Advances s') :
    s'.Proper r := by
  obtain ⟨past, hsound⟩ := h.sound
  have hcollected : s'.engine.scheduled = [] := by
    cases hadvances <;> first | rfl | exact h.collected
  rcases hadvances.happens with hnext | ⟨hengine, -, gone, -, hperm⟩
  · exact ⟨⟨past, (hnext past).precedes.sound hr hsound⟩, hcollected⟩
  · refine ⟨⟨gone ++ past, ?_⟩, hcollected⟩
    rw [hengine, ← List.append_assoc]
    exact hsound.perm (hperm.append_right past)

theorem Proper.acc (hr : r.Steady) (hs : r.Convergent) (h : s.Proper r) :
    Acc (fun s' s => s.Advances s') s := by
  obtain ⟨past, hsound⟩ := h.sound
  have hacc := acc_of_sound hr hs hsound h.collected
  suffices hall : ∀ x, Acc (fun y x => Precedes x y) x → ∀ (s : Session σ) past,
      x.1 = s.engine → x.2.Perm (s.frames ++ past) → Acc (fun s' s => s.Advances s') s from
    hall _ hacc s past rfl (.refl _)
  -- Between two steps of tasks there are finitely many changes of tasks.
  intro x hacc
  induction hacc with
  | intro x hbefore ih =>
    intro s past hengine hperm
    induction hpace : s.pace using Nat.strong_induction_on generalizing s past with
    | _ pace ihpace =>
      refine ⟨s, fun s' hadvances => ?_⟩
      rcases hadvances.happens with hnext | ⟨hengine', hless, gone, -, hperm'⟩
      · refine ih (s'.engine, s'.frames ++ past) ?_ s' past rfl (.refl _)
        obtain ⟨e, frames⟩ := x
        cases hengine
        exact (hnext past).precedes.perm hperm
      · refine ihpace _ (hpace ▸ hless) s' (gone ++ past) (hengine.trans hengine'.symm) ?_ rfl
        rw [← List.append_assoc]
        exact hperm.trans (hperm'.append_right past)

omit [NodeState σ] in
theorem mem_frames_of_current {t : Task σ} (ht : s.current = some t) {f : Frame σ}
    (hf : f ∈ t.stack) : f ∈ s.frames :=
  List.mem_flatMap.2 ⟨t, by simp [ht], hf⟩

theorem Orderly.exists_result (h : s.Orderly r) (hs : r.Settling) {id : NodeId}
    {run epoch : Nat} {d : Definition σ} {context : Context σ} {c : Computation}
    (hf : .run id (.computing run epoch d context c) ∈ s.frames) : ∃ result, c = .done result := by
  obtain ⟨past, hsound⟩ := h.sound
  obtain ⟨-, hd, -⟩ := hsound.begun _ (List.mem_append_left _ hf)
  have hc : c = d.compute context := h.honest _ hf
  obtain ⟨result, hresult⟩ := hs.total d context hd
  exact ⟨result, hc.trans hresult⟩

theorem Orderly.pending? (h : s.Orderly r) (hs : r.Settling) {t : Task σ}
    (ht : s.current = some t) : t.stack.pending? = none := by
  rw [Option.eq_none_iff_forall_ne_some]
  intro c hc
  obtain ⟨id, run, epoch, d, context, rest, hstack, hnot⟩ := Stack.pending?_eq_some.1 hc
  have hmem : Frame.run id (.computing run epoch d context c) ∈ t.stack :=
    hstack ▸ List.mem_cons_self
  obtain ⟨result, rfl⟩ := h.exists_result hs (mem_frames_of_current ht hmem)
  exact hnot result rfl

theorem Orderly.advances (h : s.Orderly r) (hr : r.Steady) (hs : r.Settling)
    (hadvances : s.Advances s') : s'.Orderly r := by
  refine ⟨h.toProper.advances hr hadvances, fun f hf => ?_⟩
  rcases hadvances.cases with ⟨top, _, post, written, _, hbefore, hturn, -, hafter⟩ |
    ⟨-, t, c₀, ht, hpending⟩ | ⟨-, -, gone, -, hperm⟩
  · rcases List.mem_append.1 (hafter.mem_iff.1 hf) with hf | hf
    · rcases List.mem_append.1 hf with hf | hf
      · exact honest_turn hturn f hf
      · exact h.honest f (hbefore.mem_iff.2 (List.mem_cons_of_mem _ hf))
    · exact Frame.honest_of_idle (Engine.idle_errands f hf)
  · rw [h.pending? hs ht] at hpending
    cases hpending
  · exact h.honest f (hperm.mem_iff.2 (List.mem_append_left _ hf))

variable {m : Type → Type} [Monad m] (provider : Generation.Provider m)

/-- A task at work takes no part in anything outside of the session. -/
theorem Orderly.stepTask (h : s.Orderly r) (hs : r.Settling) {t : Task σ}
    (ht : s.current = some t) :
    ∃ s', s.Advances s' ∧ s.stepTask provider t = (pure s' : m (Session σ)) := by
  unfold Session.stepTask
  cases hstep : s.engine.step t.stack with
  | some x => exact ⟨_, .stepped t x.1 x.2 ht hstep, rfl⟩
  | none =>
    have hpending := h.pending? hs ht
    rw [hpending]
    cases hparked : t.stack.parked? with
    | some seen => exact ⟨_, .parked t seen ht hstep hpending hparked, rfl⟩
    | none => exact ⟨_, .finished t ht hstep hpending hparked, rfl⟩

theorem Orderly.step? (h : s.Orderly r) (hs : r.Settling) :
    s.step? provider = none ∧ s.current = none ∧ s.queue = [] ∨
      ∃ s', s.Advances s' ∧ s.step? provider = some (pure s' : m (Session σ)) := by
  unfold Session.step?
  cases ht : s.current with
  | some t =>
    obtain ⟨s', hadvances, heq⟩ := h.stepTask provider hs ht
    exact .inr ⟨s', hadvances, congrArg some heq⟩
  | none =>
    cases hqueue : s.queue with
    | nil => exact .inl ⟨rfl, rfl, rfl⟩
    | cons t queue => exact .inr ⟨_, .taken t queue ht hqueue, rfl⟩

variable [LawfulMonad m]

/-- A session comes to the end of its queue, and what every step keeps holds there. -/
theorem Orderly.exists_drain (hr : r.Steady) (hs : r.Settling) (h : s.Orderly r)
    {P : Session σ → Prop} (hP : ∀ s s', s.Orderly r → P s → s.Advances s' → P s') (hstart : P s) :
    ∃ fuel s', drain provider fuel s = (pure s' : m (Session σ)) ∧ s'.current = none ∧
      s'.queue = [] ∧ P s' := by
  induction h.toProper.acc hr hs.convergent with
  | intro s _ ih =>
    rcases h.step? provider hs with ⟨hnone, hcurrent, hqueue⟩ | ⟨s₁, hadvances, hstep⟩
    · exact ⟨0, s, rfl, hcurrent, hqueue, hstart⟩
    · obtain ⟨fuel, s', hdrain, hend⟩ := ih s₁ hadvances (h.advances hr hs hadvances)
        (hP s s₁ h hstart hadvances)
      refine ⟨fuel + 1, s', ?_, hend⟩
      rw [drain, hstep]
      simpa using hdrain

/-- A task at work comes to its end, or to a wait, and what every step of it keeps holds there. -/
theorem Orderly.exists_work (hr : r.Steady) (hs : r.Settling) (h : s.Orderly r)
    {P : Session σ → Prop}
    (hP : ∀ s s', s.Orderly r → P s → s.current ≠ none → s.Advances s' → P s') (hstart : P s) :
    ∃ fuel s', work provider fuel s = (pure s' : m (Session σ)) ∧ s'.current = none ∧ P s' := by
  induction h.toProper.acc hr hs.convergent with
  | intro s _ ih =>
    cases hcurrent : s.current with
    | none => exact ⟨0, s, rfl, hcurrent, hstart⟩
    | some t =>
      obtain ⟨s₁, hadvances, hstep⟩ := h.stepTask provider hs hcurrent
      obtain ⟨fuel, s', hwork, hend⟩ := ih s₁ hadvances (h.advances hr hs hadvances)
        (hP s s₁ h hstart (by rw [hcurrent]; exact Option.some_ne_none t) hadvances)
      refine ⟨fuel + 1, s', ?_, hend⟩
      rw [work, hcurrent]
      simpa [hstep] using hwork

end Session

/-! ## One run at a time -/

/-- The level is no wait, and its run has not found its node claimed. -/
def Frame.Unhindered : Frame σ → Prop
  | .run _ phase => phase.ending? ≠ some (.ok .alreadyRunning)
  | .wait _ _ => False
  | .errand _ => True

/-- Whether the task is over, or an execution that has not begun. -/
def Stack.isResting : Stack σ → Bool
  | [] | [.run _ (.ended _)] | [.run _ .entering] | [.run _ .entering, .errand false] => true
  | _ => false

/-- The task is over, or its levels are linked and nobody has been in its way. -/
def Stack.Smooth (w : Wiring) (s : Stack σ) : Prop :=
  s.IsOver ∨ s.Linked w ∧ ∀ f ∈ s, f.Unhindered

omit [NodeState σ] in
theorem Stack.smooth_of_isResting {s : Stack σ} (h : s.isResting = true) (w : Wiring) :
    s.Smooth w := by
  unfold isResting at h
  split at h
  · exact .inl (.inl rfl)
  · exact .inl (.inr ⟨_, _, rfl⟩)
  · exact .inr ⟨.execution _, List.forall_mem_singleton.2 nofun⟩
  · exact .inr ⟨.background _, List.forall_mem_cons.2 ⟨nofun, List.forall_mem_singleton.2 trivial⟩⟩
  · cases h

section

variable {e e' : Engine σ} {top : Frame σ} {rest new : Stack σ}

/-- As long as no run comes to a node that is claimed, nobody is in its way. -/
theorem Frame.unhindered_turn (h : top.Unhindered) (hturn : Turn e top rest e' new)
    (hfree : ∀ id run, top = .run id (.claiming run) → ¬ e.graph.IsClaimed id) :
    ∀ f ∈ new, f.Unhindered := by
  cases hturn with
  | pull id run p todo rest =>
    exact List.forall_mem_cons.2 ⟨nofun, List.forall_mem_singleton.2 nofun⟩
  | release id run ending rest => exact List.forall_mem_singleton.2 h
  | pass top rest e' new hpass =>
    cases hpass with
    | busy id run rest n hn hclaimed =>
      exact absurd ⟨n.run, n, hn, hclaimed, rfl⟩ (hfree id run rfl)
    | quit id run phase rest e' ending hsame hbeat hphase hend =>
      exact List.forall_mem_singleton.2 fun heq => hend (Option.some.inj heq)
    | announce | leave | part => exact List.forall_mem_singleton.2 h
    | await => exact absurd rfl h
    | drop | forget => exact List.forall_mem_nil _
    | look | park | arrive => exact h.elim
    | giveUp => exact List.forall_mem_singleton.2 trivial
    | absent => exact List.forall_mem_singleton.2 nofun
  | _ => exact List.forall_mem_singleton.2 nofun

/-- An execution that nobody is in the way of consists of runs until it has ended. -/
theorem Frame.runs_turn (h : top.Unhindered) (hrun : top.runs?.isSome)
    (hturn : Turn e top rest e' new) :
    (∀ f ∈ new, f.runs?.isSome) ∧ (new = [] → rest ≠ []) := by
  cases hturn with
  | pull id run p todo rest =>
    exact ⟨List.forall_mem_cons.2 ⟨rfl, List.forall_mem_singleton.2 rfl⟩, nofun⟩
  | pass top rest e' new hpass =>
    cases hpass with
    | await => exact absurd rfl h
    | drop id ending rest hrest hend => exact ⟨List.forall_mem_nil _, fun _ => hrest⟩
    | look | park | arrive | giveUp | forget => cases hrun
    | _ => exact ⟨List.forall_mem_singleton.2 rfl, nofun⟩
  | _ => exact ⟨List.forall_mem_singleton.2 rfl, nofun⟩

end

omit [NodeState σ] in
/-- If all claims are those of one task, its innermost run finds its node free: what the task has
claimed is downstream of what it comes to. -/
theorem Held.not_isClaimed {g : Graph σ} {id : NodeId} {run : Nat} {rest : Stack σ}
    (h : Held g (.run id (.claiming run) :: rest)) (hw : g.wiring.Sound)
    (hlinked : Stack.Linked g.wiring (.run id (.claiming run) :: rest)) : ¬ g.IsClaimed id := by
  rintro ⟨k, n, hn, hclaimed, -⟩
  obtain ⟨f, hf, hclaim⟩ := h id n hn hclaimed
  rcases List.mem_cons.1 hf with rfl | hf
  · cases hclaim
  · have hnode := Frame.node?_of_holds (.inl ⟨n.run, hclaim⟩)
    have hcircle := (List.pairwise_cons.1 hlinked.above).1 f hf id id rfl hnode
    exact hw.acyclic.transGen.irrefl.irrefl id hcircle

/-- At most one run has begun, the one at work: nobody else has claimed a node, and nobody
waits. -/
structure Session.Serial (s : Session σ) : Prop where
  parked : s.parked = []
  held : s.held = []
  queue : ∀ t ∈ s.queue, t.stack.isResting = true
  current : ∀ t, s.current = some t → t.stack.Smooth s.engine.graph.wiring
  holders : Held s.engine.graph (s.current.toList.flatMap Task.stack)

namespace Session

variable {s s' : Session σ}

/-- A task at work that waits for nothing that it could be given and cannot go on is over. -/
theorem Serial.isOver (h : s.Serial) {t : Task σ} (ht : s.current = some t)
    (hstuck : s.engine.step t.stack = none) (hpending : t.stack.pending? = none) :
    t.stack.IsOver := by
  rcases h.current t ht with hover | ⟨hlinked, hunhindered⟩
  · exact hover
  · cases hstack : t.stack with
    | nil => exact .inl rfl
    | cons f rest =>
      rw [hstack] at hlinked hstuck hunhindered hpending
      refine (Engine.step_eq_none hlinked ?_ hstuck).resolve_right ?_
      · rintro id run epoch d context c rfl
        exact Stack.exists_result hpending
      · rintro ⟨id, rfl⟩
        exact hunhindered _ List.mem_cons_self

omit [NodeState σ] in
theorem Serial.held_current (h : s.Serial) {t : Task σ} (ht : s.current = some t) :
    Held s.engine.graph t.stack := by
  have hholders := h.holders
  rwa [ht, Option.toList_some, List.flatMap_singleton] at hholders

/-- A step of the task at work: it still goes on smoothly, and what is claimed is claimed by it. -/
theorem Serial.step (h : s.Serial) (hp : s.Proper r) {t : Task σ} (ht : s.current = some t)
    {e : Engine σ} {stack : Stack σ} (hstep : s.engine.step t.stack = some (e, stack)) :
    stack.Smooth e.graph.wiring ∧ Held e.graph stack := by
  obtain ⟨past, hsound⟩ := hp.sound
  have hheld := h.held_current ht
  rcases h.current t ht with hover | ⟨hlinked, hunhindered⟩
  · rw [Engine.step_of_isOver hover] at hstep
    cases hstep
  obtain ⟨top, rest, new, hstack, rfl, hturn⟩ := Engine.turn_of_step hstep
  rw [hstack] at hheld hlinked hunhindered
  obtain ⟨htop, hrest⟩ := List.forall_mem_cons.1 hunhindered
  have hfree : ∀ id run, top = .run id (.claiming run) → ¬ s.engine.graph.IsClaimed id := by
    rintro id run rfl
    exact hheld.not_isClaimed hsound.whole.wiring hlinked
  constructor
  · refine .inr ⟨?_, List.forall_mem_append.2 ⟨Frame.unhindered_turn htop hturn hfree, hrest⟩⟩
    rw [Engine.wiring_turn hturn]
    exact hlinked.turn hturn
  · have hbefore : Held s.engine.graph ([] ++ top :: rest) := hheld
    exact hbefore.turn hturn

omit [NodeState σ] in
theorem Serial.proceed (h : s.Serial) {t : Task σ} (ht : s.current = some t) {c₀ : Computation}
    (hpending : t.stack.pending? = some c₀) (c : Computation) :
    (t.stack.proceed c).Smooth s.engine.graph.wiring ∧
      Held s.engine.graph (t.stack.proceed c) := by
  have hheld := h.held_current ht
  obtain ⟨id, run, epoch, d, context, rest, hstack, hproceed⟩ :=
    Stack.proceed_of_pending? hpending c
  rw [hproceed]
  rw [hstack] at hheld
  constructor
  · rcases h.current t ht with (hnil | ⟨_, _, hended⟩) | ⟨hlinked, hunhindered⟩
    · cases hstack.symm.trans hnil
    · cases hstack.symm.trans hended
    · rw [hstack] at hlinked hunhindered
      exact .inr ⟨hlinked.replace rfl trivial,
        List.forall_mem_cons.2 ⟨nofun, (List.forall_mem_cons.1 hunhindered).2⟩⟩
  · have hbefore : Held s.engine.graph
        ([] ++ .run id (.computing run epoch d context c₀) :: rest) := hheld
    have hkept : Held s.engine.graph ([] ++ [.run id (.computing run epoch d context c)] ++ rest) :=
      hbefore.keep fun k hk => ⟨_, List.mem_cons_self, hk⟩
    exact hkept

/-- The task at work does not wait for the end of another run. -/
theorem Serial.not_parked (h : s.Serial) {t : Task σ} (ht : s.current = some t)
    (hstuck : s.engine.step t.stack = none) (hpending : t.stack.pending? = none) :
    t.stack.parked? = none := by
  rcases h.isOver ht hstuck hpending with hnil | ⟨id, ending, hended⟩
  · rw [hnil]
    rfl
  · rw [hended]
    rfl

theorem Serial.advances (h : s.Serial) (hp : s.Proper r) (hadvances : s.Advances s') :
    s'.Serial := by
  cases hadvances with
  | stepped t e stack ht hstep =>
    obtain ⟨hsmooth, hheld⟩ := h.step hp ht hstep
    refine ⟨?_, h.held, fun t' ht' => ?_, fun t' ht' => ?_, ?_⟩
    · simp [withEngine, collect, h.parked]
    · simp only [withEngine, collect, h.parked, List.filter_nil, List.append_nil,
        List.mem_append, List.mem_map] at ht'
      rcases ht' with ht' | ⟨id, -, rfl⟩
      · exact h.queue t' ht'
      · rfl
    · cases ht'
      exact hsmooth
    · simpa [withEngine, collect] using hheld
  | answered t c₀ c ht hpending hfollows =>
    obtain ⟨hsmooth, hheld⟩ := h.proceed ht hpending c
    refine ⟨h.parked, h.held, h.queue, fun t' ht' => ?_, ?_⟩
    · cases ht'
      exact hsmooth
    · rw [Option.toList_some, List.flatMap_singleton]
      exact hheld
  | parked t seen ht hstuck hpending hparked =>
    rw [h.not_parked ht hstuck hpending] at hparked
    cases hparked
  | finished t ht hstuck hpending hparked =>
    refine ⟨h.parked, h.held, h.queue, nofun, fun id n hn hclaimed => ?_⟩
    obtain ⟨f, hf, hclaim⟩ := h.held_current ht id n hn hclaimed
    rw [(h.isOver ht hstuck hpending).claim? hf] at hclaim
    cases hclaim
  | taken t queue hcurrent hqueue =>
    have hresting := h.queue
    rw [hqueue] at hresting
    obtain ⟨ht, hrest⟩ := List.forall_mem_cons.1 hresting
    refine ⟨h.parked, h.held, hrest, fun t' ht' => ?_, h.holders.mono ?_⟩
    · cases ht'
      exact Stack.smooth_of_isResting ht _
    · rw [hcurrent]
      exact List.forall_mem_nil _

/-- The execution at work is nobody's but the one who waits for it, and it has not ended; or it has,
and its ending is the last one that was recorded. -/
def Executing (before : List (Owner × Finish)) (s : Session σ) : Prop :=
  (∃ t, s.current = some t ∧ t.owner = .foreground ∧ t.stack ≠ [] ∧
      (∀ f ∈ t.stack, f.runs?.isSome) ∧ s.ended = before) ∨
    s.current = none ∧ ∃ ending, s.ended = before ++ [(.foreground, some ending)]

theorem Executing.advances {before : List (Owner × Finish)} (h : s.Executing before)
    (hserial : s.Serial) (hcurrent : s.current ≠ none) (hadvances : s.Advances s') :
    s'.Executing before := by
  obtain ⟨t, ht, howner, hne, hruns, hended⟩ := h.resolve_right fun h => hcurrent h.1
  cases hadvances with
  | stepped t' e stack ht' hstep =>
    rw [ht] at ht'
    cases ht'
    rcases hserial.current t ht with hover | ⟨-, hunhindered⟩
    · rw [Engine.step_of_isOver hover] at hstep
      cases hstep
    obtain ⟨top, rest, new, hstack, rfl, hturn⟩ := Engine.turn_of_step hstep
    rw [hstack] at hunhindered hruns
    obtain ⟨htop, hrest⟩ := List.forall_mem_cons.1 hruns
    obtain ⟨hnew, hnonempty⟩ :=
      Frame.runs_turn (hunhindered top List.mem_cons_self) htop hturn
    refine .inl ⟨_, rfl, howner, fun hnil => ?_, List.forall_mem_append.2 ⟨hnew, hrest⟩, hended⟩
    obtain ⟨hnil, hrest⟩ := List.append_eq_nil_iff.1 hnil
    exact hnonempty hnil hrest
  | answered t' c₀ c ht' hpending hfollows =>
    rw [ht] at ht'
    cases ht'
    obtain ⟨id, run, epoch, d, context, rest, hstack, hproceed⟩ :=
      Stack.proceed_of_pending? hpending c
    rw [hstack] at hruns
    refine .inl ⟨_, rfl, howner, ?_, ?_, hended⟩
    · show t.stack.proceed c ≠ []
      rw [hproceed]
      exact List.cons_ne_nil _ _
    · show ∀ f ∈ t.stack.proceed c, f.runs?.isSome
      rw [hproceed]
      exact List.forall_mem_cons.2 ⟨rfl, (List.forall_mem_cons.1 hruns).2⟩
  | parked t' seen ht' hstuck hpending hparked =>
    rw [hserial.not_parked ht' hstuck hpending] at hparked
    cases hparked
  | finished t' ht' hstuck hpending hparked =>
    rw [ht] at ht'
    cases ht'
    obtain ⟨id, ending, heq⟩ := (hserial.isOver ht hstuck hpending).resolve_left hne
    refine .inr ⟨rfl, ending, ?_⟩
    simp [finish, howner, hended, heq, Stack.ending?]
  | taken t' queue hnone hqueue => exact absurd hnone hcurrent

omit [NodeState σ] in
theorem Serial.execute (h : s.Serial) (id : NodeId) (hcurrent : s.current = none) :
    Serial { s with current := some ⟨.foreground, .execution id⟩ } where
  parked := h.parked
  held := h.held
  queue := h.queue
  current t ht := by
    cases ht
    exact Stack.smooth_of_isResting rfl _
  holders := h.holders.mono (by
    rw [hcurrent]
    exact List.forall_mem_nil _)

omit [NodeState σ] in
theorem frames_execute (id : NodeId) (hcurrent : s.current = none) :
    frames { s with current := some ⟨.foreground, .execution id⟩ } =
      Stack.execution id ++ s.frames := by
  simp [frames, hcurrent]

theorem Proper.execute (h : s.Proper r) (id : NodeId) (hcurrent : s.current = none) :
    Proper r { s with current := some ⟨.foreground, .execution id⟩ } := by
  obtain ⟨past, hsound⟩ := h.sound
  refine ⟨⟨past, ?_⟩, h.collected⟩
  have hidle : ∀ f ∈ (Stack.execution id : Stack σ), f.run? = none :=
    List.forall_mem_singleton.2 rfl
  rw [frames_execute id hcurrent, List.append_assoc]
  exact (hsound.append_idle hidle).perm List.perm_append_comm

theorem Orderly.execute (h : s.Orderly r) (id : NodeId) (hcurrent : s.current = none) :
    Orderly r { s with current := some ⟨.foreground, .execution id⟩ } := by
  refine ⟨h.toProper.execute id hcurrent, fun f hf => ?_⟩
  rw [frames_execute id hcurrent] at hf
  rcases List.mem_append.1 hf with hf | hf
  · obtain rfl := List.mem_singleton.1 hf
    exact trivial
  · exact h.honest f hf

end Session

/-! ## Worlds -/

namespace World

def IsAtRest (w : World σ) : Prop := ∀ s ∈ w.tasks, s.isResting = true

instance (w : World σ) : Decidable w.IsAtRest :=
  inferInstanceAs (Decidable (∀ s ∈ w.tasks, s.isResting = true))

/-- A session with the tasks of a world in its queue, and behind them runs of these nodes in the
background. -/
def session (w : World σ) (ids : List NodeId) : Session σ :=
  Session.withEngine { engine := w.engine, queue := w.tasks.map (⟨.background, ·⟩) }
    (w.engine.scheduleAll ids)

variable {p : Policy} {moves : List (Move σ)}

theorem honest_next {w : World σ} {m : Move σ} (h : ∀ f ∈ w.frames, f.Honest)
    (hm : m.isDelivery = false) : ∀ f ∈ (w.next m).frames, f.Honest := by
  intro f hf
  rcases w.move_cases m with hperforms | ⟨task, top, rest, e, new, -, htakes⟩ | ⟨task, c, rfl⟩
  · obtain ⟨idle, hidle, hframes⟩ := hperforms.frames
    rw [hframes] at hf
    rcases List.mem_append.1 hf with hf | hf
    · exact h f hf
    · exact Frame.honest_of_idle (hidle f hf)
  · obtain ⟨pre, post, hsteps⟩ := htakes.steps
    obtain ⟨idle, hidle, hframes⟩ := hsteps.after
    rw [hsteps.before] at h
    rw [hframes] at hf
    simp only [List.mem_append] at hf
    rcases hf with ((hf | hf) | hf) | hf
    · exact h f (List.mem_append_left _ hf)
    · exact honest_turn htakes.turn f hf
    · exact h f (List.mem_append_right _ (List.mem_cons_of_mem _ hf))
    · exact Frame.honest_of_idle (hidle f hf)
  · cases hm

/-- Without deliveries every computation is the one that its context gives. -/
theorem honest_after (r : Registry σ) (p : Policy)
    (hmoves : ∀ m ∈ moves, m.isDelivery = false) : ∀ f ∈ (after r p moves).frames, f.Honest := by
  suffices h : ∀ w : World σ, (∀ f ∈ w.frames, f.Honest) →
      ∀ f ∈ (moves.foldl next w).frames, f.Honest from h _ (List.forall_mem_nil _)
  induction moves with
  | nil => exact fun w h => h
  | cons m rest ih =>
    obtain ⟨hm, hrest⟩ := List.forall_mem_cons.1 hmoves
    exact fun w h => ih hrest (w.next m) (honest_next h hm)

omit [NodeState σ] in
theorem frames_session (w : World σ) (ids : List NodeId) :
    (w.session ids).frames.Perm (w.frames ++ (w.engine.scheduleAll ids).errands) := by
  refine (Session.frames_collect _).trans (List.Perm.append_right _ ?_)
  simp [Session.frames, World.frames, List.flatMap_map, List.flatMap_id']

theorem orderly_session (hr : r.Steady) (hmoves : ∀ m ∈ moves, m.isDelivery = false)
    (ids : List NodeId) : ((after r p moves).session ids).Orderly r := by
  have hperm := (after r p moves).frames_session ids
  have hspec := (after r p moves).engine.scheduleAll_spec ids
  have hsame : (after r p moves).engine.Same ((after r p moves).session ids).engine :=
    ⟨hspec.1, hspec.2.1, hspec.2.2.1, hspec.2.2.2⟩
  refine ⟨⟨⟨[], ?_⟩, rfl⟩, fun f hf => ?_⟩
  · rw [List.append_nil]
    exact (((sound_after hr p moves).same hsame).append_idle Engine.idle_errands).perm hperm.symm
  · rcases List.mem_append.1 (hperm.mem_iff.1 hf) with hf | hf
    · exact honest_after r p hmoves f hf
    · exact Frame.honest_of_idle (Engine.idle_errands f hf)

omit [NodeState σ] in
theorem IsAtRest.not_claimed {w : World σ} (h : w.IsAtRest) (hheld : Held w.engine.graph w.frames)
    {id : NodeId} {n : Node σ} (hn : w.engine.graph.node? id = some n) : n.claimed = false := by
  by_contra hclaimed
  obtain ⟨f, hf, hclaim⟩ := hheld id n hn (Bool.not_eq_false _ ▸ hclaimed)
  obtain ⟨s, hs, hf⟩ := List.mem_flatten.1 hf
  have hresting := h s hs
  unfold Stack.isResting at hresting
  split at hresting
  · cases hf
  · cases List.mem_singleton.1 hf
    cases hclaim
  · cases List.mem_singleton.1 hf
    cases hclaim
  · simp only [List.mem_cons, List.not_mem_nil, or_false] at hf
    rcases hf with rfl | rfl <;> cases hclaim
  · cases hresting

theorem serial_session (hrest : (after r p moves).IsAtRest) (ids : List NodeId) :
    ((after r p moves).session ids).Serial := by
  have hspec := (after r p moves).engine.scheduleAll_spec ids
  refine ⟨rfl, rfl, fun t ht => ?_, nofun, Held.of_unclaimed fun id n hn => ?_⟩
  · simp only [session, Session.withEngine, Session.collect, List.filter_nil, List.append_nil,
      List.mem_append, List.mem_map] at ht
    rcases ht with ⟨s, hs, rfl⟩ | ⟨id, -, rfl⟩
    · exact hrest s hs
    · rfl
  · have hn' : (after r p moves).engine.graph.node? id = some n := hspec.2.2.1 ▸ hn
    exact hrest.not_claimed (held_after r p moves) hn'

end World

/-- Whatever was executed and edited before, and whatever the policy says, a session comes to the
end of its queue. If no execution was under way, all tasks have ended then, and a node that is
executed while they wait comes to an ending. -/
theorem Session.drains {m : Type → Type} [Monad m] [LawfulMonad m]
    (provider : Generation.Provider m) (hr : r.Steady) (hs : r.Settling) (p : Policy)
    {moves : List (Move σ)} (hmoves : ∀ x ∈ moves, x.isDelivery = false) (ids : List NodeId) :
    let w := World.after r p moves
    let s := w.session ids
    (∃ fuel s', drain provider fuel s = (pure s' : m (Session σ)) ∧ s'.current = none ∧
      s'.queue = [] ∧ (w.IsAtRest → s'.parked = [] ∧ s'.held = [])) ∧
    (w.IsAtRest → ∀ id, ∃ fuel s' ending,
      work provider fuel { s with current := some ⟨.foreground, .execution id⟩ } =
        (pure s' : m (Session σ)) ∧ s'.current = none ∧
      s'.ended = s.ended ++ [(.foreground, some ending)]) := by
  intro w s
  have horderly : s.Orderly r := World.orderly_session hr hmoves ids
  constructor
  · obtain ⟨fuel, s', hdrain, hcurrent, hqueue, hserial⟩ := horderly.exists_drain provider hr hs
      (P := fun s => w.IsAtRest → s.Serial)
      (fun s s' ho h hadvances hrest => (h hrest).advances ho.toProper hadvances)
      fun hrest => World.serial_session hrest ids
    exact ⟨fuel, s', hdrain, hcurrent, hqueue, fun hrest =>
      ⟨(hserial hrest).parked, (hserial hrest).held⟩⟩
  · intro hrest id
    have hserial : s.Serial := World.serial_session hrest ids
    obtain ⟨fuel, s', hwork, hcurrent, -, hexecuting⟩ := (horderly.execute id rfl).exists_work
      provider hr hs (P := fun s' => s'.Serial ∧ s'.Executing s.ended)
      (fun s₁ s₂ ho h hcurrent hadvances =>
        ⟨h.1.advances ho.toProper hadvances, h.2.advances h.1 hcurrent hadvances⟩)
      ⟨hserial.execute id rfl, .inl ⟨_, rfl, rfl, List.cons_ne_nil _ _,
        List.forall_mem_singleton.2 rfl, rfl⟩⟩
    rcases hexecuting with ⟨t, ht, -⟩ | ⟨-, ending, hended⟩
    · rw [hcurrent] at ht
      cases ht
    · exact ⟨fuel, s', ending, hwork, hcurrent, hended⟩

namespace Bench

/-- The types whose computations come to their results at once. -/
def prompt : List String := ["constant", "source", "double", "label", "switch", "merge"]

/-- A label gives its input if there is one, or else its text. -/
theorem compute_label (o : Options) (node : NodeId) (text : String) (inputs : Inputs) :
    (label o).compute ⟨node, .label text, inputs⟩ =
      gives ((inputs.get? "text").getD (.string text)) := by
  simp only [label, Context.input?]
  cases inputs.get? "text" <;> rfl

theorem applyResult_label (o : Options) (text : String) (v : Json.Value) :
    (label o).applyResult (.label text) (.single "output" v) = .label (v.toString?.getD "") := by
  have hvalue : (Outputs.single "output" v).value? "output" = some v := by
    simp [Outputs.single, Outputs.withValue, Outputs.value?, PortValue.value?]
  simp only [label, hvalue]
  rfl

/-- The computations of these types settle: what a label has given it gives again. -/
theorem settling_prompt (o : Options) : ((registry o).restrict prompt).Settling := by
  have hdefinition : ∀ {s : BenchNode} {d}, ((registry o).restrict prompt).of? s = some d →
      d = definitionOf o s ∧ s ≠ .gated := by
    intro s d hd
    obtain ⟨hd, hprompt⟩ := Registry.of?_restrict.1 hd
    rw [of?_registry] at hd
    refine ⟨(Option.some.inj hd).symm, ?_⟩
    rintro rfl
    exact absurd hprompt (by decide)
  refine ⟨fun d context hd => ?_, fun d context outputs hd hresult => ?_⟩
  · obtain ⟨node, state, inputs⟩ := context
    obtain ⟨rfl, hne⟩ := hdefinition hd
    cases state with
    | gated => exact absurd rfl hne
    | double fails => cases fails <;> exact ⟨_, rfl⟩
    | label text => exact ⟨_, compute_label o node text inputs⟩
    | switch isOpen => cases isOpen <;> exact ⟨_, rfl⟩
    | _ => exact ⟨_, rfl⟩
  · obtain ⟨node, state, inputs⟩ := context
    obtain ⟨rfl, hne⟩ := hdefinition hd
    cases state with
    | gated => exact absurd rfl hne
    | label text =>
      have hgives := (compute_label o node text inputs).symm.trans hresult
      cases hgives
      show (label o).compute ⟨node, (label o).applyResult (.label text) _, inputs⟩ = _
      rw [applyResult_label, compute_label]
      cases inputs.get? "text" <;> rfl
    | _ => exact hresult

/-- Three labels in a row, of which the first one has been executed. The second one is to follow. -/
def cascading : List (Move BenchNode) :=
  [.create "a" "label", .create "b" "label", .create "c" "label",
    .connect ⟨"a", "output"⟩ ⟨"b", "text"⟩, .connect ⟨"b", "output"⟩ ⟨"c", "text"⟩, .start "a"] ++
    List.replicate 9 (.step 0)

theorem drains_cascading :
    let w := World.after ((registry {}).restrict prompt) { cascade := .auto } cascading
    let s := w.session ["c"]
    w.IsAtRest ∧ s.queue.length = 3 ∧
      (∃ fuel s', Session.drain .absent fuel s = (pure s' : Id (Session BenchNode)) ∧
        s'.current = none ∧ s'.queue = [] ∧ s'.parked = [] ∧ s'.held = []) ∧
      ∃ fuel s' ending,
        Session.work .absent fuel { s with current := some ⟨.foreground, .execution "c"⟩ } =
          (pure s' : Id (Session BenchNode)) ∧ s'.current = none ∧
        s'.ended = [(.foreground, some ending)] := by
  intro w s
  have hrest : w.IsAtRest := by decide +kernel
  obtain ⟨⟨fuel, s', hdrain, hcurrent, hqueue, hended⟩, hexecute⟩ :=
    Session.drains (m := Id) .absent ((steady_registry {}).restrict prompt)
      (settling_prompt {}) { cascade := .auto }
      (show ∀ x ∈ cascading, x.isDelivery = false by decide) ["c"]
  exact ⟨hrest, by decide +kernel, ⟨fuel, s', hdrain, hcurrent, hqueue, hended hrest⟩,
    hexecute hrest "c"⟩

end Bench

end Patchbay
