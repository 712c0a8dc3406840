import Patchbay.Proofs.Waiting
import Patchbay.Proofs.Working

/-!
# Executions in any order

A session lets one task go on at a time. Here the execution of a node and all the tasks that it
leads to go on in any order, step by step, and jobs have their outcomes at any time. That does not
go on without end, and where it cannot go on, no run is counted any more: nobody waits for a node,
and nobody waits for anything else.

What is proved here:
  1. `World.Serves.happens`: a step is one of those that keep a graph secure.
  2. `World.Secure.serves`: the invariant.
  3. `World.Secure.acc`, `World.Secure.isIdle`: it ends, and nobody is left over.
-/

namespace Patchbay

open Json Lossless Relation

variable {σ : Type} [NodeState σ]

/-- What happens to a world that nobody edits: a task goes a step further, or a job that one has
asked for has an outcome. -/
inductive World.Serves (w : World σ) : World σ → Prop
  | stepped (task : Nat) (s : Stack σ) (e : Engine σ) (s' : Stack σ)
    (hs : w.tasks[task]? = some s) (hstep : w.engine.step s = some (e, s')) :
    Serves w (w.stepTask task)
  | answered (task : Nat) (s : Stack σ) (c₀ c : Computation) (hs : w.tasks[task]? = some s)
    (hpending : s.pending? = some c₀) (hfollows : c.Follows c₀) :
    Serves w (w.next (.deliver task c))

def World.executing (e : Engine σ) (id : NodeId) : World σ := ⟨e, [.execution id], []⟩

/-- A world that what happens leads to from the execution of a node. -/
def World.Leads (e : Engine σ) (id : NodeId) (w : World σ) : Prop :=
  ReflTransGen World.Serves (World.executing e id) w

namespace World

variable {w w' : World σ}

theorem responds_deliver {task : Nat} {s : Stack σ} {c₀ c : Computation}
    (hs : w.tasks[task]? = some s) (hpending : s.pending? = some c₀) (hfollows : c.Follows c₀) :
    Responds (w.engine, w.frames)
      ((w.next (.deliver task c)).engine, (w.next (.deliver task c)).frames) := by
  obtain ⟨id, run, epoch, d, context, rest, rfl, -⟩ := Stack.pending?_eq_some.1 hpending
  obtain ⟨pre, post, hframes, hset⟩ := frames_of_getElem? hs
  refine ⟨rfl, id, run, epoch, d, context, c₀, c, pre ++ (rest ++ post), hfollows, ?_, ?_⟩
  · rw [hframes, List.append_assoc]
    exact List.perm_middle
  · have hafter : (w.next (.deliver task c)).frames =
        pre ++ (.run id (.computing run epoch d context c) :: rest) ++ post := by
      show (w.tasks.modify task (Stack.proceed c)).flatten = _
      rw [List.modify_eq_set, hs]
      exact hset _
    rw [hafter, List.append_assoc]
    exact List.perm_middle

theorem Serves.happens (h : w.Serves w') :
    Happens (w.engine, w.frames) (w'.engine, w'.frames) := by
  cases h with
  | stepped task s e s' hs hstep => exact .inl (acts_stepTask hs hstep)
  | answered task s c₀ c hs hpending hfollows => exact .inr (responds_deliver hs hpending hfollows)

end World

omit [NodeState σ] in
theorem Awake.answers {e : Engine σ} {frames frames' : List (Frame σ)} (h : Awake e frames)
    (hanswers : Answers frames frames') : Awake e frames' := by
  intro id watch hwait
  obtain ⟨f, hf, hanswered⟩ := hanswers.exists_of_mem hwait
  have hsame : f = .wait (.node id) watch := by
    cases hanswered
    rfl
  have hbefore := h id watch (hsame ▸ hf)
  cases watch with
  | parked seen =>
    refine ⟨hbefore.1, fun hseen => (hbefore.2 hseen).imp_right ?_⟩
    rintro ⟨f, hf, hwakes⟩
    have hperm := hanswers.map_perm (f := Frame.Wakes id) fun a b hab => by cases hab <;> rfl
    obtain ⟨f', hf', heq⟩ := List.mem_map.1 (hperm.mem_iff.2 (List.mem_map_of_mem hf))
    exact ⟨f', hf', heq ▸ hwakes⟩
  | _ => exact hbefore

namespace World

variable {w w' : World σ} {id : NodeId}

theorem Ordered.answered (h : w.Ordered) {task : Nat} {s : Stack σ} {c₀ c : Computation}
    (hs : w.tasks[task]? = some s) (hpending : s.pending? = some c₀) (hfollows : c.Follows c₀) :
    (w.next (.deliver task c)).Ordered where
  linked t ht := by
    rcases mem_of_mem_modify ht with ht | ⟨t, ht', rfl⟩
    · exact h.linked t ht
    · obtain rfl := Option.some.inj (hs.symm.trans ht')
      obtain ⟨id, run, epoch, d, context, rest, rfl, -⟩ := Stack.pending?_eq_some.1 hpending
      exact (h.linked _ (List.mem_of_getElem? hs)).replace rfl trivial
  awake := h.awake.answers (responds_deliver hs hpending hfollows).answers

theorem Ordered.serves (h : w.Ordered) (hserves : w.Serves w') : w'.Ordered := by
  cases hserves with
  | stepped task s e s' hs hstep => exact h.stepTask task
  | answered task s c₀ c hs hpending hfollows => exact h.answered hs hpending hfollows

omit [NodeState σ] in
theorem ordered_executing (e : Engine σ) (id : NodeId) : (executing e id).Ordered where
  linked := List.forall_mem_singleton.2 (.execution id)
  awake m watch hwait := by cases List.mem_singleton.1 hwait

variable [Lossless σ] {r : Registry σ} {e₀ e : Engine σ}

/-- The invariant of the tasks that come from the execution of a node. -/
structure Secure (r : Registry σ) (e₀ : Engine σ) (w : World σ) : Prop extends w.Ordered where
  secure : Patchbay.Secure r e₀ w.engine w.frames

namespace Secure

theorem serves (hr : r.Steady) (hx : r.Expressive) (h : w.Secure r e₀) (hserves : w.Serves w') :
    w'.Secure r e₀ :=
  ⟨h.toOrdered.serves hserves, h.secure.happens hr hx hserves.happens⟩

/-- The invariant holds wherever the execution of a node on a restored graph leads. -/
theorem leads (hr : r.Steady) (hx : r.Expressive) {policy : Policy} {old : Snapshot σ}
    (hrestore : (Engine.new r policy).restore old = .ok e) (hnodes : ∀ n ∈ old.nodes, n.Expressed)
    (h : w.Leads e id) : w.Secure r e := by
  induction h with
  | refl =>
    refine ⟨ordered_executing e id, ?_⟩
    exact .restored hr policy hrestore hnodes (List.forall_mem_singleton.2 rfl) rfl
  | tail _ hserves ih => exact ih.serves hr hx hserves

theorem acc (hr : r.Steady) (hs : r.Convergent) (h : w.Secure r e₀) :
    Acc (fun w' w => w.Serves w') w := by
  have hacc := acc_of_sound hr hs h.secure.toSound h.secure.collected
  exact Subrelation.accessible (fun hserves => hserves.happens.precedes)
    (InvImage.accessible (fun w : World σ => (w.engine, w.frames)) hacc)

/-- A task that cannot go on and has asked for nothing is over, or waits for a node. -/
theorem isOver_or_parked (h : w.Secure r e₀) (hstuck : ∀ w', ¬ w.Serves w') {s : Stack σ}
    (hs : s ∈ w.tasks) :
    s.IsOver ∨ ∃ m rest, s = .wait (.node m) (.parked w.engine.beat) :: rest := by
  obtain ⟨task, htask⟩ := List.mem_iff_getElem?.1 hs
  have hstep : w.engine.step s = none := by
    rw [Option.eq_none_iff_forall_ne_some]
    intro x hx
    exact hstuck _ (.stepped task s x.1 x.2 htask hx)
  -- A job may have an outcome at any time, so nobody who has asked for one is stuck.
  have hpending : s.pending? = none := by
    rw [Option.eq_none_iff_forall_ne_some]
    intro c hc
    obtain ⟨request, next, rfl⟩ := h.secure.pending?
      (fun f hf => List.mem_flatten.2 ⟨s, hs, hf⟩) hc
    exact hstuck _ (.answered task s _ _ htask hc (.outcome request next (.error .notConfigured)))
  cases s with
  | nil => exact .inl (.inl rfl)
  | cons f rest =>
    refine (Engine.step_eq_none (h.linked _ hs) ?_ hstep).imp_right fun ⟨m, hf⟩ => ⟨m, rest, ?_⟩
    · rintro m run epoch d context c rfl
      exact Stack.exists_result hpending
    · rw [hf]

theorem isIdle (h : w.Secure r e₀) (hstuck : ∀ w', ¬ w.Serves w') : w.engine.isIdle = true := by
  have hnone := h.toOrdered.not_parked h.secure.whole.wiring h.secure.held fun s hs =>
    (h.isOver_or_parked hstuck hs).imp_left not_holds_of_isOver
  have hcounts : ∀ f ∈ w.frames, ¬ f.counts = true := by
    intro f hf
    obtain ⟨s, hs, hf⟩ := List.mem_flatten.1 hf
    rcases h.isOver_or_parked hstuck hs with hover | ⟨m, rest, rfl⟩
    · rcases hover with rfl | ⟨m, ending, rfl⟩
      · cases hf
      · cases List.mem_singleton.1 hf
        exact Bool.false_ne_true
    · exact absurd hs (hnone m rest)
  have htallied := h.secure.tallied
  rw [List.countP_eq_zero.2 hcounts] at htallied
  simp [Engine.isIdle, htallied]

end Secure

end World

end Patchbay
