import Patchbay.Bench
import Patchbay.Proofs.Discards
import Patchbay.Proofs.Idle
import Patchbay.Proofs.Tenure

/-!
# No trigger is lost

When a run writes outputs, the consumers that are stale are run in the background, but for those
that a run has already. What is proved here is that neither a consumer that is left out nor one
whose scheduled run comes too late misses the new outputs. As long as nobody has resolved the
inputs of such a consumer, it is either claimed by a run that is still executing producers, or it
is not claimed and a scheduled run has still to come to its claim. No step of any task leaves this
state but the one that resolves the inputs, and both kinds of runs count.

A consumer whose computation is going on is left out, since its inputs are read. But the new
outputs have raised its epoch, and a computation that began under an earlier epoch leaves its node
stale.

What is proved here:
  1. `World.Pending.next`: what is pending stays pending, is resolved, or is removed.
  2. `World.Behind.next`: a computation that is behind its node stays behind.
  3. `World.cascade_lossless`: what follows for the consumers of a node whose outputs are written.
-/

namespace Patchbay

variable {σ : Type}

def Phase.Arriving : Phase σ → Prop
  | .entering | .claiming _ => True
  | _ => False

namespace World

/-- A computation of the node is going on, for the run that has the node. -/
def Computes (w : World σ) (id : NodeId) : Prop :=
  ∃ n epoch d context c, w.engine.graph.node? id = some n ∧ n.claimed = true ∧
    .run id (.computing n.run epoch d context c) ∈ w.frames

/-- The inputs of the node are still to be resolved: by the run that has it or, as long as nobody
has it, by a scheduled run that has not come to its claim. -/
inductive Pending (w : World σ) (id : NodeId) : Prop
  | claimed (n : Node σ) (phase : Phase σ) (hn : w.engine.graph.node? id = some n)
    (hclaimed : n.claimed = true) (hrun : phase.run? = some n.run) (hreading : phase.Reading)
    (hf : .run id phase ∈ w.frames)
  | scheduled (n : Node σ) (phase : Phase σ) (j : Nat) (hn : w.engine.graph.node? id = some n)
    (hfree : n.claimed = false) (harriving : phase.Arriving)
    (hs : w.tasks[j]? = some [.run id phase, .errand false])

variable [NodeState σ]

/-- The next step of this task resolves the inputs of the node for the run that has it: the
computation begins, or the node is blocked. -/
def Resolves (w : World σ) (task : Nat) (id : NodeId) : Prop :=
  ∃ run rest n e phase, w.tasks[task]? = some (.run id (.pulling run []) :: rest) ∧
    w.engine.graph.node? id = some n ∧ n.run = run ∧
    w.engine.step (.run id (.pulling run []) :: rest) = some (e, .run id phase :: rest) ∧
    ((∃ epoch d context c, phase = .computing run epoch d context c) ∨
      phase = .releasing run (.ok .blocked))

end World

/-! ## Claims through a step -/

namespace Engine

variable [NodeState σ] {e e' : Engine σ} {top : Frame σ} {rest new : List (Frame σ)}
  {id : NodeId} {n : Node σ}

/-- No step of another run takes a node from the run that has it. -/
theorem claimed_turn_of_ne (hturn : Turn e top rest e' new) (hn : e.graph.node? id = some n)
    (hclaimed : n.claimed = true) (htop : top.run? ≠ some n.run) :
    ∃ n', e'.graph.node? id = some n' ∧ n'.claimed = true ∧ n'.run = n.run := by
  have hrobust : Node.Robust fun a b : Node σ =>
      a.claimed = true → a.run = n.run → b.claimed = true ∧ b.run = n.run :=
    { refl := fun _ h h' => ⟨h, h'⟩
      trans := fun _ _ _ h₁ h₂ h h' => h₂ (h₁ h h').1 (h₁ h h').2
      touched := fun _ h h' => ⟨h, h'⟩
      invalidated := fun _ h h' => ⟨h, h'⟩
      stopped := fun _ h h' => ⟨h, h'⟩ }
  have hrel := rel_turn_of_writes (m := id) hrobust hturn fun a b _ hwrites hclaimed hrun => by
    cases hwrites with
    | taken _ run _ hfree => exact absurd (hfree.symm.trans hclaimed) Bool.false_ne_true
    | released _ run ending _ =>
      have hne : (a.run == run && a.claimed) = false := by
        rw [Bool.and_eq_false_iff, beq_eq_false_iff_ne]
        exact .inl fun heq => htop (congrArg some (heq.symm.trans hrun))
      unfold Node.released
      rw [hne]
      exact ⟨hclaimed, hrun⟩
    | blocked _ run _ ports hrun' => exact absurd (congrArg some (hrun'.symm.trans hrun)) htop
    | started _ run _ hrun' => exact absurd (congrArg some (hrun'.symm.trans hrun)) htop
    | completed _ run epoch d context outputs _ hrun' =>
      exact absurd (congrArg some (hrun'.symm.trans hrun)) htop
    | failed _ run epoch d context cause _ message hrun' =>
      exact absurd (congrArg some (hrun'.symm.trans hrun)) htop
  obtain ⟨n', hn', himp⟩ := Graph.exists_of_rel hrel hn
  exact ⟨n', hn', himp hclaimed rfl⟩

/-- A node that nobody has is claimed by a claiming step or by none. -/
theorem free_turn (hturn : Turn e top rest e' new) (hn : e.graph.node? id = some n)
    (hfree : n.claimed = false) :
    (∃ n', e'.graph.node? id = some n' ∧ n'.claimed = false) ∨
      ∃ run, new = [.run id (.listing run)] ∧ e'.graph.node? id = some (n.taken run) := by
  have hrobust : Node.Robust fun a b : Node σ => a.claimed = false → b.claimed = false :=
    ⟨fun _ h => h, fun _ _ _ h h' ha => h' (h ha), fun _ h => h, fun _ h => h, fun _ h => h⟩
  by_cases htop : ∃ run, top = .run id (.claiming run)
  · obtain ⟨run, rfl⟩ := htop
    cases hturn with
    | claim id run rest n' hn' hfree' =>
      refine .inr ⟨run, rfl, ?_⟩
      exact (Graph.node?_modify_self _ _ _).trans (by rw [hn, Option.map_some])
    | pass top rest e' new hpass =>
      rw [hpass.same.graph]
      exact .inl ⟨n, hn, hfree⟩
  · have hrel := rel_turn_of_writes (m := id) hrobust hturn fun a b _ hwrites ha => by
      cases hwrites with
      | taken _ run _ _ => exact absurd ⟨run, rfl⟩ htop
      | started _ run _ hrun => exact ha
      | released _ run ending _ =>
        unfold Node.released
        split
        · rfl
        · exact ha
      | _ => rfl
    obtain ⟨n', hn', himp⟩ := Graph.exists_of_rel hrel hn
    exact .inl ⟨n', hn', himp hfree⟩

end Engine

/-! ## What is pending -/

namespace World

variable {w w' : World σ} {id : NodeId}

theorem Pending.inFlight_pos (h : w.Pending id) (htallied : w.Tallied) :
    0 < w.engine.inFlight := by
  have hcounted : ∀ f ∈ w.frames, f.counts = true → 0 < w.engine.inFlight := by
    intro f hf hcounts
    have hpos := List.countP_pos_iff.2 ⟨f, hf, hcounts⟩
    unfold Tallied at htallied
    omega
  cases h with
  | claimed n phase hn hclaimed hrun hreading hf =>
    refine hcounted _ hf ?_
    cases phase with
    | listing run | pulling run todo => rfl
    | _ => exact hreading.elim
  | scheduled n phase j hn hfree harriving hs =>
    have hmem : Frame.errand false ∈ w.frames :=
      mem_frames hs (by simp)
    exact hcounted _ hmem rfl

/-- What is pending stays pending if the claim stays as it is and no task goes on. -/
theorem Pending.mono (h : w.Pending id)
    (hrel : Option.Rel Node.Abides (w.engine.graph.node? id) (w'.engine.graph.node? id))
    (hframes : ∀ phase : Phase σ, phase.Reading → .run id phase ∈ w.frames →
      .run id phase ∈ w'.frames)
    (htasks : ∀ (j : Nat) (phase : Phase σ), phase.Arriving →
      w.tasks[j]? = some [.run id phase, .errand false] →
        w'.tasks[j]? = some [.run id phase, .errand false]) : w'.Pending id := by
  cases h with
  | claimed n phase hn hclaimed hrun hreading hf =>
    obtain ⟨n', hn', habides⟩ := Graph.exists_of_rel hrel hn
    exact .claimed n' phase hn' (habides.claimed.trans hclaimed)
      (hrun.trans (congrArg some habides.run.symm)) hreading (hframes phase hreading hf)
  | scheduled n phase j hn hfree harriving hs =>
    obtain ⟨n', hn', habides⟩ := Graph.exists_of_rel hrel hn
    exact .scheduled n' phase j hn' (habides.claimed.trans hfree) harriving
      (htasks j phase harriving hs)

theorem Pending.append (h : w.Pending id) (idle : List (Stack σ))
    (hrel : Option.Rel Node.Abides (w.engine.graph.node? id) (w'.engine.graph.node? id))
    (htasks : w'.tasks = w.tasks ++ idle) : w'.Pending id := by
  refine h.mono hrel (fun phase _ hf => ?_) fun j phase _ hs => ?_
  · rw [World.frames, htasks, List.flatten_append]
    exact List.mem_append_left _ hf
  · rw [htasks]
    exact getElem?_append_of_some hs

variable [NodeState σ] {r : Registry σ} {p : Policy} {task : Nat} {top : Frame σ}
  {rest new : List (Frame σ)} {e : Engine σ}

theorem pending_of_reading {n : Node σ} {phase : Phase σ} (ht : Typed r p w.engine w.frames)
    (hn : w.engine.graph.node? id = some n) (hclaimed : n.claimed = true)
    (hrun : phase.run? = some n.run) (hreading : phase.Reading)
    (hs : w.tasks[task]? = some (.run id phase :: rest))
    (hstep : w.engine.step (.run id phase :: rest) = some (e, new ++ rest))
    (hturn : Turn w.engine (.run id phase) rest e new) :
    (w.next (.step task)).Pending id ∨ w.Resolves task id := by
  obtain ⟨hgraph, -, htask⟩ := next_step hs hstep
  have hmem : ∀ f ∈ new, f ∈ (w.next (.step task)).frames := fun f hf =>
    mem_frames htask (List.mem_append_left _ hf)
  cases phase with
  | listing run =>
    cases hturn with
    | list _ _ _ =>
      refine .inl (.claimed n (.pulling run (w.engine.toPull id)) ?_ hclaimed hrun trivial
        (hmem _ List.mem_cons_self))
      rw [hgraph]
      exact hn
    | pass top rest e' new hpass => cases hpass with
      | quit _ _ _ _ _ _ _ _ hphase _ _ _ =>
        rcases hphase with heq | ⟨epoch, d, context, result, heq⟩ <;> cases heq
  | pulling run todo =>
    obtain rfl := Option.some.inj hrun
    cases hturn with
    | pull _ _ u todo _ =>
      refine .inl (.claimed n (.pulling n.run todo) ?_ hclaimed rfl trivial
        (hmem _ (List.mem_cons_of_mem _ List.mem_cons_self)))
      rw [hgraph]
      exact hn
    | block _ _ _ n' d events hn' hrun' hd hinputs =>
      exact .inr ⟨_, rest, n, _, _, hs, hn, rfl, hstep, .inr rfl⟩
    | begin _ _ _ n' d inputs hn' hrun' hd hinputs =>
      exact .inr ⟨_, rest, n, _, _, hs, hn, rfl, hstep, .inl ⟨_, _, _, _, rfl⟩⟩
    | pass top rest e' new hpass => cases hpass with
      | quit _ _ _ _ _ _ _ _ hphase _ hlost _ =>
        rcases hphase with heq | ⟨epoch, d, context, result, heq⟩ <;> cases heq
        obtain ⟨d, hd⟩ := ht.types id n hn
        rw [← ht.registry] at hd
        exact absurd (hd.symm.trans (hlost n hn rfl hclaimed)) nofun
  | _ => exact hreading.elim

theorem pending_of_arriving {n : Node σ} {phase : Phase σ}
    (hn : w.engine.graph.node? id = some n) (hfree : n.claimed = false)
    (harriving : phase.Arriving) (hs : w.tasks[task]? = some [.run id phase, .errand false])
    (hstep : w.engine.step [.run id phase, .errand false] = some (e, new ++ [.errand false]))
    (hturn : Turn w.engine (.run id phase) [.errand false] e new) :
    (w.next (.step task)).Pending id := by
  obtain ⟨hgraph, -, htask⟩ := next_step hs hstep
  have hmem : ∀ f ∈ new, f ∈ (w.next (.step task)).frames := fun f hf =>
    mem_frames htask (List.mem_append_left _ hf)
  cases phase with
  | entering =>
    cases hturn with
    | enter _ _ =>
      refine .scheduled n (.claiming w.engine.nextRun) task ?_ hfree trivial htask
      rw [hgraph]
      exact hn
    | pass top rest e' new hpass => cases hpass with
      | quit _ _ _ _ _ _ _ _ hphase _ _ _ =>
        rcases hphase with heq | ⟨epoch, d, context, result, heq⟩ <;> cases heq
  | claiming run =>
    cases hturn with
    | claim _ _ _ n' hn' hfree' =>
      refine .claimed (n.taken run) (.listing run) ?_ rfl rfl trivial
        (hmem _ List.mem_cons_self)
      rw [hgraph]
      exact (Graph.node?_modify_self _ _ _).trans (by rw [hn, Option.map_some])
    | pass top rest e' new hpass => cases hpass with
      | absent _ _ _ hnone => exact absurd (hn.symm.trans hnone) nofun
      | busy _ _ _ n' hn' hclaimed =>
        rw [hn] at hn'
        cases hn'
        exact absurd (hfree.symm.trans hclaimed) Bool.false_ne_true
      | quit _ _ _ _ _ _ _ _ hphase _ _ _ =>
        rcases hphase with heq | ⟨epoch, d, context, result, heq⟩ <;> cases heq
  | _ => exact harriving.elim

theorem Pending.step (h : w.Pending id) (ht : Typed r p w.engine w.frames)
    (hdistinct : (w.frames.filterMap Frame.run?).Nodup)
    (hs : w.tasks[task]? = some (top :: rest))
    (hstep : w.engine.step (top :: rest) = some (e, new ++ rest))
    (hturn : Turn w.engine top rest e new) :
    (w.next (.step task)).Pending id ∨ w.Resolves task id := by
  obtain ⟨hgraph, -, htask⟩ := next_step hs hstep
  have htasks := tasks_next_step hs hstep
  cases h with
  | claimed n phase hn hclaimed hrun hreading hf =>
    by_cases htop : top = .run id phase
    · subst htop
      exact pending_of_reading ht hn hclaimed hrun hreading hs hstep hturn
    · have hmem : top ∈ w.frames :=
        mem_frames hs List.mem_cons_self
      have hother : top.run? ≠ some n.run := fun heq =>
        htop (eq_of_run? hdistinct hmem hf heq hrun)
      obtain ⟨n', hn', hclaimed', hrun'⟩ := Engine.claimed_turn_of_ne hturn hn hclaimed hother
      rw [← hgraph] at hn'
      refine .inl (.claimed n' phase hn' hclaimed' (hrun.trans (congrArg some hrun'.symm))
        hreading ?_)
      -- The level of the run is not the one that went on, so it is still there.
      obtain ⟨pre, post, hframes, hset⟩ := frames_of_getElem? hs
      rw [World.frames, htasks, List.flatten_append, hset]
      rw [hframes] at hf
      simp only [List.mem_append, List.mem_cons] at hf ⊢
      tauto
  | scheduled n phase j hn hfree harriving hj =>
    by_cases hjt : j = task
    · subst hjt
      rw [hs] at hj
      obtain ⟨rfl, rfl⟩ := List.cons.inj (Option.some.inj hj)
      exact .inl (pending_of_arriving hn hfree harriving hs hstep hturn)
    · have hj' : (w.next (.step task)).tasks[j]? = some [.run id phase, .errand false] := by
        rw [htasks, List.getElem?_append_left, List.getElem?_set_ne (Ne.symm hjt), hj]
        rw [List.length_set]
        exact (List.getElem?_eq_some_iff.1 hj).1
      -- Another task may have claimed the node; its run has then still to resolve the inputs.
      apply Or.inl
      rcases Engine.free_turn hturn hn hfree with ⟨n', hn', hfree'⟩ | ⟨run, rfl, hn'⟩
      · rw [← hgraph] at hn'
        exact .scheduled n' phase j hn' hfree' harriving hj'
      · rw [← hgraph] at hn'
        exact .claimed _ (.listing run) hn' rfl rfl trivial
          (mem_frames htask List.mem_cons_self)

/-- What is pending does not compute yet, and so the progress of a computation is no concern
of it. -/
theorem Pending.deliver (h : w.Pending id) (task : Nat) (c : Computation) :
    (w.next (.deliver task c)).Pending id := by
  refine h.mono (Graph.rel_refl .refl _) (fun phase hreading hf => ?_) fun j phase harriving hs => ?_
  · rcases w.frames_deliver task c with hframes |
      ⟨pre, m, run, epoch, d, context, c₀, post, hframes, hframes'⟩
    · rw [hframes]
      exact hf
    · rw [hframes']
      rw [hframes] at hf
      simp only [List.mem_append, List.mem_cons] at hf ⊢
      rcases hf with hf | heq | hf
      · exact .inl hf
      · cases heq
        exact hreading.elim
      · exact .inr (.inr hf)
  · obtain ⟨s', hs', hfollows⟩ := follows_next hs (.deliver task c)
    rw [hs']
    cases hfollows with
    | same m => rfl
    | delivered c =>
      cases phase with
      | entering | claiming run => rfl
      | _ => exact harriving.elim

/-- What is pending stays pending, unless a step resolves it or the node is removed. -/
theorem Pending.next (h : w.Pending id) (ht : Typed r p w.engine w.frames)
    (hdistinct : (w.frames.filterMap Frame.run?).Nodup) {m : Move σ} (hm : m.isRestore = false) :
    (w.next m).Pending id ∨ m = .remove id ∨ ∃ task, m = .step task ∧ w.Resolves task id := by
  have hsame : ∀ g : Graph σ, Option.Rel Node.Abides (g.node? id) (g.node? id) := fun g =>
    Graph.rel_refl .refl _
  have hpresent : ∃ n, w.engine.graph.node? id = some n := by
    cases h with
    | claimed n phase hn hclaimed hrun hreading hf => exact ⟨n, hn⟩
    | scheduled n phase j hn hfree harriving hs => exact ⟨n, hn⟩
  have hgoes := w.goes_next m
  generalize hw' : w.next m = w' at hgoes ⊢
  cases hgoes with
  | nothing => exact .inl h
  | edited _ e hperformed hstep =>
    rcases hperformed.rel (Node.editable_abides _) id with hrel | ⟨rfl, -⟩ | ⟨state, hcreate⟩ |
      ⟨s, rfl, -⟩
    · exact .inl (h.append _ hrel rfl)
    · exact .inr (.inl rfl)
    · obtain ⟨n, hn⟩ := hpresent
      obtain ⟨-, hnew, -⟩ := Engine.createWith_eq_ok hcreate
      rw [hn] at hnew
      cases hnew
    · cases hm
  | started m => exact .inl (h.append _ (hsame _) rfl)
  | waited t => exact .inl (h.append _ (hsame _) rfl)
  | delivered task c =>
    rw [← hw']
    exact .inl (h.deliver task c)
  | stepped task top rest new e hs hstep hturn =>
    rcases h.step ht hdistinct hs hstep hturn with hpending | hresolves
    · rw [hw'] at hpending
      exact .inl hpending
    · exact .inr (.inr ⟨task, rfl, hresolves⟩)

/-- What is pending is resolved, or removed, before the count is zero. -/
theorem Pending.resolved (hr : r.Covers) (h : w.Pending id)
    (ht : Tenured r p w.engine w.frames) (htallied : w.Tallied)
    (hcollected : w.engine.scheduled = []) {later : List (Move σ)}
    (hlater : ∀ m ∈ later, m.isRestore = false)
    (hzero : (later.foldl World.next w).engine.inFlight = 0) :
    ∃ before m after, later = before ++ m :: after ∧ (m = .remove id ∨
      ∃ task, m = .step task ∧ (before.foldl World.next w).Resolves task id) := by
  induction later generalizing w with
  | nil =>
    -- What is pending counts, so it cannot be pending to the end.
    have hpos := h.inFlight_pos htallied
    exact absurd hzero (Nat.ne_of_gt hpos)
  | cons m rest ih =>
    obtain ⟨hm, hrest⟩ := List.forall_mem_cons.1 hlater
    rcases h.next ht.toTyped ht.distinct hm with hpending | hresolved
    · obtain ⟨before, m', after, rfl, hresolved⟩ := ih hpending
        ((Tenured.invariant hr p).next ht m) (htallied.next hcollected m)
        (collected_next hcollected m) hrest hzero
      exact ⟨m :: before, m', after, rfl, hresolved⟩
    · exact ⟨[], m, rest, rfl, hresolved⟩

end World

/-! ## Computations that are behind -/

/-- If the run with this number goes on here, it computes on inputs that have changed since, and
its node is stale; or it has ended its computation. -/
def Frame.IsBehind (g : Graph σ) (id : NodeId) (k : Nat) (f : Frame σ) : Prop :=
  f.run? = some k → (∃ epoch d context c, f = .run id (.computing k epoch d context c) ∧
    ∀ n, g.node? id = some n → n.run = k → n.claimed = true →
      n.stale = true ∧ epoch < n.epoch) ∨ ∃ ending, f = .run id (.releasing k ending)

theorem Frame.IsBehind.kept {g g' : Graph σ} {id : NodeId} {k : Nat} {f : Frame σ}
    (h : f.IsBehind g id k)
    (hkept : f.run? = some k → ∀ Q, Node.Personal k Q →
      (∀ n, g.node? id = some n → Q n) → ∀ n, g'.node? id = some n → Q n) :
    f.IsBehind g' id k := by
  intro hrun
  rcases h hrun with ⟨epoch, d, context, c, rfl, hbehind⟩ | hended
  · exact .inl ⟨epoch, d, context, c, rfl, hkept hrun _ (.behind k epoch) hbehind⟩
  · exact .inr hended

namespace Engine

variable [NodeState σ] {e e' : Engine σ} {top : Frame σ} {rest new : List (Frame σ)}
  {id : NodeId} {k : Nat}

theorem isBehind_turn (hturn : Turn e top rest e' new) (hk : k < e.nextRun)
    (h : top.IsBehind e.graph id k) {f : Frame σ} (hf : f ∈ new) : f.IsBehind e'.graph id k := by
  intro hrun
  -- A run that begins has a new number, so the level is that of a run that went on.
  rcases runs_of_turn hturn with hsub | ⟨m, rfl, rfl, rfl⟩
  · have htop : top.run? = some k := by
      have hmem := hsub.subset (List.mem_filterMap.2 ⟨f, hf, hrun⟩)
      exact Option.mem_toList.1 hmem
    rcases h htop with ⟨epoch, d, context, c, rfl, -⟩ | ⟨ending, rfl⟩
    · apply Or.inr
      cases hturn with
      | finish | fail => exact ⟨_, List.mem_singleton.1 hf⟩
      | pass top rest e' new hpass => cases hpass with
        | quit _ _ _ _ _ ending _ _ hphase _ _ _ =>
          rcases hphase with heq | ⟨epoch, d, context, result, heq⟩ <;> cases heq
          exact ⟨ending, List.mem_singleton.1 hf⟩
    · cases hturn with
      | release _ _ _ _ =>
        cases List.mem_singleton.1 hf
        cases hrun
      | pass top rest e' new hpass => cases hpass with
        | quit _ _ _ _ _ _ _ _ hphase _ _ _ =>
          rcases hphase with heq | ⟨epoch, d, context, result, heq⟩ <;> cases heq
  · cases List.mem_singleton.1 hf
    cases hrun
    exact absurd hk (Nat.lt_irrefl _)

/-- A computation that is behind leaves its node stale when it ends. -/
theorem stale_turn {n : Node σ} {epoch : Nat} {d : Definition σ} {context : Context σ}
    {c : Computation} (hturn : Turn e (.run id (.computing k epoch d context c)) rest e' new)
    (hn : e.graph.node? id = some n) (hstale : n.stale = true) (hlt : epoch < n.epoch) :
    ∃ n', e'.graph.node? id = some n' ∧ n'.stale = true := by
  have hrel := rel_turn_of_writes (m := id) Node.robust_stale hturn fun a b ha hwrites hstale => by
    rw [hn] at ha
    cases ha
    cases hwrites with
    | completed _ _ _ _ _ outputs _ hrun =>
      have hepoch : (n.epoch == epoch) = false := by
        rw [beq_eq_false_iff_ne]
        omega
      show (n.stale && !(n.epoch == epoch)) = true
      rw [hepoch, hstale]
      rfl
    | failed _ _ _ _ _ cause _ message hrun => exact hstale
  obtain ⟨n', hn', himp⟩ := Graph.exists_of_rel hrel hn
  exact ⟨n', hn', himp hstale⟩

end Engine

namespace World

variable {w : World σ} {id : NodeId} {k : Nat}

/-- The run with this number is behind its node for good. -/
structure Behind (w : World σ) (id : NodeId) (k : Nat) : Prop where
  begun : k < w.engine.nextRun
  behind : ∀ f ∈ w.frames, f.IsBehind w.engine.graph id k

variable [NodeState σ]

theorem Behind.next (h : w.Behind id k) (hdistinct : (w.frames.filterMap Frame.run?).Nodup)
    (m : Move σ) : (w.next m).Behind id k := by
  have hidle : ∀ (g : Graph σ) {f : Frame σ}, f.run? = none → f.IsBehind g id k :=
    fun g f hf hrun => absurd (hf.symm.trans hrun) nofun
  rcases w.move_cases m with hperforms | ⟨task, top, rest, e, new, -, htakes⟩ | ⟨task, c, rfl⟩
  · obtain ⟨e, hperformed, hsame⟩ := hperforms.engine
    obtain ⟨idle, hnone, hframes⟩ := hperforms.frames
    constructor
    · rw [hsame.nextRun, hperformed.stays.nextRun]
      exact h.begun
    · intro f hf
      rw [hframes] at hf
      rcases List.mem_append.1 hf with hf | hf
      · refine (h.behind f hf).kept fun _ Q hQ hn => ?_
        rw [hsame.graph]
        exact hperformed.kept hQ hn
      · exact hidle _ (hnone f hf)
  · obtain ⟨pre, post, hsteps⟩ := htakes.steps
    obtain ⟨idle, hnone, hframes⟩ := hsteps.after
    have hbefore := h.behind
    rw [hsteps.before] at hbefore hdistinct
    constructor
    · rw [hsteps.engine.nextRun]
      exact Nat.lt_of_lt_of_le h.begun (nextRun_turn htakes.turn)
    · intro f hf
      rw [hframes] at hf
      rw [hsteps.engine.graph]
      simp only [List.mem_append] at hf
      rcases hf with ((hf | hf) | hf) | hf
      · refine (hbefore f (List.mem_append_left _ hf)).kept fun hrun Q hQ hn => ?_
        exact Engine.kept_turn hQ htakes.turn
          (Tenured.run?_ne hdistinct (List.mem_append_left _ hf) hrun) hn
      · exact Engine.isBehind_turn htakes.turn h.begun
          (hbefore top (List.mem_append_right _ List.mem_cons_self)) hf
      · refine (hbefore f (List.mem_append_right _ (List.mem_cons_of_mem _ hf))).kept
          fun hrun Q hQ hn => ?_
        exact Engine.kept_turn hQ htakes.turn
          (Tenured.run?_ne hdistinct (List.mem_append_right _ hf) hrun) hn
      · exact hidle _ (hnone f hf)
  · refine ⟨h.begun, fun f hf => ?_⟩
    rcases mem_frames_deliver hf with hf | ⟨m, run, epoch, d, context, c₀, hbefore, rfl⟩
    · exact h.behind f hf
    · intro hrun
      rcases h.behind _ hbefore hrun with ⟨epoch', d', context', c', heq, hbehind⟩ | ⟨ending, heq⟩
      · cases heq
        exact .inl ⟨epoch, d, context, c, rfl, hbehind⟩
      · cases heq

theorem Behind.foldl (h : w.Behind id k) (hnumbered : Numbered w.engine w.frames)
    (moves : List (Move σ)) : (moves.foldl World.next w).Behind id k := by
  induction moves generalizing w with
  | nil => exact h
  | cons m rest ih =>
    exact ih (h.next hnumbered.distinct m)
      ((Numbered.invariant w.engine.registry w.engine.policy).next hnumbered m)

/-- A computation that is behind and comes to its end leaves its node stale. -/
theorem Behind.stale_of_done (h : w.Behind id k) {task epoch : Nat} {d : Definition σ}
    {context : Context σ} {result : Except Failure Outputs} {rest : Stack σ} {n : Node σ}
    (hs : w.tasks[task]? = some (.run id (.computing k epoch d context (.done result)) :: rest))
    (hn : w.engine.graph.node? id = some n) (hrun : n.run = k) (hclaimed : n.claimed = true) :
    ∃ n', (w.next (.step task)).engine.graph.node? id = some n' ∧ n'.stale = true := by
  have hmem : Frame.run id (.computing k epoch d context (.done result)) ∈ w.frames :=
    mem_frames hs List.mem_cons_self
  rcases h.behind _ hmem rfl with ⟨epoch', d', context', c, heq, hnode⟩ | ⟨ending, heq⟩
  · cases heq
    obtain ⟨hstale, hlt⟩ := hnode n hn hrun hclaimed
    rcases w.stepTask_eq task with hsame | ⟨top, rest', e, new, hs', hturn, hnext⟩
    · rw [World.next, hsame]
      exact ⟨n, hn, hstale⟩
    · rw [hs] at hs'
      cases hs'
      have hafter := Engine.stale_turn hturn hn hstale hlt
      rw [World.next, hnext]
      exact hafter
  · cases heq

end World

/-! ## What a run schedules when it writes outputs -/

namespace Engine

variable [NodeState σ] {e : Engine σ} {id c : NodeId} {n : Node σ}

/-- If its inputs are up to date, it schedules the consumers that are stale then and that nobody
has. -/
theorem mem_scheduled_commit (hauto : e.policy.cascade = .auto) (hcollected : e.scheduled = [])
    (d : Definition σ) (outputs : Outputs) :
    c ∈ (e.commitOutputs id n n.epoch d outputs).scheduled ↔
      c ∈ e.graph.wiring.downstream id ∧
        ∃ n', (e.commitOutputs id n n.epoch d outputs).graph.node? c = some n' ∧
          n'.stale = true ∧ n'.claimed = false := by
  obtain ⟨-, -, hgraph, -⟩ := commitOutputs_spec e id n n.epoch d outputs
  rw [hgraph, commitOutputs, scheduled_scheduleAll]
  simp only [emit, withGraph, hcollected, hauto, beq_self_eq_true, Bool.and_true, decide_true,
    if_true, List.nil_append, List.mem_filter, Option.any_eq_true, Bool.not_eq_true',
    Bool.and_eq_true]

theorem told_commit (hw : e.graph.wiring.Sound) (epoch : Nat) (d : Definition σ)
    {outputs : Outputs} (hchanged : (n.outputs != outputs) = true)
    (hfeeds : e.graph.wiring.Feeds id c) {nc : Node σ} (hc : e.graph.node? c = some nc) :
    ∃ k, 0 < k ∧ (e.commitOutputs id n epoch d outputs).graph.node? c = some (nc.aged k) := by
  have hne : id ≠ c := fun heq => hw.not_feeds_self c (heq ▸ hfeeds)
  obtain ⟨-, -, hgraph, -⟩ := commitOutputs_spec e id n epoch d outputs
  obtain ⟨visits, hvisited⟩ := Graph.visited_invalidateAll
    (e.graph.modify id (·.completed (d.applyResult n.state outputs) outputs (n.epoch == epoch)))
    hw (e.graph.wiring.downstream id)
  refine ⟨visits c, hvisited.starts c (hw.mem_downstream.2 hfeeds), ?_⟩
  rw [hgraph, Graph.complete]
  simp only [hchanged, Bool.true_or, if_true]
  have hnode := hvisited.node? c
  rw [Graph.node?_modify, if_neg hne, hc] at hnode
  exact hnode

end Engine

namespace World

variable [NodeState σ] {r : Registry σ} {p : Policy}

/-- The next step of this task writes outputs to the node, whose inputs are up to date. -/
structure Finishes (w : World σ) (task : Nat) (id : NodeId) (n : Node σ) (outputs : Outputs) :
    Prop where
  computing : ∃ d context rest, w.tasks[task]? =
    some (.run id (.computing n.run n.epoch d context (.done (.ok outputs))) :: rest)
  node : w.engine.graph.node? id = some n
  claimed : n.claimed = true

variable {w : World σ} {task : Nat} {id c : NodeId} {n nc : Node σ} {outputs : Outputs}

theorem Finishes.next (h : w.Finishes task id n outputs) : ∃ d : Definition σ,
    (w.next (.step task)).engine.graph = (w.engine.commitOutputs id n n.epoch d outputs).graph ∧
    (∀ m k epoch d context c₀, Frame.run m (.computing k epoch d context c₀) ∈
      (w.next (.step task)).frames → .run m (.computing k epoch d context c₀) ∈ w.frames) ∧
    ∀ c, c ∈ (w.engine.commitOutputs id n n.epoch d outputs).scheduled ↔
      ∃ j, w.tasks.length ≤ j ∧ (w.next (.step task)).tasks[j]? = some (.background c) := by
  obtain ⟨d, context, rest, hs⟩ := h.computing
  have hstep := Engine.step_finish h.node rfl h.claimed n.epoch d context outputs rest
  obtain ⟨hgraph, -, -⟩ := next_step hs hstep
  refine ⟨d, hgraph, fun m k epoch d' context' c₀ hf => ?_, fun c => ⟨fun hc => ?_, fun hex => ?_⟩⟩
  · obtain ⟨pre, post, hframes, hset⟩ := frames_of_getElem? hs
    rw [World.frames, tasks_next_step hs hstep, List.flatten_append, hset] at hf
    rw [hframes]
    simp only [List.mem_append, List.mem_cons, List.not_mem_nil, or_false] at hf ⊢
    rcases hf with ((hf | heq | hf) | hf) | hf
    · exact .inl (.inl hf)
    · cases heq
    · exact .inl (.inr (.inr hf))
    · exact .inr hf
    · obtain ⟨s, hs, hf⟩ := List.mem_flatten.1 hf
      obtain ⟨c, -, rfl⟩ := List.mem_map.1 hs
      simp [Stack.background] at hf
  · obtain ⟨i, hi⟩ := List.mem_iff_getElem?.1 hc
    exact ⟨w.tasks.length + i, Nat.le_add_right _ _, getElem?_scheduled hs hstep hi⟩
  · obtain ⟨j, hj, hback⟩ := hex
    rw [tasks_next_step hs hstep, List.getElem?_append_right (by rwa [List.length_set]),
      List.getElem?_map, Option.map_eq_some_iff] at hback
    obtain ⟨c', hc', heq⟩ := hback
    cases heq
    exact List.mem_of_getElem? hc'

/-- A stale consumer whose computation is not going on is pending. -/
theorem Finishes.pending (h : w.Finishes task id n outputs) (hauto : p.cascade = .auto)
    (ht : Typed r p w.engine w.frames) (hcollected : w.engine.scheduled = [])
    (hw : w.engine.graph.wiring.Sound) (hfeeds : w.engine.graph.wiring.Feeds id c)
    (ht₁ : Tenured r p (w.next (.step task)).engine (w.next (.step task)).frames)
    (hheld : Held (w.next (.step task)).engine.graph (w.next (.step task)).frames)
    (hc : (w.next (.step task)).engine.graph.node? c = some nc) (hstale : nc.stale = true)
    (hnot : ¬ (w.next (.step task)).Computes c) : (w.next (.step task)).Pending c := by
  cases hclaimed : nc.claimed with
  | true =>
    obtain ⟨f, hf, hclaim⟩ := hheld c nc hc hclaimed
    have htimely := ht₁.timely f hf
    unfold Frame.claim? at hclaim
    split at hclaim
    · cases hclaim
      exact .claimed nc (.listing nc.run) hc hclaimed rfl trivial hf
    · rename_i todo
      cases hclaim
      exact .claimed nc (.pulling nc.run todo) hc hclaimed rfl trivial hf
    · rename_i epoch d context c₀
      cases hclaim
      exact absurd ⟨nc, epoch, d, context, c₀, hc, hclaimed, hf⟩ hnot
    · cases hclaim
      exact absurd ((htimely nc hc rfl).symm.trans hclaimed) Bool.false_ne_true
    · cases hclaim
  | false =>
    obtain ⟨d, hgraph, -, hscheduled⟩ := h.next
    have hmem : c ∈ (w.engine.commitOutputs id n n.epoch d outputs).scheduled := by
      rw [Engine.mem_scheduled_commit (ht.policy ▸ hauto) hcollected]
      exact ⟨hw.mem_downstream.2 hfeeds, nc, hgraph ▸ hc, hstale, hclaimed⟩
    obtain ⟨j, -, hj⟩ := (hscheduled c).1 hmem
    exact .scheduled nc .entering j hc hclaimed trivial hj

/-- A consumer whose computation is going on is not scheduled. -/
theorem Finishes.not_scheduled (h : w.Finishes task id n outputs)
    (hauto : w.engine.policy.cascade = .auto) (hcollected : w.engine.scheduled = [])
    (hcomputes : (w.next (.step task)).Computes c) (j : Nat) (hj : w.tasks.length ≤ j) :
    (w.next (.step task)).tasks[j]? ≠ some (.background c) := by
  intro hback
  obtain ⟨d, hgraph, -, hscheduled⟩ := h.next
  obtain ⟨-, n', hn', -, hfree⟩ :=
    (Engine.mem_scheduled_commit hauto hcollected d outputs).1 ((hscheduled c).2 ⟨j, hj, hback⟩)
  obtain ⟨n₁, epoch, d', context, c₀, hn₁, hclaimed, -⟩ := hcomputes
  rw [hgraph, hn'] at hn₁
  cases hn₁
  exact Bool.false_ne_true (hfree.symm.trans hclaimed)

/-- A consumer whose computation is going on is behind, if the outputs are not the old ones. -/
theorem Finishes.behind (h : w.Finishes task id n outputs) (ht : Tenured r p w.engine w.frames)
    (hw : w.engine.graph.wiring.Sound) (hfeeds : w.engine.graph.wiring.Feeds id c)
    (hnumbered : Numbered (w.next (.step task)).engine (w.next (.step task)).frames)
    (hc : (w.next (.step task)).engine.graph.node? c = some nc)
    (hcomputes : (w.next (.step task)).Computes c) (hchanged : (n.outputs != outputs) = true) :
    (w.next (.step task)).Behind c nc.run := by
  obtain ⟨d, hgraph, hframes, -⟩ := h.next
  obtain ⟨n₁, epoch, d', context, c₀, hn₁, hclaimed, hf⟩ := hcomputes
  rw [hc] at hn₁
  cases hn₁
  -- The node was claimed before as well, and has been told since.
  obtain ⟨nb, hnb, hlast⟩ := (w.engine.inherits_commitOutputs id n n.epoch d outputs).nodes c nc
    (hgraph ▸ hc)
  obtain ⟨k, hk, htold⟩ := Engine.told_commit hw n.epoch d hchanged hfeeds hnb
  rw [← hgraph, hc] at htold
  cases htold
  have hepoch : epoch ≤ nb.epoch :=
    ht.timely _ (hframes c _ epoch d' context c₀ hf) nb hnb rfl (hlast.claimed hclaimed)
  have hmem : (nb.aged k).run ∈ (w.next (.step task)).frames.filterMap Frame.run? :=
    List.mem_filterMap.2 ⟨_, hf, rfl⟩
  refine ⟨hnumbered.below _ hmem, fun f hf' hrun => .inl ⟨epoch, d', context, c₀, ?_, ?_⟩⟩
  · exact eq_of_run? hnumbered.distinct hf' hf hrun rfl
  · intro n₂ hn₂ _ _
    rw [hc] at hn₂
    cases hn₂
    refine ⟨Node.stale_aged hk, ?_⟩
    rw [Node.aged_epoch]
    omega

/-- The scheduling policy runs stale consumers, and node types are registered together. Whenever a
run writes outputs to a node and its inputs are up to date, then of every consumer that is there
afterwards the following holds.

If the consumer is stale and its computation is not going on, then before the count of the runs is
zero some step after this one resolves the inputs of the consumer, or the consumer is removed.

If its computation is going on, then it is not scheduled; and if the outputs are not the old ones,
the consumer is stale when its computation has come to its end. -/
theorem cascade_lossless (hr : r.Covers) (hauto : p.cascade = .auto) {moves : List (Move σ)}
    (h : (after r p moves).Finishes task id n outputs)
    (hfeeds : (after r p moves).engine.graph.wiring.Feeds id c)
    (hc : ((after r p moves).next (.step task)).engine.graph.node? c = some nc) :
    let w := after r p moves
    let w₁ := w.next (.step task)
    (nc.stale = true → ¬ w₁.Computes c →
      ∀ later : List (Move σ), (∀ m ∈ later, m.isRestore = false) →
        (later.foldl World.next w₁).engine.inFlight = 0 →
          ∃ before m others, later = before ++ m :: others ∧ (m = .remove c ∨
            ∃ j, m = .step j ∧ (before.foldl World.next w₁).Resolves j c)) ∧
    (w₁.Computes c →
      (∀ j, w.tasks.length ≤ j → w₁.tasks[j]? ≠ some (.background c)) ∧
      ((n.outputs != outputs) = true → ∀ (later : List (Move σ)) j epoch d context result rest nc',
        let w₂ := later.foldl World.next w₁
        w₂.tasks[j]? =
            some (.run c (.computing nc.run epoch d context (.done result)) :: rest) →
          w₂.engine.graph.node? c = some nc' → nc'.run = nc.run → nc'.claimed = true →
            ∃ nc'', (w₂.next (.step j)).engine.graph.node? c = some nc'' ∧
              nc''.stale = true)) := by
  intro w w₁
  have hw : w.engine.graph.wiring.Sound := sound_wiring_after r p moves
  have htenured : Tenured r p w.engine w.frames := (Tenured.invariant hr p).after moves
  have htenured₁ : Tenured r p w₁.engine w₁.frames := (Tenured.invariant hr p).next htenured _
  have hnew : (new r p).Tallied := rfl
  obtain ⟨htallied, hcollected⟩ := hnew.foldl rfl moves
  have hcollected : w.engine.scheduled = [] := hcollected
  constructor
  · intro hstale hnot later hlater hzero
    have hheld : Held w₁.engine.graph w₁.frames :=
      (Held.invariant r p).next (held_after r p moves) _
    have hpending := h.pending hauto htenured.toTyped hcollected hw hfeeds htenured₁ hheld hc
      hstale hnot
    exact hpending.resolved hr htenured₁ (htallied.next hcollected _)
      (collected_next hcollected _) hlater hzero
  · intro hcomputes
    have hpolicy : w.engine.policy.cascade = .auto := by
      rw [htenured.policy]
      exact hauto
    refine ⟨h.not_scheduled hpolicy hcollected hcomputes, ?_⟩
    intro hchanged later j epoch d context result rest nc' w₂ hs hnc' hrun hclaimed
    have hbehind : w₂.Behind c nc.run :=
      (h.behind htenured hw hfeeds htenured₁.toNumbered hc hcomputes hchanged).foldl
        htenured₁.toNumbered later
    exact hbehind.stale_of_done hs hnc' hrun hclaimed

end World

theorem Studio.covers_registry : Studio.registry.Covers :=
  Registry.covers_of_knows fun s => ⟨_, Studio.of?_registry s⟩

namespace Bench

theorem covers_registry (o : Options) : (registry o).Covers :=
  Registry.covers_of_knows fun s => ⟨_, of?_registry o s⟩

/-- Whether the next step of this task writes other outputs to the node, whose inputs are up to
date. -/
def writesAnew (w : World BenchNode) (task : Nat) (id : NodeId) : Bool :=
  match w.tasks[task]?, w.engine.graph.node? id with
  | some (.run m (.computing run epoch _ _ (.done (.ok outputs))) :: _), some n =>
    m == id && n.run == run && n.epoch == epoch && n.claimed && n.outputs != outputs
  | _, _ => false

theorem finishes_of_writesAnew {w : World BenchNode} {task : Nat} {id : NodeId}
    (h : writesAnew w task id = true) : ∃ n outputs, w.Finishes task id n outputs ∧
      (n.outputs != outputs) = true := by
  unfold writesAnew at h
  split at h
  · rename_i m run epoch d context outputs rest n hs hn
    simp only [Bool.and_eq_true, beq_iff_eq] at h
    obtain ⟨⟨⟨⟨rfl, rfl⟩, rfl⟩, hclaimed⟩, hchanged⟩ := h
    exact ⟨n, outputs, ⟨⟨d, context, rest, hs⟩, hn, hclaimed⟩, hchanged⟩
  · cases h

/-- Whether a computation of the node goes on on this level, for the run with this number. -/
def isComputing (id : NodeId) (run : Nat) : Frame BenchNode → Bool
  | .run m (.computing k _ _ _ _) => m == id && k == run
  | _ => false

theorem exists_of_isComputing {id : NodeId} {run : Nat} {f : Frame BenchNode}
    (h : isComputing id run f = true) :
    ∃ epoch d context c, f = .run id (.computing run epoch d context c) := by
  unfold isComputing at h
  split at h
  · rename_i m k epoch d context c
    rw [Bool.and_eq_true, beq_iff_eq, beq_iff_eq] at h
    obtain ⟨rfl, rfl⟩ := h
    exact ⟨epoch, d, context, c, rfl⟩
  · cases h

/-- Two gated nodes read from a label, which is executed. One of the runs that follow waits for
its permit, the other one has not begun. Then the label gets another text and is executed again,
up to the end of its computation. -/
def rewriting : List (Move BenchNode) :=
  [.create "a" "label", .create "g" "gated", .create "h" "gated",
    .connect ⟨"a", "output"⟩ ⟨"g", "input"⟩, .connect ⟨"a", "output"⟩ ⟨"h", "input"⟩] ++
    .start "a" :: List.replicate 5 (.step 0) ++ List.replicate 4 (.step 2) ++
    [.update "a" fun _ => .label "b"] ++ .start "a" :: List.replicate 4 (.step 3)

/-- The node that has not begun is run before the count is zero; the one that waits for its permit
is not scheduled, and is stale when it has come to its end. -/
theorem cascade_lossless_rewriting :
    let w := World.after (registry {}) { cascade := .auto } rewriting
    let w₁ := w.next (.step 3)
    (∃ n outputs, w.Finishes 3 "a" n outputs ∧ (n.outputs != outputs) = true) ∧
    w.engine.graph.wiring.Feeds "a" "g" ∧ w.engine.graph.wiring.Feeds "a" "h" ∧
    ¬ w₁.Computes "g" ∧ w₁.Computes "h" ∧
    (∀ later : List (Move BenchNode), (∀ m ∈ later, m.isRestore = false) →
      (later.foldl World.next w₁).engine.inFlight = 0 →
        ∃ before m others, later = before ++ m :: others ∧ (m = .remove "g" ∨
          ∃ j, m = .step j ∧ (before.foldl World.next w₁).Resolves j "g")) ∧
    (∀ j, w.tasks.length ≤ j → w₁.tasks[j]? ≠ some (.background "h")) := by
  intro w w₁
  obtain ⟨n, outputs, hfinishes, hchanged⟩ :=
    @finishes_of_writesAnew w 3 "a" (by decide +kernel)
  have hg : w.engine.graph.wiring.Feeds "a" "g" :=
    ⟨⟨⟨"a", "output"⟩, ⟨"g", "input"⟩⟩, by decide +kernel, rfl, rfl⟩
  have hh : w.engine.graph.wiring.Feeds "a" "h" :=
    ⟨⟨⟨"a", "output"⟩, ⟨"h", "input"⟩⟩, by decide +kernel, rfl, rfl⟩
  obtain ⟨ng, hng, hgfacts⟩ := Option.map_eq_some_iff.1
    (show (w₁.engine.graph.node? "g").map (fun n => (n.stale, n.claimed)) = some (true, false) by
      decide +kernel)
  obtain ⟨hgstale, hgfree⟩ := Prod.mk.inj hgfacts
  obtain ⟨nh, hnh, hhfacts⟩ := Option.map_eq_some_iff.1
    (show (w₁.engine.graph.node? "h").map (fun n => (n.claimed, n.run)) = some (true, 2) by
      decide +kernel)
  obtain ⟨hhclaimed, hhrun⟩ := Prod.mk.inj hhfacts
  have hgnot : ¬ w₁.Computes "g" := by
    intro hcomputes
    obtain ⟨n, epoch, d, context, c, hn, hclaimed, -⟩ := hcomputes
    have heq : n = ng := Option.some.inj (hn.symm.trans hng)
    exact Bool.false_ne_true (hgfree.symm.trans (heq ▸ hclaimed))
  have hhcomputes : w₁.Computes "h" := by
    obtain ⟨f, hf, hcomputing⟩ := List.any_eq_true.1
      (show w₁.frames.any (isComputing "h" 2) = true by decide +kernel)
    obtain ⟨epoch, d, context, c, rfl⟩ := exists_of_isComputing hcomputing
    exact ⟨nh, epoch, d, context, c, hnh, hhclaimed, hhrun ▸ hf⟩
  exact ⟨⟨n, outputs, hfinishes, hchanged⟩, hg, hh, hgnot, hhcomputes,
    (World.cascade_lossless (covers_registry {}) rfl hfinishes hg hng).1 hgstale hgnot,
    ((World.cascade_lossless (covers_registry {}) rfl hfinishes hh hnh).2 hhcomputes).1⟩

end Bench

end Patchbay
