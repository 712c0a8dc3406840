import Patchbay.Proofs.Draining
import Patchbay.Proofs.Writable

/-!
# Sessions that work on a restored graph

A session works on a restored graph: its tasks go on, and whatever a provider answers, it keeps the
graph in a condition in which it can be saved. It comes to the end of its work, which no answer can
prevent, and then no run is counted any more.

A provider is anything that answers, and what it answers may depend on all that it was asked before.

What is proved here:
  1. `Secure.happens`, `Secure.saves`: the invariant of the tasks, and what it says of a saved graph.
  2. `Session.Secure.advances`: the invariant of the session.
  3. `Session.Secure.exists_end`: a loop of steps comes to its end.
  4. `Session.exists_execution`: an execution and all that follows from it.
-/

namespace Patchbay

open Json Lossless

variable {σ : Type} [NodeState σ] [Lossless σ] {r : Registry σ} {e₀ e : Engine σ}
  {frames frames' : List (Frame σ)}

/-- The invariant of the tasks on a restored graph that can be written. -/
structure Secure (r : Registry σ) (e₀ e : Engine σ) (frames : List (Frame σ)) : Prop
    extends Intact r e₀ e frames, Expressed e frames

namespace Secure

theorem happens (hr : r.Steady) (hx : r.Expressive) {x y : Engine σ × List (Frame σ)}
    (h : Secure r e₀ x.1 x.2) (hhappens : Happens x y) : Secure r e₀ y.1 y.2 :=
  ⟨h.toIntact.happens hr hhappens, h.toExpressed.happens hx h.toSound hhappens⟩

theorem perm (h : Secure r e₀ e frames) (hperm : frames.Perm frames') : Secure r e₀ e frames' :=
  ⟨h.toIntact.perm hperm, h.expressed, fun f hf => h.levels f (hperm.mem_iff.2 hf)⟩

theorem restored (hr : r.Steady) (p : Policy) {s : Snapshot σ}
    (h : (Engine.new r p).restore s = .ok e) (hnodes : ∀ n ∈ s.nodes, n.Expressed)
    (hidle : ∀ f ∈ frames, f.run? = none) (hcounts : frames.countP Frame.counts = 0) :
    Secure r e e frames :=
  ⟨.restored hr p h hidle hcounts, .restored h hnodes hidle⟩

theorem pending? (h : Secure r e₀ e frames) {s : Stack σ} (hs : ∀ f ∈ s, f ∈ frames)
    {c : Computation} (hc : s.pending? = some c) : ∃ request next, c = .generate request next := by
  obtain ⟨id, run, epoch, d, context, rest, rfl, hnot⟩ := Stack.pending?_eq_some.1 hc
  have hyields : c.Yields Writable := h.levels _ (hs _ List.mem_cons_self)
  cases hyields with
  | asks request next => exact ⟨request, next, rfl⟩
  | failed | gives => exact absurd rfl (hnot _)

/-- Once no run is counted any more, what is saved reads back, if its text reads back as the
document that it writes; and what is read continues what was restored. -/
theorem saves (hk : r.KindsSteady) {policy : Policy} {old : Snapshot σ}
    (hrestore : (Engine.new r policy).restore old = .ok e₀) (h : Secure r e₀ e frames)
    (hidle : e.isIdle = true)
    (htext : Document.ofText? e.snapshot.text = some (encode e.snapshot)) :
    ∃ new, Snapshot.ofText e.snapshot.text = .ok new ∧ new.Continues r (e₀.Wrote e) old := by
  refine ⟨e.snapshot.written, ?_, ?_⟩
  · rw [Snapshot.ofText, Json.ofText?, htext, Option.bind_some, h.decode?_snapshot]
  · refine h.continues hk hrestore hidle (Snapshot.describes_capture _).written fun n hn => ?_
    obtain ⟨n₁, hn₁, rfl⟩ := List.mem_map.1 hn
    obtain ⟨n₂, -, rfl⟩ := List.mem_map.1 hn₁
    rfl

end Secure

/-! ## Sessions -/

namespace Session

/-- The invariant of a session. Levels of tasks that are over may be left out. -/
structure Secure (r : Registry σ) (e₀ : Engine σ) (s : Session σ) : Prop where
  serial : s.Serial
  secure : ∃ past, (∀ f ∈ past, f.counts = false) ∧
    Patchbay.Secure r e₀ s.engine (s.frames ++ past)

variable {s s' : Session σ}

omit [Lossless σ] in
theorem Serial.counts_of_sheds (h : s.Serial) {gone : List (Frame σ)} (hsheds : s.Sheds gone) :
    ∀ f ∈ gone, f.counts = false := by
  rcases hsheds with rfl | ⟨t, ht, hstuck, hpending, rfl⟩
  · exact List.forall_mem_nil _
  · rcases h.isOver ht hstuck hpending with heq | ⟨id, ending, heq⟩
    · rw [heq]
      exact List.forall_mem_nil _
    · rw [heq]
      exact List.forall_mem_singleton.2 rfl

namespace Secure

theorem proper (h : s.Secure r e₀) : s.Proper r := by
  obtain ⟨past, -, hsecure⟩ := h.secure
  exact ⟨⟨past, hsecure.toSound⟩, hsecure.collected⟩

theorem advances (hr : r.Steady) (hx : r.Expressive) (h : s.Secure r e₀)
    (hadvances : s.Advances s') : s'.Secure r e₀ := by
  refine ⟨h.serial.advances h.proper hadvances, ?_⟩
  obtain ⟨past, hpast, hsecure⟩ := h.secure
  rcases hadvances.happens with hnext | ⟨hengine, -, gone, hsheds, hperm⟩
  · exact ⟨past, hpast, hsecure.happens hr hx (hnext past)⟩
  · -- The level that a task sheds when it is over joins those that are left out.
    refine ⟨gone ++ past, List.forall_mem_append.2 ⟨h.serial.counts_of_sheds hsheds, hpast⟩, ?_⟩
    rw [hengine, ← List.append_assoc]
    exact hsecure.perm (hperm.append_right past)

theorem isIdle (h : s.Secure r e₀) (hcurrent : s.current = none) (hqueue : s.queue = []) :
    s.engine.isIdle = true := by
  obtain ⟨past, hpast, hsecure⟩ := h.secure
  have hframes : s.frames = [] := by
    simp [frames, hcurrent, hqueue, h.serial.parked, h.serial.held]
  have hcount : past.countP Frame.counts = 0 :=
    List.countP_eq_zero.2 fun f hf => by simp [hpast f hf]
  have htallied := hsecure.tallied
  rw [hframes, List.nil_append, hcount] at htallied
  simp [Engine.isIdle, htallied]

end Secure

/-! ## Loops -/

variable {ω : Type} {p : Generation.Provider (StateM ω)}

/-- Whatever the provider answers, the task at work goes a step further. -/
theorem Secure.stepTask (h : s.Secure r e₀) (hungated : p.gated = false) {t : Task σ}
    (ht : s.current = some t) (x : ω) : s.Advances ((s.stepTask p t).run x).1 := by
  unfold Session.stepTask
  cases hstep : s.engine.step t.stack with
  | some y => exact .stepped t y.1 y.2 ht hstep
  | none =>
    cases hpending : t.stack.pending? with
    | some c =>
      obtain ⟨past, -, hsecure⟩ := h.secure
      obtain ⟨request, next, rfl⟩ := hsecure.pending?
        (fun f hf => List.mem_append_left _ (mem_frames_of_current ht hf)) hpending
      simp only [StateT.run_bind, hungated]
      exact .answered t _ _ ht hpending (.outcome request next _)
    | none =>
      cases hparked : t.stack.parked? with
      | some seen => exact .parked t seen ht hstep hpending hparked
      | none => exact .finished t ht hstep hpending hparked

/-- The loop goes on from a session to the next one as long as there is one. -/
def Loops (next : Session σ → Option (StateM ω (Session σ)))
    (loop : ℕ → Session σ → StateM ω (Session σ)) : Prop :=
  ∀ fuel s, loop (fuel + 1) s = (next s).elim (pure s) fun n => n >>= loop fuel

omit [Lossless σ] in
theorem loops_work : Loops (fun s : Session σ => s.current.map (s.stepTask p)) (work p) := by
  intro fuel s
  dsimp only [work]
  cases s.current <;> rfl

omit [Lossless σ] in
theorem loops_drain : Loops (fun s : Session σ => s.step? p) (drain p) := by
  intro fuel s
  dsimp only [drain]
  cases s.step? p <;> rfl

omit [NodeState σ] [Lossless σ] in
/-- A loop that has come to its end is not changed by more patience. -/
theorem Loops.run_of_le {next : Session σ → Option (StateM ω (Session σ))}
    {loop : ℕ → Session σ → StateM ω (Session σ)} (hloop : Loops next loop)
    (hzero : ∀ s, loop 0 s = pure s) {n m : ℕ} (hle : n ≤ m) {s : Session σ} {x : ω}
    (hend : next ((loop n s).run x).1 = none) : (loop m s).run x = (loop n s).run x := by
  induction n generalizing m s x with
  | zero =>
    rw [hzero] at hend ⊢
    cases m with
    | zero => rw [hzero]
    | succ m =>
      have hnone : next s = none := hend
      rw [hloop, hnone]
      rfl
  | succ n ih =>
    obtain ⟨m, rfl⟩ := Nat.exists_eq_add_of_le' (Nat.le_of_add_left_le hle)
    rw [hloop] at hend ⊢
    rw [hloop]
    cases hs : next s with
    | none => rfl
    | some y =>
      rw [hs] at hend
      exact ih (Nat.le_of_succ_le_succ hle) hend

omit [Lossless σ] in
theorem executeWithin_of_le {n m : ℕ} (hle : n ≤ m) {s : Session σ} {id : NodeId} {x : ω}
    (hend : ((executeWithin p n s id).run x).1.1.current = none) :
    (executeWithin p m s id).run x = (executeWithin p n s id).run x := by
  rw [executeWithin, StateT.run_bind] at hend ⊢
  rw [executeWithin, StateT.run_bind, loops_work.run_of_le (fun _ => rfl) hle]
  generalize (work p n { s with current := some ⟨.foreground, .execution id⟩ }).run x = y at hend ⊢
  obtain ⟨s', x'⟩ := y
  refine Option.map_eq_none_iff.2 ?_
  refine Eq.trans ?_ hend
  dsimp only [StateT.run_pure, bind, pure]
  split <;> rfl

/-- With enough patience a loop comes to its end, and what every step keeps holds there. -/
theorem Secure.exists_end (hr : r.Steady) (hs : r.Convergent) (hx : r.Expressive)
    {next : Session σ → Option (StateM ω (Session σ))}
    {loop : ℕ → Session σ → StateM ω (Session σ)} (hloop : Loops next loop)
    (hnext : ∀ s n x, s.Secure r e₀ → next s = some n → s.Advances (n.run x).1)
    {P : Session σ → Prop}
    (hP : ∀ s s', s.Secure r e₀ → P s → next s ≠ none → s.Advances s' → P s')
    (h : s.Secure r e₀) (hstart : P s) (x : ω) :
    ∃ patience s' x', (∀ fuel ≥ patience, (loop fuel s).run x = (s', x')) ∧ next s' = none ∧
      s'.Secure r e₀ ∧ P s' := by
  -- Along the steps themselves: how many there are depends on the answers, that they end does not.
  induction h.proper.acc hr hs generalizing x with
  | intro s _ ih =>
    cases hn : next s with
    | none =>
      refine ⟨1, s, x, fun fuel hfuel => ?_, hn, h, hstart⟩
      obtain ⟨k, rfl⟩ := Nat.exists_eq_add_of_le' hfuel
      rw [hloop, hn]
      rfl
    | some n =>
      have hadvances := hnext s n x h hn
      obtain ⟨patience, s', x', hrun, hend⟩ := ih _ hadvances (h.advances hr hx hadvances)
        (hP s _ h hstart (hn ▸ Option.some_ne_none n) hadvances) (n.run x).2
      refine ⟨patience + 1, s', x', fun fuel hfuel => ?_, hend⟩
      obtain ⟨k, rfl⟩ := Nat.exists_eq_add_of_le' (Nat.le_of_add_left_le hfuel)
      rw [hloop, hn]
      exact hrun k (by omega)

/-- The invariant holds when an execution on a restored graph begins. -/
theorem Secure.execution (hr : r.Steady) {policy : Policy} {old : Snapshot σ}
    (hrestore : (Engine.new r policy).restore old = .ok e) (hnodes : ∀ n ∈ old.nodes, n.Expressed)
    (id : NodeId) :
    Secure r e { engine := e, current := some ⟨.foreground, .execution id⟩ } where
  serial := by
    have hresting : Serial { engine := e } :=
      ⟨rfl, rfl, nofun, nofun, .of_unclaimed (Engine.restore_eq_ok hr hrestore).2.2.2.2.2⟩
    exact hresting.execute id rfl
  secure := by
    refine ⟨[], nofun, ?_⟩
    rw [frames_execute (s := { engine := e }) id rfl]
    exact .restored hr policy hrestore hnodes (List.forall_mem_singleton.2 rfl) rfl

/-- A session comes to the end of its queue, and no run is counted then any more. -/
theorem Secure.exists_drained (hr : r.Steady) (hs : r.Convergent) (hx : r.Expressive)
    (hungated : p.gated = false) (h : s.Secure r e₀) (x : ω) : ∃ patience s' x',
      (∀ fuel ≥ patience, (drain p fuel s).run x = (s', x')) ∧ s'.engine.isIdle = true ∧
        s'.Secure r e₀ := by
  obtain ⟨patience, s', x', hdrain, hnone, hsecure, -⟩ := h.exists_end hr hs hx
    (loops_drain (p := p))
    (fun s n x h hn => by
      unfold step? at hn
      split at hn
      · rename_i t hcurrent
        cases hn
        exact h.stepTask hungated hcurrent x
      · rename_i t queue hcurrent hqueue
        cases hn
        exact .taken t queue hcurrent hqueue
      · cases hn)
    (P := fun _ => True) (fun _ _ _ _ _ _ => trivial) trivial x
  have hover : s'.current = none ∧ s'.queue = [] := by
    unfold step? at hnone
    split at hnone
    · cases hnone
    · cases hnone
    · exact ⟨‹_›, ‹_›⟩
  exact ⟨patience, s', x', hdrain, hsecure.isIdle hover.1 hover.2, hsecure⟩

theorem Secure.exists_executed (hr : r.Steady) (hs : r.Convergent) (hx : r.Expressive)
    (hungated : p.gated = false) {id : NodeId}
    (h : Secure r e₀ { engine := e, current := some ⟨.foreground, .execution id⟩ }) (x : ω) :
    ∃ patience s' ending x', (∀ fuel ≥ patience,
      (executeWithin p fuel { engine := e } id).run x = ((s', some ending), x')) ∧
        s'.Secure r e₀ := by
  obtain ⟨patience, s', x', hwork, hnone, hsecure, hexecuting⟩ := h.exists_end hr hs hx
    (loops_work (p := p))
    (fun s n x h hn => by
      obtain ⟨t, ht, rfl⟩ := Option.map_eq_some_iff.1 hn
      exact h.stepTask hungated ht x)
    (P := Executing [])
    (fun s s' h hexecuting hn hadvances => hexecuting.advances h.serial
      (fun hcurrent => hn (by rw [hcurrent]; rfl)) hadvances)
    (.inl ⟨_, rfl, rfl, List.cons_ne_nil _ _, List.forall_mem_singleton.2 rfl, rfl⟩) x
  have hcurrent : s'.current = none := Option.map_eq_none_iff.1 hnone
  obtain ⟨ending, hended⟩ : ∃ ending, s'.ended = [(.foreground, some ending)] := by
    rcases hexecuting with ⟨t, ht, -⟩ | ⟨-, hended⟩
    · rw [hcurrent] at ht
      cases ht
    · exact hended
  refine ⟨patience, { s' with ended := s'.ended.dropLast }, ending, x', fun fuel hfuel => ?_,
    ⟨hsecure.serial.parked, hsecure.serial.held, hsecure.serial.queue, hsecure.serial.current,
      hsecure.serial.holders⟩, hsecure.secure⟩
  rw [executeWithin, StateT.run_bind, hwork fuel hfuel]
  dsimp only [bind]
  rw [hended]
  rfl

/-- An execution on a restored graph comes to its ending, and all that follows from it to its end.
No run is counted then any more. -/
theorem exists_execution (hr : r.Steady) (hs : r.Convergent) (hx : r.Expressive)
    (hungated : p.gated = false) {policy : Policy} {old : Snapshot σ}
    (hrestore : (Engine.new r policy).restore old = .ok e) (hnodes : ∀ n ∈ old.nodes, n.Expressed)
    (id : NodeId) (x : ω) : ∃ patience s₁ s₂ ending x₁ x₂,
      (∀ fuel ≥ patience, (executeWithin p fuel { engine := e } id).run x =
        ((s₁, some ending), x₁) ∧ (drain p fuel s₁).run x₁ = (s₂, x₂)) ∧
      s₂.engine.isIdle = true ∧ s₂.Secure r e := by
  have hstart := Secure.execution hr hrestore hnodes id
  obtain ⟨patience₁, s₁, ending, x₁, hexecute, h₁⟩ := hstart.exists_executed hr hs hx hungated x
  obtain ⟨patience₂, s₂, x₂, hdrain, hidle, h₂⟩ := h₁.exists_drained hr hs hx hungated x₁
  exact ⟨max patience₁ patience₂, s₁, s₂, ending, x₁, x₂, fun fuel hfuel =>
    ⟨hexecute fuel ((Nat.le_max_left _ _).trans hfuel),
      hdrain fuel ((Nat.le_max_right _ _).trans hfuel)⟩, hidle, h₂⟩

end Session

end Patchbay
