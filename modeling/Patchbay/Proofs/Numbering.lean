import Mathlib.Data.List.Nodup
import Patchbay.Proofs.Succession

/-!
# Run numbers

A run is told from all others by its number. No two levels of all tasks have a number in common,
whatever the node types do and whatever is restored.

What is proved here:
  1. `runs_turn`, `distinct_turn`: what a step of a task makes of the numbers.
  2. `World.numbered_after`: in every world that can be reached the numbers of the runs that are
     going on are distinct, positive, and below the next one.
-/

namespace Patchbay

variable {σ : Type} [NodeState σ] {e e' : Engine σ} {frames : List (Frame σ)}

/-! ## Steps -/

/-- But for a run that gets its number, no step brings a run number into play. -/
theorem runs_of_turn {top : Frame σ} {rest new : List (Frame σ)} (h : Turn e top rest e' new) :
    (new.filterMap Frame.run?).Sublist top.run?.toList ∨
      ∃ id, top = .run id .entering ∧ e' = e.enter.1 ∧ new = [.run id (.claiming e.nextRun)] := by
  cases h with
  | enter id rest => exact .inr ⟨id, rfl, rfl, rfl⟩
  | pass top rest e' new hpass =>
    apply Or.inl
    rcases hpass.new_cases with rfl | ⟨f, rfl, hf | ⟨id, run, ending, rfl, htop⟩⟩
    · exact List.nil_sublist _
    · rw [List.filterMap_cons, hf]
      exact List.nil_sublist _
    · rw [htop]
      exact List.Sublist.refl _
  | release id run ending rest => exact .inl (List.nil_sublist _)
  | _ => exact .inl (List.Sublist.refl _)

/-- After a step the numbers are among those before, or the next one has been added. -/
theorem runs_turn {top : Frame σ} {rest new : List (Frame σ)} (h : Turn e top rest e' new)
    (pre post : List (Frame σ)) :
    ((pre ++ new ++ post).filterMap Frame.run?).Sublist
        ((pre ++ top :: post).filterMap Frame.run?) ∨
      e' = e.enter.1 ∧ ((pre ++ new ++ post).filterMap Frame.run?).Perm
        (e.nextRun :: (pre ++ top :: post).filterMap Frame.run?) := by
  have hbefore : (pre ++ top :: post).filterMap Frame.run? =
      pre.filterMap Frame.run? ++ (top.run?.toList ++ post.filterMap Frame.run?) := by
    rw [List.filterMap_append, List.filterMap_cons]
    cases top.run? <;> rfl
  rw [hbefore, List.filterMap_append, List.filterMap_append, List.append_assoc]
  rcases runs_of_turn h with hsub | ⟨id, rfl, rfl, rfl⟩
  · exact .inl ((hsub.append_right _).append_left _)
  · exact .inr ⟨rfl, List.perm_middle⟩

theorem nextRun_turn {top : Frame σ} {rest new : List (Frame σ)} (h : Turn e top rest e' new) :
    e.nextRun ≤ e'.nextRun := by
  rcases Engine.inherits_turn h with hinherits | ⟨id, -, rfl⟩ | ⟨id, run, n, -, -, -, rfl⟩
  · exact Nat.le_of_eq hinherits.nextRun.symm
  · exact Nat.le_succ _
  · exact Nat.le_refl _

/-- The run numbers after a step are still distinct, and below the next one. -/
theorem distinct_turn {top : Frame σ} {rest new pre post : List (Frame σ)}
    (hdistinct : ((pre ++ top :: post).filterMap Frame.run?).Nodup)
    (hbelow : ∀ run ∈ (pre ++ top :: post).filterMap Frame.run?, run < e.nextRun)
    (h : Turn e top rest e' new) :
    ((pre ++ new ++ post).filterMap Frame.run?).Nodup ∧
      ∀ run ∈ (pre ++ new ++ post).filterMap Frame.run?, run < e'.nextRun := by
  rcases runs_turn h pre post with hsub | ⟨rfl, hperm⟩
  · exact ⟨hsub.nodup hdistinct,
      fun run hrun => Nat.lt_of_lt_of_le (hbelow run (hsub.subset hrun)) (nextRun_turn h)⟩
  · rw [hperm.nodup_iff, List.nodup_cons]
    refine ⟨⟨fun hmem => Nat.lt_irrefl _ (hbelow _ hmem), hdistinct⟩, fun run hrun => ?_⟩
    rcases List.mem_cons.1 (hperm.subset hrun) with rfl | hrun
    · exact Nat.lt_succ_self _
    · exact Nat.lt_succ_of_lt (hbelow run hrun)

omit [NodeState σ] in
/-- The progress of a computation is no concern of the numbers. -/
theorem runs_progress (pre post : List (Frame σ)) (id : NodeId) (run epoch : Nat)
    (d : Definition σ) (context : Context σ) (c c₀ : Computation) :
    (pre ++ .run id (.computing run epoch d context c) :: post).filterMap Frame.run? =
      (pre ++ .run id (.computing run epoch d context c₀) :: post).filterMap Frame.run? := by
  rw [List.filterMap_append, List.filterMap_append]
  rfl

omit [NodeState σ] in
theorem runs_idle (frames : List (Frame σ)) {idle : List (Frame σ)}
    (h : ∀ f ∈ idle, f.run? = none) :
    (frames ++ idle).filterMap Frame.run? = frames.filterMap Frame.run? := by
  rw [List.filterMap_append, List.filterMap_eq_nil_iff.2 h, List.append_nil]

/-! ## Levels -/

omit [NodeState σ] in
theorem index_eq_of_run? (hdistinct : (frames.filterMap Frame.run?).Nodup) {i j : Nat}
    {f f' : Frame σ} (hi : frames[i]? = some f) (hj : frames[j]? = some f') {run : Nat}
    (hf : f.run? = some run) (hf' : f'.run? = some run) : i = j := by
  induction frames generalizing i j with
  | nil => cases hi
  | cons a rest ih =>
    have hrest : (rest.filterMap Frame.run?).Nodup :=
      ((List.sublist_cons_self a rest).filterMap _).nodup hdistinct
    -- If one of the two is the first level, the number is not in the rest.
    have hfirst : a.run? = some run → ∀ (k : Nat) (b : Frame σ), rest[k]? = some b →
        b.run? ≠ some run := by
      intro ha k b hb hrun
      rw [List.filterMap_cons, ha, List.nodup_cons] at hdistinct
      exact hdistinct.1 (List.mem_filterMap.2 ⟨b, List.mem_of_getElem? hb, hrun⟩)
    cases i with
    | zero =>
      cases hi
      cases j with
      | zero => rfl
      | succ j => exact absurd hf' (hfirst hf j f' hj)
    | succ i =>
      cases j with
      | zero =>
        cases hj
        exact absurd hf (hfirst hf' i f hi)
      | succ j => rw [ih hrest hi hj]

omit [NodeState σ] in
theorem eq_of_run? (hdistinct : (frames.filterMap Frame.run?).Nodup) {f f' : Frame σ}
    (hf : f ∈ frames) (hf' : f' ∈ frames) {run : Nat} (hrun : f.run? = some run)
    (hrun' : f'.run? = some run) : f = f' := by
  obtain ⟨i, hi⟩ := List.mem_iff_getElem?.1 hf
  obtain ⟨j, hj⟩ := List.mem_iff_getElem?.1 hf'
  obtain rfl := index_eq_of_run? hdistinct hi hj hrun hrun'
  exact Option.some.inj (hi.symm.trans hj)

namespace World

variable {w : World σ}

omit [NodeState σ] in
theorem run?_ne_of_tasks (hdistinct : (w.frames.filterMap Frame.run?).Nodup) {j k : Nat}
    (hjk : j ≠ k) {s s' : Stack σ} (hs : w.tasks[j]? = some s) (hs' : w.tasks[k]? = some s')
    {f f' : Frame σ} (hf : f ∈ s) (hf' : f' ∈ s') {run : Nat} (hrun : f.run? = some run) :
    f'.run? ≠ some run := by
  intro hrun'
  rw [World.frames, List.filterMap_flatten, List.nodup_flatten] at hdistinct
  obtain ⟨hj, rfl⟩ := List.getElem?_eq_some_iff.1 hs
  obtain ⟨hk, rfl⟩ := List.getElem?_eq_some_iff.1 hs'
  have hmem : run ∈ (w.tasks[j]).filterMap Frame.run? := List.mem_filterMap.2 ⟨f, hf, hrun⟩
  have hmem' : run ∈ (w.tasks[k]).filterMap Frame.run? := List.mem_filterMap.2 ⟨f', hf', hrun'⟩
  have hpair := List.pairwise_iff_getElem.1 hdistinct.2
  simp only [List.length_map, List.getElem_map] at hpair
  rcases Nat.lt_or_gt_of_ne hjk with hlt | hlt
  · exact hpair j k hj hk hlt hmem hmem'
  · exact hpair k j hk hj hlt hmem' hmem

omit [NodeState σ] in
theorem run?_ne_of_task (hdistinct : (w.frames.filterMap Frame.run?).Nodup) {j : Nat}
    {top : Frame σ} {rest : Stack σ} (hs : w.tasks[j]? = some (top :: rest)) {f : Frame σ}
    (hf : f ∈ rest) {run : Nat} (hrun : f.run? = some run) : top.run? ≠ some run := by
  intro htop
  rw [World.frames, List.filterMap_flatten, List.nodup_flatten] at hdistinct
  have hmem := List.mem_map_of_mem (List.mem_of_getElem? hs) (f := List.filterMap Frame.run?)
  have hnodup := hdistinct.1 _ hmem
  rw [List.filterMap_cons, htop, List.nodup_cons] at hnodup
  exact hnodup.1 (List.mem_filterMap.2 ⟨f, hf, hrun⟩)

end World

/-! ## All moves -/

/-- Every run that is going on has a number of its own, which the engine has given out. -/
structure Numbered (e : Engine σ) (frames : List (Frame σ)) : Prop where
  distinct : (frames.filterMap Frame.run?).Nodup
  positive : ∀ run ∈ frames.filterMap Frame.run?, 0 < run
  below : ∀ run ∈ frames.filterMap Frame.run?, run < e.nextRun
  next : 0 < e.nextRun

namespace Numbered

omit [NodeState σ] in
theorem nextRun (h : Numbered e frames) (heq : e'.nextRun = e.nextRun) : Numbered e' frames :=
  ⟨h.distinct, h.positive, heq ▸ h.below, heq ▸ h.next⟩

omit [NodeState σ] in
theorem runs {frames' : List (Frame σ)} (h : Numbered e frames)
    (heq : frames'.filterMap Frame.run? = frames.filterMap Frame.run?) : Numbered e frames' :=
  ⟨heq ▸ h.distinct, heq ▸ h.positive, heq ▸ h.below, h.next⟩

theorem turn {top : Frame σ} {rest new pre post : List (Frame σ)}
    (h : Numbered e (pre ++ top :: post)) (hturn : Turn e top rest e' new) :
    Numbered e' (pre ++ new ++ post) := by
  obtain ⟨hdistinct, hbelow⟩ := distinct_turn h.distinct h.below hturn
  refine ⟨hdistinct, fun run hrun => ?_, hbelow, Nat.lt_of_lt_of_le h.next (nextRun_turn hturn)⟩
  rcases runs_turn hturn pre post with hsub | ⟨-, hperm⟩
  · exact h.positive run (hsub.subset hrun)
  · rcases List.mem_cons.1 (hperm.subset hrun) with rfl | hrun
    · exact h.next
    · exact h.positive run hrun

theorem invariant (r : Registry σ) (p : Policy) : Invariant r p (@Numbered σ) where
  start := ⟨List.nodup_nil, nofun, nofun, Nat.one_pos⟩
  same h hsame := h.nextRun hsame.nextRun
  idle h hidle := h.runs (runs_idle _ hidle)
  performed h hperformed := h.nextRun hperformed.stays.nextRun
  turn h hturn := h.turn hturn
  progress c h := h.runs (runs_progress _ _ _ _ _ _ _ c _)

end Numbered

/-- In every world that can be reached each run has a number of its own. -/
theorem World.numbered_after (r : Registry σ) (p : Policy) (moves : List (Move σ)) :
    Numbered (after r p moves).engine (after r p moves).frames :=
  (Numbered.invariant r p).after moves

end Patchbay
