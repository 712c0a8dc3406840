import Patchbay.Proofs.Endurance
import Patchbay.Proofs.Progress

/-!
# Counts and beats

The engine counts the runs that are going on or scheduled, and it counts the occasions on which
those who wait have to look again. What is proved here is what each step does to both numbers,
and that neither a claim ends nor a run stops being counted without someone who has still to
announce it. Nothing is assumed of the node types.

A wait is about its target only, so everything about waits is said of one target at a time.

What is proved here:
  1. `Engine.tally_turn`, `Engine.Performed.tally`: the count follows the levels that count.
  2. `Engine.claimed_turn`, `Engine.Performed.notices`: no claim ends unannounced.
  3. `Attends.turn`: a wait that is parked has missed nothing after a step either.
-/

namespace Patchbay

variable {σ : Type}

/-! ## Levels -/

namespace Frame

/-- The level stands for one unit of the engine's count. -/
def counts : Frame σ → Bool
  | .run _ (.claiming _) | .run _ (.listing _) | .run _ (.pulling _ _)
  | .run _ (.computing _ _ _ _ _) | .run _ (.releasing _ _) | .run _ (.announcing _)
  | .run _ (.leaving _) | .errand false => true
  | _ => false

/-- The run on this level has given up its node, or is about to, and has still to say so. -/
def Wakes (id : NodeId) : Frame σ → Prop
  | .run m (.releasing _ _) | .run m (.announcing _) => m = id
  | _ => False

/-- The level does not count any more, and that has still to be said. -/
def Parts : Frame σ → Prop
  | .run _ (.parting _) | .errand true => True
  | _ => False

end Frame

/-- What a wait for the target waits for is still to come, or has still to be announced: by the
level of a run, or by one of the notices that are owed. -/
def Due (e : Engine σ) (frames : List (Frame σ)) (owed : Nat) : Target → Prop
  | .node id => e.graph.IsClaimed id ∨ (∃ f ∈ frames, f.Wakes id) ∨ 0 < owed
  | .all => 0 < e.inFlight ∨ ∃ f ∈ frames, f.Parts

/-- No wait for the target has seen more than there was, and one that is parked and has seen
everything has what it waits for still due. -/
def Attends (e : Engine σ) (frames : List (Frame σ)) (owed : Nat) (t : Target) : Prop :=
  ∀ watch, Frame.wait t watch ∈ frames → match watch with
    | .starting => True
    | .looking seen => seen ≤ e.beat
    | .parked seen => seen ≤ e.beat ∧ (seen = e.beat → Due e frames owed t)

theorem Graph.isClaimed_of_rel {g g' : Graph σ} {id : NodeId}
    (h : Option.Rel Node.Abides (g.node? id) (g'.node? id)) (hclaimed : g.IsClaimed id) :
    g'.IsClaimed id := by
  obtain ⟨run, n, hn, hclaimed, hrun⟩ := hclaimed
  obtain ⟨n', hn', habides⟩ := exists_of_rel h hn
  exact ⟨run, n', hn', habides.claimed.trans hclaimed, habides.run.trans hrun⟩

/-! ## Tallies -/

namespace Engine

variable {e e' : Engine σ}

theorem inFlight_scheduleAll (e : Engine σ) (ids : List NodeId) :
    (e.scheduleAll ids).inFlight = e.inFlight + ids.length := by
  induction ids generalizing e with
  | nil => rfl
  | cons id rest ih =>
    have hrest := ih (e.schedule id)
    simp only [scheduleAll, List.foldl_cons, schedule, List.length_cons] at hrest ⊢
    omega

theorem scheduled_scheduleAll (e : Engine σ) (ids : List NodeId) :
    (e.scheduleAll ids).scheduled = e.scheduled ++ ids := by
  induction ids generalizing e with
  | nil => exact (List.append_nil _).symm
  | cons id rest ih =>
    have hrest := ih (e.schedule id)
    simp only [scheduleAll, List.foldl_cons, schedule] at hrest ⊢
    rw [hrest, List.append_assoc]
    rfl

theorem beat_scheduleAll (e : Engine σ) (ids : List NodeId) :
    (e.scheduleAll ids).beat = e.beat := by
  induction ids generalizing e with
  | nil => rfl
  | cons id rest ih => exact ih (e.schedule id)

variable [NodeState σ] {top : Frame σ} {rest new : List (Frame σ)}

/-- A step counts what it begins and schedules, and no longer what it ends. -/
theorem tally_turn (hturn : Turn e top rest e' new) (hscheduled : e.scheduled = [])
    (hcounted : top.counts = true → 0 < e.inFlight) :
    e'.inFlight + top.counts.toNat =
      e.inFlight + new.countP Frame.counts + e'.scheduled.length := by
  have hnone : e.scheduled.length = 0 := by rw [hscheduled, List.length_nil]
  cases hturn with
  | finish id run epoch rest n d context outputs hn hrun hclaimed =>
    rw [commitOutputs, inFlight_scheduleAll, scheduled_scheduleAll, List.length_append]
    simp [emit, withGraph, Frame.counts, hnone]
    omega
  | pass top rest e' new hpass =>
    cases hpass with
    | quit id run phase rest e' ending hsame hbeat hphase hend hlost htally =>
      rw [htally.1, htally.2]
      rcases hphase with rfl | ⟨epoch, d, context, result, rfl⟩ <;> simp [Frame.counts, hnone]
    | leave id ending rest =>
      have hpos := hcounted rfl
      simp [leave, Frame.counts, hnone]
      omega
    | giveUp rest =>
      have hpos := hcounted rfl
      simp [leave, Frame.counts, hnone]
      omega
    | _ => simp [notify, Frame.counts, hnone]
  | enter id rest =>
    simp [enter, Frame.counts, hnone]
  | _ => simp [emit, withGraph, commitFailure, release, Frame.counts, hnone]

theorem Performed.tally {m : Move σ} (h : e.Performed m e') :
    e'.inFlight + e.scheduled.length = e.inFlight + e'.scheduled.length := by
  cases h with
  | nothing m => rfl
  | created m e' id state h =>
    obtain ⟨-, -, rfl⟩ := createWith_eq_ok h
    rfl
  | removed e' id cs h =>
    obtain ⟨-, rfl⟩ := remove_accounts h
    rfl
  | updated e' id edit ids h =>
    obtain ⟨n, d, -, -, ⟨-, rfl⟩ | ⟨-, hreplace⟩⟩ := update_eq_ok h
    · rfl
    · obtain ⟨g, changed, others, -, -, rfl⟩ := replaceState_accounts hreplace
      rfl
  | marked e' id ids h =>
    obtain ⟨-, rfl⟩ := markStale_accounts h
    rfl
  | connected e' source sink c h =>
    obtain ⟨-, -, w, -, rfl⟩ := connect_eq_ok h
    split
    · simp only [schedule, rewire, emit, withGraph, List.length_append, List.length_singleton]
      omega
    · rfl
  | disconnected e' source sink c h =>
    obtain ⟨-, w, -, rfl⟩ := disconnect_eq_ok h
    rfl
  | restored e' s h =>
    obtain ⟨g, events, rfl⟩ := exists_graph_of_restore h
    rfl

/-! ## Notices -/

theorem beat_le_turn (hturn : Turn e top rest e' new) : e.beat ≤ e'.beat := by
  cases hturn with
  | finish id run epoch rest n d context outputs hn hrun hclaimed =>
    have hbeat : (e.commitOutputs id n epoch d outputs).beat = e.beat := beat_scheduleAll _ _
    omega
  | pass top rest e' new hpass =>
    cases hpass with
    | quit id run phase rest e' ending hsame hbeat hphase hend hlost htally => omega
    | announce id ending rest => exact Nat.le_succ _
    | part id ending rest => exact Nat.le_succ _
    | forget rest => exact Nat.le_succ _
    | _ => exact Nat.le_refl _
  | _ => exact Nat.le_refl _

/-- Who has still to say that a node is free does so, or has yet to do it. -/
theorem wakes_turn {id : NodeId} (hturn : Turn e top rest e' new) (hwakes : top.Wakes id) :
    (∃ f ∈ new, f.Wakes id) ∨ e.beat < e'.beat := by
  cases hturn with
  | release m run ending rest => exact .inl ⟨_, List.mem_cons_self, hwakes⟩
  | pass top rest e' new hpass =>
    cases hpass with
    | announce m ending rest => exact .inr (Nat.lt_succ_self _)
    | quit m run phase rest e' ending hsame hbeat hphase hend hlost htally =>
      rcases hphase with rfl | ⟨epoch, d, context, result, rfl⟩ <;> cases hwakes
    | _ => cases hwakes
  | _ => cases hwakes

/-- Who has still to say that it does not count any more says so. -/
theorem parts_turn (hturn : Turn e top rest e' new) (hparts : top.Parts) : e.beat < e'.beat := by
  cases hturn with
  | pass top rest e' new hpass =>
    cases hpass with
    | part id ending rest => exact Nat.lt_succ_self _
    | forget rest => exact Nat.lt_succ_self _
    | quit m run phase rest e' ending hsame hbeat hphase hend hlost htally =>
      rcases hphase with rfl | ⟨epoch, d, context, result, rfl⟩ <;> cases hparts
    | _ => cases hparts
  | _ => cases hparts

/-- A level that counts goes on to count, or has then still to say that it does not. -/
theorem counts_turn (hturn : Turn e top rest e' new) (hcounts : top.counts = true) :
    0 < new.countP Frame.counts ∨ ∃ f ∈ new, f.Parts := by
  cases hturn with
  | pass top rest e' new hpass =>
    cases hpass with
    | leave id ending rest => exact .inr ⟨_, List.mem_cons_self, trivial⟩
    | giveUp rest => exact .inr ⟨_, List.mem_cons_self, trivial⟩
    | quit m run phase rest e' ending hsame hbeat hphase hend hlost htally =>
      exact .inl (List.countP_pos_iff.2 ⟨_, List.mem_cons_self, rfl⟩)
    | announce | absent | busy => exact .inl (List.countP_pos_iff.2 ⟨_, List.mem_cons_self, rfl⟩)
    | _ => cases hcounts
  | pull id run p todo rest =>
    exact .inl (List.countP_pos_iff.2 ⟨_, List.mem_cons_of_mem _ List.mem_cons_self, rfl⟩)
  | _ => exact .inl (List.countP_pos_iff.2 ⟨_, List.mem_cons_self, rfl⟩)

/-- A claim ends by a run that has then still to say so. -/
theorem claimed_turn {id : NodeId} (hturn : Turn e top rest e' new)
    (hclaimed : e.graph.IsClaimed id) : e'.graph.IsClaimed id ∨ ∃ f ∈ new, f.Wakes id := by
  by_cases htop : ∃ phase, top = .run id phase
  · -- Every write that ends the claim leaves the run about to release its node.
    obtain ⟨phase, rfl⟩ := htop
    obtain ⟨run, n, hn, hn', hrun⟩ := hclaimed
    cases hturn with
    | claim id run' rest n' hn₁ hfree =>
      rw [hn] at hn₁
      cases hn₁
      exact absurd (hfree.symm.trans hn') Bool.false_ne_true
    | begin id run' rest n' d inputs hn₁ hrun' hd hinputs =>
      refine .inl ⟨run, n.started, ?_, hn', hrun⟩
      exact (Graph.node?_modify_self _ _ _).trans (by rw [hn, Option.map_some])
    | block | finish | fail | release => exact .inr ⟨_, List.mem_cons_self, rfl⟩
    | pass top rest e' new hpass =>
      apply Or.inl
      rw [hpass.same.graph]
      exact ⟨run, n, hn, hn', hrun⟩
    | _ => exact .inl ⟨run, n, hn, hn', hrun⟩
  · have hrel := rel_turn Node.robust_abides hturn (m := id) fun m phase heq hid =>
      htop ⟨phase, hid ▸ heq⟩
    exact .inl (Graph.isClaimed_of_rel hrel hclaimed)

theorem Performed.notices {m : Move σ} (h : e.Performed m e') :
    e.beat < e'.beat ∨ e'.beat = e.beat ∧ ∀ id, e.graph.IsClaimed id → e'.graph.IsClaimed id := by
  have habides := Node.editable_abides e.registry
  cases h with
  | nothing m => exact .inr ⟨rfl, fun _ hclaimed => hclaimed⟩
  | created m e' id state h =>
    obtain ⟨-, hnew, rfl⟩ := createWith_eq_ok h
    refine .inr ⟨rfl, fun m hclaimed => ?_⟩
    obtain ⟨run, n, hn, hclaimed⟩ := hclaimed
    exact ⟨run, n, Graph.node?_inserted hnew hn, hclaimed⟩
  | removed e' id cs h =>
    obtain ⟨-, rfl⟩ := remove_accounts h
    exact .inl (Nat.lt_succ_self _)
  | updated e' id edit ids h =>
    refine .inr ⟨?_, fun m => Graph.isClaimed_of_rel (rel_update habides h m)⟩
    obtain ⟨n, d, -, -, ⟨-, rfl⟩ | ⟨-, hreplace⟩⟩ := update_eq_ok h
    · rfl
    · obtain ⟨g, changed, others, -, -, rfl⟩ := replaceState_accounts hreplace
      rfl
  | marked e' id ids h =>
    refine .inr ⟨?_, fun m => Graph.isClaimed_of_rel (rel_markStale habides.toRobust h m)⟩
    obtain ⟨-, rfl⟩ := markStale_accounts h
    rfl
  | connected e' source sink c h =>
    refine .inr ⟨?_, fun m => Graph.isClaimed_of_rel (rel_connect habides.toReactive h m)⟩
    obtain ⟨-, -, w, -, rfl⟩ := connect_eq_ok h
    split
    · rfl
    · rfl
  | disconnected e' source sink c h =>
    obtain ⟨-, w, -, rfl⟩ := disconnect_eq_ok h
    have hrel := rel_rewire habides.toReactive false w c
    exact .inr ⟨rfl, fun m => Graph.isClaimed_of_rel (hrel m)⟩
  | restored e' s h =>
    obtain ⟨g, -, rfl⟩ := exists_graph_of_restore h
    exact .inl (Nat.lt_succ_self _)

end Engine

/-! ## Waits -/

section

variable {e e' : Engine σ} {top : Frame σ} {rest new pre post frames frames' idle : List (Frame σ)}
  {owed : Nat} {t : Target}

/-- What is due stays due if everyone who has something to say is still there. -/
theorem Due.mono (h : Due e frames owed t)
    (hsub : ∀ f ∈ frames, (∃ id, f.Wakes id) ∨ f.Parts → f ∈ frames') : Due e frames' owed t := by
  cases t with
  | node id =>
    refine h.imp_right (Or.imp_left fun hex => ?_)
    obtain ⟨f, hf, hwakes⟩ := hex
    exact ⟨f, hsub f hf (.inl ⟨id, hwakes⟩), hwakes⟩
  | all =>
    refine Or.imp_right (fun hex => ?_) h
    obtain ⟨f, hf, hparts⟩ := hex
    exact ⟨f, hsub f hf (.inr hparts), hparts⟩

theorem Attends.mono (h : Attends e frames owed t)
    (hsub : ∀ f ∈ frames, (∃ id, f.Wakes id) ∨ f.Parts → f ∈ frames')
    (hwaits : ∀ watch, Frame.wait t watch ∈ frames' →
      Frame.wait t watch ∈ frames ∨ watch = .starting) : Attends e frames' owed t := by
  intro watch hwait
  rcases hwaits watch hwait with hwait | rfl
  · have hwatch := h watch hwait
    cases watch with
    | starting => trivial
    | looking seen => exact hwatch
    | parked seen => exact ⟨hwatch.1, fun hseen => (hwatch.2 hseen).mono hsub⟩
  · trivial

theorem Attends.append (h : Attends e frames owed t)
    (hidle : ∀ watch, Frame.wait t watch ∈ idle → watch = .starting) :
    Attends e (frames ++ idle) owed t := by
  refine h.mono (fun f hf _ => List.mem_append_left _ hf) fun watch hwait => ?_
  exact (List.mem_append.1 hwait).imp_right (hidle watch)

/-- The progress of a computation does not concern those who wait. -/
theorem Attends.proceed {id : NodeId} {run epoch : Nat} {d : Definition σ} {context : Context σ}
    {c₀ : Computation} (c : Computation)
    (h : Attends e (pre ++ .run id (.computing run epoch d context c₀) :: post) owed t) :
    Attends e (pre ++ .run id (.computing run epoch d context c) :: post) owed t := by
  refine h.mono (fun f hf hspeaks => ?_) fun watch hwait => .inl ?_
  · simp only [List.mem_append, List.mem_cons] at hf ⊢
    rcases hf with hf | rfl | hf
    · exact .inl hf
    · rcases hspeaks with ⟨m, hwakes⟩ | hparts
      · cases hwakes
      · cases hparts
    · exact .inr (.inr hf)
  · simp only [List.mem_append, List.mem_cons, reduceCtorEq, false_or] at hwait ⊢
    exact hwait

theorem Attends.notify (h : Attends e frames owed t) (owed' : Nat) :
    Attends e.notify frames owed' t := by
  intro watch hwait
  have hwatch := h watch hwait
  have hbeat : e.notify.beat = e.beat + 1 := rfl
  cases watch with
  | starting => trivial
  | looking seen =>
    have hseen : seen ≤ e.beat := hwatch
    show seen ≤ e.notify.beat
    omega
  | parked seen =>
    have hseen : seen ≤ e.beat := hwatch.1
    refine ⟨by omega, fun heq => ?_⟩
    omega

variable [NodeState σ]

theorem Due.turn_node {id : NodeId} (hturn : Turn e top rest e' new) (hbeat : e'.beat = e.beat)
    (h : Due e (pre ++ top :: post) owed (.node id)) :
    Due e' (pre ++ new ++ post) owed (.node id) := by
  have hnew : (∃ f ∈ new, f.Wakes id) → ∃ f ∈ pre ++ new ++ post, f.Wakes id := by
    intro hex
    obtain ⟨f, hf, hwakes⟩ := hex
    exact ⟨f, List.mem_append_left _ (List.mem_append_right _ hf), hwakes⟩
  rcases h with hclaimed | ⟨f, hf, hwakes⟩ | howed
  · rcases Engine.claimed_turn hturn hclaimed with hclaimed | hwakes
    · exact .inl hclaimed
    · exact .inr (.inl (hnew hwakes))
  · simp only [List.mem_append, List.mem_cons] at hf
    rcases hf with hf | rfl | hf
    · exact .inr (.inl ⟨f, by simp [hf], hwakes⟩)
    · rcases Engine.wakes_turn hturn hwakes with hwakes | hlt
      · exact .inr (.inl (hnew hwakes))
      · omega
    · exact .inr (.inl ⟨f, by simp [hf], hwakes⟩)
  · exact .inr (.inr howed)

theorem Due.turn_all (hturn : Turn e top rest e' new) (hscheduled : e.scheduled = [])
    (hcounted : top.counts = true → 0 < e.inFlight) (hbeat : e'.beat = e.beat)
    (h : Due e (pre ++ top :: post) owed .all) : Due e' (pre ++ new ++ post) owed .all := by
  have htally := Engine.tally_turn hturn hscheduled hcounted
  rcases h with hpos | ⟨f, hf, hparts⟩
  · cases hcounts : top.counts with
    | false =>
      rw [hcounts] at htally
      apply Or.inl
      calc 0 < e.inFlight := hpos
        _ ≤ e.inFlight + new.countP Frame.counts + e'.scheduled.length := by omega
        _ = e'.inFlight := htally.symm
    | true =>
      -- Its place in the count passes to a level that it leads to, or is given up, and then the
      -- level that did so has still to say it.
      rw [hcounts] at htally
      rcases Engine.counts_turn hturn hcounts with hnew | ⟨f, hf, hparts⟩
      · apply Or.inl
        have hone : true.toNat = 1 := rfl
        omega
      · exact .inr ⟨f, List.mem_append_left _ (List.mem_append_right _ hf), hparts⟩
  · simp only [List.mem_append, List.mem_cons] at hf
    rcases hf with hf | rfl | hf
    · exact .inr ⟨f, by simp [hf], hparts⟩
    · have hlt := Engine.parts_turn hturn hparts
      omega
    · exact .inr ⟨f, by simp [hf], hparts⟩

/-- A wait that is parked has missed nothing after a step either, if what is due stays due as
long as there is no notice. -/
theorem Attends.turn (h : Attends e (pre ++ top :: post) owed t) (hturn : Turn e top rest e' new)
    (hdue : e'.beat = e.beat → Due e (pre ++ top :: post) owed t →
      Due e' (pre ++ new ++ post) owed t) : Attends e' (pre ++ new ++ post) owed t := by
  have hbeat := Engine.beat_le_turn hturn
  intro watch hwait
  by_cases hnew : Frame.wait t watch ∈ new
  · -- Only three steps leave a wait behind, and the last of them has just looked.
    cases hturn with
    | pass top rest e' new hpass =>
      cases hpass with
      | await m outer phase rest =>
        cases List.mem_singleton.1 hnew
        trivial
      | look t watch rest hwatch =>
        cases List.mem_singleton.1 hnew
        exact Nat.le_refl _
      | park t seen rest hreached =>
        cases List.mem_singleton.1 hnew
        have hseen := h (.looking seen) (List.mem_append_right _ List.mem_cons_self)
        refine ⟨hseen, fun _ => ?_⟩
        cases t with
        | node id =>
          rw [Engine.reached, Bool.eq_false_iff, Ne, Option.all_eq_true] at hreached
          push Not at hreached
          obtain ⟨n, hn, hclaimed⟩ := hreached
          exact .inl ⟨n.run, n, hn, by simpa using hclaimed, rfl⟩
        | all =>
          apply Or.inl
          have hbusy : e.inFlight ≠ 0 := by simpa [Engine.reached, Engine.isIdle] using hreached
          omega
      | _ => simp at hnew
    | _ => simp at hnew
  · have hwait : Frame.wait t watch ∈ pre ++ top :: post := by
      simp only [List.mem_append, List.mem_cons] at hwait ⊢
      tauto
    have hwatch := h watch hwait
    cases watch with
    | starting => trivial
    | looking seen => exact Nat.le_trans hwatch hbeat
    | parked seen =>
      -- If it has seen the present beat, there was no notice in this step either.
      refine ⟨Nat.le_trans hwatch.1 hbeat, fun hseen => ?_⟩
      have hle := hwatch.1
      exact hdue (by omega) (hwatch.2 (by omega))

end

end Patchbay
