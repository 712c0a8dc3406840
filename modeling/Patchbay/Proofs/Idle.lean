import Patchbay.Bench
import Patchbay.Proofs.Claims
import Patchbay.Proofs.Waking

/-!
# Waiting until all is quiet

Those who save a graph wait first until no run is going on or scheduled, and a run waits for the
end of another one that has a producer. Both look at the engine, and if there is something to
wait for they park until there is notice that something has ended. What is proved here is that
the count they look at is exact, and that no notice is lost between the look and the parking.

In a world an operation changes the graph and gives notice in one move. Here the two are apart,
as they are when the lock on the graph is given back in between: at a station a move that is not
a step of a task leaves its notice owed, and it is given later, with anything in between. The
steps of a task are apart from each other already. A run that schedules others does so in the
step that writes its outputs, while it counts itself.

What is proved here:
  1. `Station.exists_deeds`: all that moves lead to is a station where nothing is owed.
  2. `Station.Kept.after`: the invariant, which no deed breaks.
  3. `Station.waits_exact`: the count is zero exactly if nothing runs and nothing is scheduled, a
     scheduled run keeps it above zero until it is over, and nobody is parked for good.
-/

namespace Patchbay

variable {σ : Type}

/-- A world, with how many of the operations that have changed it have still to give notice. -/
structure Station (σ : Type) where
  world : World σ
  owed : Nat

/-- What can happen at a station. -/
inductive Deed (σ : Type) where
  | act (m : Move σ)
  | tell

namespace World

def withBeat (w : World σ) (beat : Nat) : World σ :=
  { w with engine := { w.engine with beat := beat } }

end World

namespace Station

def new (r : Registry σ) (p : Policy) : Station σ := ⟨.new r p, 0⟩

variable [NodeState σ]

/-- The station after a deed. -/
def next (s : Station σ) : Deed σ → Station σ
  | .act (.step task) => { s with world := s.world.next (.step task) }
  | .act m =>
    let w := s.world.next m
    ⟨w.withBeat s.world.engine.beat, s.owed + (w.engine.beat - s.world.engine.beat)⟩
  | .tell =>
    match s.owed with
    | 0 => s
    | owed + 1 => ⟨s.world.withBeat (s.world.engine.beat + 1), owed⟩

/-- The station after some deeds, without nodes at first. -/
def after (r : Registry σ) (p : Policy) (deeds : List (Deed σ)) : Station σ :=
  deeds.foldl next (new r p)

variable {r : Registry σ} {p : Policy} {s : Station σ}

theorem next_act {m : Move σ} (hm : ∀ task, m ≠ .step task) : s.next (.act m) =
    ⟨(s.world.next m).withBeat s.world.engine.beat,
      s.owed + ((s.world.next m).engine.beat - s.world.engine.beat)⟩ := by
  cases m with
  | step task => exact absurd rfl (hm task)
  | _ => rfl

/-! ## Worlds are stations -/

theorem foldl_tell (w : World σ) (owed : Nat) :
    (List.replicate owed (Deed.tell (σ := σ))).foldl next ⟨w, owed⟩ =
      ⟨w.withBeat (w.engine.beat + owed), 0⟩ := by
  induction owed generalizing w with
  | zero => rfl
  | succ n ih =>
    have hstep : (Station.mk w (n + 1)).next .tell = ⟨w.withBeat (w.engine.beat + 1), n⟩ := rfl
    rw [List.replicate_succ, List.foldl_cons, hstep, ih]
    simp only [World.withBeat, Nat.add_assoc, Nat.add_comm 1 n]

theorem beat_le_next (w : World σ) (m : Move σ) : w.engine.beat ≤ (w.next m).engine.beat := by
  have hgoes := w.goes_next m
  generalize w.next m = w' at hgoes ⊢
  cases hgoes with
  | edited _ e h hstep =>
    rcases h.notices with hlt | ⟨heq, -⟩
    · exact Nat.le_of_lt hlt
    · exact Nat.le_of_eq heq.symm
  | stepped task top rest new e hs hstep hturn =>
    have hbeat : w.engine.beat ≤ e.beat := Engine.beat_le_turn hturn
    exact hbeat
  | _ => exact Nat.le_refl _

/-- What a move leads to, some deeds lead to as well: the move, and its notice if there is one. -/
theorem exists_deeds_next (w : World σ) (m : Move σ) :
    ∃ deeds : List (Deed σ), deeds.foldl next ⟨w, 0⟩ = ⟨w.next m, 0⟩ := by
  by_cases hm : ∃ task, m = .step task
  · obtain ⟨task, rfl⟩ := hm
    exact ⟨[.act (.step task)], rfl⟩
  · have hm : ∀ task, m ≠ .step task := fun task heq => hm ⟨task, heq⟩
    have hbeat := beat_le_next w m
    refine ⟨.act m :: List.replicate ((w.next m).engine.beat - w.engine.beat) .tell, ?_⟩
    rw [List.foldl_cons, next_act hm, Nat.zero_add, foldl_tell]
    congr 1
    simp only [World.withBeat]
    rw [Nat.add_sub_cancel' hbeat]

/-- Every world that can be reached is a station that can be reached, with nothing owed. -/
theorem exists_deeds (r : Registry σ) (p : Policy) (moves : List (Move σ)) :
    ∃ deeds, after r p deeds = ⟨World.after r p moves, 0⟩ := by
  suffices h : ∀ w : World σ, ∃ deeds : List (Deed σ),
      deeds.foldl next ⟨w, 0⟩ = ⟨moves.foldl World.next w, 0⟩ from h (.new r p)
  intro w
  induction moves generalizing w with
  | nil => exact ⟨[], rfl⟩
  | cons m rest ih =>
    obtain ⟨first, hfirst⟩ := exists_deeds_next w m
    obtain ⟨others, hothers⟩ := ih (w.next m)
    refine ⟨first ++ others, ?_⟩
    rw [List.foldl_append, hfirst, hothers, List.foldl_cons]

end Station

/-! ## The count -/

namespace World

variable {w : World σ}

/-- The count is that of the levels that count, and of what has been scheduled and not collected. -/
def Tallied (w : World σ) : Prop :=
  w.engine.inFlight = w.frames.countP Frame.counts + w.engine.scheduled.length

theorem countP_background (ids : List NodeId) :
    ((ids.map (Stack.background (σ := σ))).flatten).countP Frame.counts = ids.length := by
  induction ids with
  | nil => rfl
  | cons id rest ih =>
    rw [List.map_cons, List.flatten_cons, List.countP_append, ih, List.length_cons, Nat.add_comm]
    rfl

theorem Tallied.collect (h : w.Tallied) : w.collect.Tallied := by
  have hframes := w.frames_collect_eq
  unfold Tallied at h ⊢
  rw [hframes, List.countP_append, countP_background]
  exact h

variable [NodeState σ]

theorem Tallied.next (h : w.Tallied) (hcollected : w.engine.scheduled = []) (m : Move σ) :
    (w.next m).Tallied := by
  have hnone : w.engine.scheduled.length = 0 := by rw [hcollected, List.length_nil]
  have hadd : ∀ s : Stack σ, s.countP Frame.counts = 0 →
      World.Tallied { w with tasks := w.tasks ++ [s] } := by
    intro s hs
    unfold Tallied at h ⊢
    rw [frames, List.flatten_append, List.countP_append, List.flatten_singleton, hs]
    exact h
  have hgoes := w.goes_next m
  generalize w.next m = w' at hgoes ⊢
  cases hgoes with
  | nothing => exact h
  | edited _ e hperformed hstep =>
    refine Tallied.collect ?_
    have htally := hperformed.tally
    unfold Tallied at h ⊢
    show e.inFlight = w.frames.countP Frame.counts + e.scheduled.length
    omega
  | started id => exact hadd _ rfl
  | waited t => exact hadd _ rfl
  | delivered task c =>
    have hsame : (w.next (.deliver task c)).frames.countP Frame.counts =
        w.frames.countP Frame.counts := by
      rcases w.frames_deliver task c with hsame |
        ⟨pre, id, run, epoch, d, context, c₀, post, hframes, hframes'⟩
      · rw [hsame]
      · rw [hframes, hframes', List.countP_append, List.countP_append, List.countP_cons,
          List.countP_cons]
        rfl
    unfold Tallied at h ⊢
    exact h.trans (congrArg (· + w.engine.scheduled.length) hsame.symm)
  | stepped task top rest new e hs hstep hturn =>
    refine Tallied.collect ?_
    obtain ⟨pre, post, hframes, hset⟩ := frames_of_getElem? hs
    have hcounted : top.counts = true → 0 < w.engine.inFlight := by
      intro hcounts
      have htop : top ∈ w.frames := mem_frames hs List.mem_cons_self
      have hpos := List.countP_pos_iff.2 ⟨top, htop, hcounts⟩
      unfold Tallied at h
      omega
    have htally := Engine.tally_turn hturn hcollected hcounted
    have hone : (if top.counts = true then 1 else 0) = top.counts.toNat := by
      cases top.counts <;> rfl
    unfold Tallied at h ⊢
    rw [hframes] at h
    rw [frames, hset]
    simp only [List.countP_append, List.countP_cons, hone, hnone] at h ⊢
    omega

theorem Tallied.foldl (h : w.Tallied) (hcollected : w.engine.scheduled = [])
    (moves : List (Move σ)) :
    (moves.foldl World.next w).Tallied ∧ (moves.foldl World.next w).engine.scheduled = [] := by
  induction moves generalizing w with
  | nil => exact ⟨h, hcollected⟩
  | cons m rest ih => exact ih (h.next hcollected m) (collected_next hcollected m)

end World

/-! ## Errands -/

/-- A task that the engine has scheduled: its run is still to come or going on, or it has given up
its place in the count, or it is over. -/
def Stack.Errand (s : Stack σ) : Prop :=
  (∃ inner, s = inner ++ [.errand false]) ∨ s = [.errand true] ∨ s = []

namespace Stack

theorem errand_background (id : NodeId) : (Stack.background id : Stack σ).Errand :=
  .inl ⟨[.run id .entering], rfl⟩

theorem Errand.proceed {s : Stack σ} (h : s.Errand) (c : Computation) :
    (Stack.proceed c s).Errand := by
  unfold Stack.proceed
  split
  · rename_i id run epoch d context c₀ rest
    rcases h with ⟨inner, heq⟩ | heq | heq
    · cases inner with
      | nil => cases heq
      | cons f inner =>
        obtain ⟨-, rfl⟩ := List.cons.inj heq
        exact .inl ⟨_ :: inner, rfl⟩
    · cases heq
    · cases heq
  · exact h

variable [NodeState σ] {e e' : Engine σ} {top : Frame σ} {rest new : List (Frame σ)}

theorem Errand.turn (h : Stack.Errand (top :: rest)) (hturn : Turn e top rest e' new) :
    Stack.Errand (new ++ rest) := by
  rcases h with ⟨inner, heq⟩ | heq | heq
  · cases inner with
    | nil =>
      obtain ⟨rfl, rfl⟩ := List.cons.inj heq
      cases hturn with
      | pass top rest e' new hpass =>
        cases hpass with
        | giveUp rest => exact .inr (.inl rfl)
    | cons f inner =>
      obtain ⟨-, rfl⟩ := List.cons.inj heq
      exact .inl ⟨new ++ inner, (List.append_assoc _ _ _).symm⟩
  · obtain ⟨rfl, rfl⟩ := List.cons.inj heq
    cases hturn with
    | pass top rest e' new hpass =>
      cases hpass with
      | forget rest => exact .inr (.inr rfl)
  · cases heq

end Stack

/-! ## All deeds -/

namespace Station

variable [NodeState σ] {r : Registry σ} {p : Policy} {s : Station σ}

/-- What holds of every station that can be reached: the engine keeps nothing that it has
scheduled to itself, the count is exact, and no wait has missed what it waits for. -/
structure Kept (s : Station σ) : Prop where
  collected : s.world.engine.scheduled = []
  tallied : s.world.Tallied
  attends : ∀ t, Attends s.world.engine s.world.frames s.owed t

omit [NodeState σ] in
theorem kept_new (r : Registry σ) (p : Policy) : (new r p).Kept :=
  ⟨rfl, rfl, fun _ _ hwait => by cases hwait⟩

theorem attends_performed {e e' : Engine σ} {frames : List (Frame σ)} {owed : Nat} {m : Move σ}
    {t : Target} (hperformed : e.Performed m e') (hscheduled : e.scheduled = [])
    (h : Attends e frames owed t) :
    Attends { e' with beat := e.beat } frames (owed + (e'.beat - e.beat)) t := by
  have htally := hperformed.tally
  rw [hscheduled, List.length_nil] at htally
  intro watch hwait
  have hwatch := h watch hwait
  cases watch with
  | starting => trivial
  | looking seen => exact hwatch
  | parked seen =>
    refine ⟨hwatch.1, fun hseen => ?_⟩
    have hdue := hwatch.2 hseen
    cases t with
    | node id =>
      rcases hdue with hclaimed | hwakes | howed
      · -- An operation that ends the claim gives notice, and that is owed from now on.
        rcases hperformed.notices with hlt | ⟨-, hkept⟩
        · exact .inr (.inr (by omega))
        · exact .inl (hkept id hclaimed)
      · exact .inr (.inl hwakes)
      · exact .inr (.inr (by omega))
    | all =>
      refine Or.imp_left (fun hpos => ?_) hdue
      show 0 < e'.inFlight
      omega

omit [NodeState σ] in
theorem not_wait_background {t : Target} {watch : Watch} {ids : List NodeId} :
    Frame.wait t watch ∉ (ids.map (Stack.background (σ := σ))).flatten := by
  intro hwait
  obtain ⟨s, hs, hwait⟩ := List.mem_flatten.1 hwait
  obtain ⟨id, -, rfl⟩ := List.mem_map.1 hs
  simp [Stack.background] at hwait

/-- A step of a task leaves nothing owed that was not, and nobody misses it. -/
theorem attends_step (h : s.Kept) (task : Nat) (t : Target) :
    Attends (s.world.next (.step task)).engine (s.world.next (.step task)).frames s.owed t := by
  have hgoes := s.world.goes_next (.step task)
  generalize s.world.next (.step task) = w' at hgoes ⊢
  cases hgoes with
  | nothing => exact h.attends t
  | edited _ e hperformed hstep => exact absurd rfl (hstep task)
  | stepped _ top rest new e hs hstep hturn =>
    obtain ⟨pre, post, hframes, hset⟩ := World.frames_of_getElem? hs
    have hbefore := h.attends t
    have htallied := h.tallied
    unfold World.Tallied at htallied
    rw [hframes, List.append_assoc, List.cons_append] at hbefore
    have hcounted : top.counts = true → 0 < s.world.engine.inFlight := by
      intro hcounts
      have htop : top ∈ s.world.frames := by simp [hframes]
      have hpos := List.countP_pos_iff.2 ⟨top, htop, hcounts⟩
      omega
    have hafter := hbefore.turn hturn fun hbeat hdue => by
      cases t with
      | node id => exact hdue.turn_node hturn hbeat
      | all => exact hdue.turn_all hturn h.collected hcounted hbeat
    rw [World.frames_collect_eq]
    refine Attends.append ?_ fun watch hwait => absurd hwait not_wait_background
    rw [World.frames, hset, ← List.append_assoc, List.append_assoc _ rest post]
    exact hafter

theorem attends_act (h : s.Kept) {m : Move σ} (hm : ∀ task, m ≠ .step task) (t : Target) :
    Attends ((s.world.next m).withBeat s.world.engine.beat).engine (s.world.next m).frames
      (s.owed + ((s.world.next m).engine.beat - s.world.engine.beat)) t := by
  have hsame : s.owed + (s.world.engine.beat - s.world.engine.beat) = s.owed := by omega
  have hadd : ∀ s' : Stack σ, (∀ watch, Frame.wait t watch ∈ s' → watch = .starting) →
      Attends s.world.engine (World.frames { s.world with tasks := s.world.tasks ++ [s'] })
        s.owed t := by
    intro s' hs'
    rw [World.frames, List.flatten_append, List.flatten_singleton]
    exact (h.attends t).append hs'
  have hgoes := s.world.goes_next m
  generalize s.world.next m = w' at hgoes ⊢
  cases hgoes with
  | nothing =>
    rw [hsame]
    exact h.attends t
  | edited _ e hperformed hstep =>
    rw [World.frames_collect_eq]
    have hattends := attends_performed hperformed h.collected (h.attends t)
    exact hattends.append fun watch hwait => absurd hwait not_wait_background
  | started id =>
    rw [hsame]
    exact hadd _ fun watch hwait => by simp [Stack.execution] at hwait
  | waited t' =>
    rw [hsame]
    refine hadd _ fun watch hwait => ?_
    cases List.mem_singleton.1 hwait
    rfl
  | delivered task c =>
    rw [hsame]
    have hbefore := h.attends t
    rcases s.world.frames_deliver task c with hframes |
      ⟨pre, id, run, epoch, d, context, c₀, post, hframes, hframes'⟩
    · rw [← hframes] at hbefore
      exact hbefore
    · rw [hframes] at hbefore
      have hafter := hbefore.proceed c
      rw [← hframes'] at hafter
      exact hafter
  | stepped task top rest new e hs hstep hturn => exact absurd rfl (hm task)

theorem Kept.next (h : s.Kept) (d : Deed σ) : (s.next d).Kept := by
  cases d with
  | tell =>
    unfold Station.next
    cases howed : s.owed with
    | zero => exact h
    | succ owed => exact ⟨h.collected, h.tallied, fun t => (h.attends t).notify owed⟩
  | act m =>
    have hcollected := World.collected_next h.collected m
    have htallied := h.tallied.next h.collected m
    -- A step gives its notice at once; what an operation has to say is owed.
    by_cases hm : ∃ task, m = .step task
    · obtain ⟨task, rfl⟩ := hm
      exact ⟨hcollected, htallied, attends_step h task⟩
    · have hm : ∀ task, m ≠ .step task := fun task heq => hm ⟨task, heq⟩
      rw [next_act hm]
      exact ⟨hcollected, htallied, attends_act h hm⟩

theorem Kept.foldl (h : s.Kept) (deeds : List (Deed σ)) : (deeds.foldl Station.next s).Kept := by
  induction deeds generalizing s with
  | nil => exact h
  | cons d rest ih => exact ih (h.next d)

theorem Kept.after (r : Registry σ) (p : Policy) (deeds : List (Deed σ)) : (after r p deeds).Kept :=
  (kept_new r p).foldl deeds

omit [NodeState σ] in
/-- The count is zero exactly if nothing counts and nothing is scheduled. -/
theorem Kept.inFlight_eq_zero (h : s.Kept) : s.world.engine.inFlight = 0 ↔
    (∀ f ∈ s.world.frames, f.counts = false) ∧ s.world.engine.scheduled = [] := by
  have htallied := h.tallied
  unfold World.Tallied at htallied
  rw [htallied, h.collected, List.length_nil, Nat.add_zero, List.countP_eq_zero]
  simp

/-- A task that the engine has scheduled stays one, whatever happens. -/
theorem errand_next {j : Nat} {t : Stack σ} (ht : s.world.tasks[j]? = some t) (herrand : t.Errand)
    (d : Deed σ) : ∃ t', (s.next d).world.tasks[j]? = some t' ∧ t'.Errand := by
  have hworld : ∀ m, ∃ t', (s.world.next m).tasks[j]? = some t' ∧ t'.Errand := by
    intro m
    obtain ⟨t', ht', hfollows⟩ := World.follows_next ht m
    refine ⟨t', ht', ?_⟩
    cases hfollows with
    | same m => exact herrand
    | delivered c => exact herrand.proceed c
    | stepped top rest new e hs hstep hturn =>
      subst hs
      exact herrand.turn hturn
  cases d with
  | tell =>
    unfold Station.next
    cases s.owed with
    | zero => exact ⟨t, ht, herrand⟩
    | succ owed => exact ⟨t, ht, herrand⟩
  | act m =>
    by_cases hm : ∃ task, m = .step task
    · obtain ⟨task, rfl⟩ := hm
      exact hworld _
    · have hm : ∀ task, m ≠ .step task := fun task heq => hm ⟨task, heq⟩
      rw [next_act hm]
      exact hworld m

theorem errand_foldl {j : Nat} {t : Stack σ} (ht : s.world.tasks[j]? = some t)
    (herrand : t.Errand) (deeds : List (Deed σ)) :
    ∃ t', (deeds.foldl Station.next s).world.tasks[j]? = some t' ∧ t'.Errand := by
  induction deeds generalizing s t with
  | nil => exact ⟨t, ht, herrand⟩
  | cons d rest ih =>
    obtain ⟨t', ht', herrand'⟩ := errand_next ht herrand d
    exact ih ht' herrand'

omit [NodeState σ] in
/-- As long as a scheduled run is not over, the count is not zero. -/
theorem Kept.errand_over (h : s.Kept) {j : Nat} {t : Stack σ} (ht : s.world.tasks[j]? = some t)
    (herrand : t.Errand) (hzero : s.world.engine.inFlight = 0) : t = [.errand true] ∨ t = [] := by
  rcases herrand with ⟨inner, rfl⟩ | hover
  · have hmem : Frame.errand false ∈ s.world.frames :=
      World.mem_frames ht (List.mem_append_right _ List.mem_cons_self)
    cases (h.inFlight_eq_zero.1 hzero).1 _ hmem
  · exact hover

/-- Whatever happens on an engine without nodes, with any tasks and waits, edits and restorations:
the count is zero exactly if no run goes on and none is scheduled; the runs that a step schedules
keep it from zero until each of them is over; who waits for all runs and is parked has one still to
come to its end, or to say so; and who waits for a node and is parked has the node still claimed,
or the end of the claim still to be said, by a run or by an operation. -/
theorem waits_exact (r : Registry σ) (p : Policy) (deeds : List (Deed σ)) :
    let s := after r p deeds
    (s.world.engine.inFlight = 0 ↔
      (∀ f ∈ s.world.frames, f.counts = false) ∧ s.world.engine.scheduled = []) ∧
    (∀ (task : Nat) (t : Stack σ) (e : Engine σ) (t' : Stack σ), s.world.tasks[task]? = some t →
      s.world.engine.step t = some (e, t') →
      ∀ (i : Nat) (c : NodeId), e.scheduled[i]? = some c →
        let s₁ := s.next (.act (.step task))
        let j := s.world.tasks.length + i
        s₁.world.tasks[j]? = some (.background c) ∧
        ∀ later : List (Deed σ), let s₂ := later.foldl next s₁
          s₂.world.engine.inFlight = 0 →
            s₂.world.tasks[j]? = some [.errand true] ∨ s₂.world.tasks[j]? = some []) ∧
    (∀ seen, Frame.wait .all (.parked seen) ∈ s.world.frames → seen = s.world.engine.beat →
      0 < s.world.engine.inFlight ∨ ∃ f ∈ s.world.frames, f.Parts) ∧
    (∀ id seen, Frame.wait (.node id) (.parked seen) ∈ s.world.frames →
      seen = s.world.engine.beat →
        (∃ n, s.world.engine.graph.node? id = some n ∧ n.claimed = true) ∨
        (∃ f ∈ s.world.frames, f.Wakes id) ∨ 0 < s.owed) := by
  intro s
  have hkept : s.Kept := .after r p deeds
  refine ⟨hkept.inFlight_eq_zero, ?_, ?_, ?_⟩
  · intro task t e t' ht hstep i c hc s₁ j
    have hscheduled : s₁.world.tasks[j]? = some (.background c) :=
      World.getElem?_scheduled ht hstep hc
    refine ⟨hscheduled, fun later => ?_⟩
    intro s₂ hzero
    obtain ⟨t₂, ht₂, herrand⟩ := errand_foldl hscheduled (Stack.errand_background c) later
    have hkept₂ : s₂.Kept := (hkept.next _).foldl later
    rw [ht₂]
    exact (hkept₂.errand_over ht₂ herrand hzero).imp (congrArg some) (congrArg some)
  · intro seen hwait hseen
    exact (hkept.attends .all _ hwait).2 hseen
  · intro id seen hwait hseen
    rcases (hkept.attends (.node id) _ hwait).2 hseen with ⟨run, n, hn, hclaimed, -⟩ | hother
    · exact .inl ⟨n, hn, hclaimed⟩
    · exact .inr hother

end Station

namespace Bench

/-- Connections run their sink. While the run of `x` that the engine has scheduled goes on, one
task waits for all runs and one for that of `x`; then `x` is removed, and the notice is not given
yet. -/
def parking : List (Deed BenchNode) :=
  [.create "m" "gated", .create "x" "gated", .connect ⟨"m", "output"⟩ ⟨"x", "input"⟩,
    .wait .all, .wait (.node "x"), .step 0, .step 0, .step 1, .step 1, .step 2, .step 2,
    .remove "x"].map .act

/-- The wait that is all of a task, if it is parked: the node that it is for, if it is for one, and
the beat that was seen. -/
def parkedFor? : Stack BenchNode → Option (Option NodeId × Nat)
  | [.wait .all (.parked seen)] => some (none, seen)
  | [.wait (.node id) (.parked seen)] => some (some id, seen)
  | _ => none

theorem parkedFor?_eq_some {s : Stack BenchNode} {node : Option NodeId} {seen : Nat}
    (h : parkedFor? s = some (node, seen)) :
    s = [.wait (node.elim .all .node) (.parked seen)] := by
  unfold parkedFor? at h
  split at h
  · cases h
    rfl
  · cases h
    rfl
  · cases h

/-- Both waits are parked and have seen everything: the run still counts, and the removal has
still to give notice. -/
theorem waits_exact_parking :
    let s := Station.after (registry {}) { autoRunOnConnect := true } parking
    s.world.tasks[1]? = some [.wait .all (.parked s.world.engine.beat)] ∧
    s.world.tasks[2]? = some [.wait (.node "x") (.parked s.world.engine.beat)] ∧
    (0 < s.world.engine.inFlight ∨ ∃ f ∈ s.world.frames, f.Parts) ∧
    ((∃ n, s.world.engine.graph.node? "x" = some n ∧ n.claimed = true) ∨
      (∃ f ∈ s.world.frames, f.Wakes "x") ∨ 0 < s.owed) := by
  intro s
  have hparked : ∀ {j : Nat} {node : Option NodeId} {seen : Nat},
      s.world.tasks[j]?.bind parkedFor? = some (node, seen) →
        s.world.tasks[j]? = some [.wait (node.elim .all .node) (.parked seen)] := by
    intro j node seen h
    obtain ⟨t, ht, hseen⟩ := Option.bind_eq_some_iff.1 h
    rw [ht, parkedFor?_eq_some hseen]
  have hall : s.world.tasks[1]? = some [.wait .all (.parked s.world.engine.beat)] :=
    @hparked 1 none _ (by decide +kernel)
  have hnode : s.world.tasks[2]? = some [.wait (.node "x") (.parked s.world.engine.beat)] :=
    @hparked 2 (some "x") _ (by decide +kernel)
  have hframe : ∀ {j : Nat} {f : Frame BenchNode}, s.world.tasks[j]? = some [f] →
      f ∈ s.world.frames := fun hj =>
    World.mem_frames hj List.mem_cons_self
  obtain ⟨-, -, hidle, hfree⟩ := Station.waits_exact (registry {}) { autoRunOnConnect := true } parking
  exact ⟨hall, hnode, hidle _ (hframe hall) rfl, hfree "x" _ (hframe hnode) rfl⟩

end Bench

end Patchbay
