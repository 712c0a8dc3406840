import Patchbay.Proofs.Freshness
import Patchbay.Proofs.Ownership

/-!
# Regular worlds

In a world in which no computation is made to go on by force, a computation that is going on is
the one that its node type prescribes. Together with what holds in every world this is what is
known where nothing is restored either.

What is proved here:
  1. `honest_turn`: no step begins another computation.
  2. `World.regular_after`: what is known of every world that can be reached without deliveries
     and restorations.
-/

namespace Patchbay

variable {σ : Type} [NodeState σ] {r : Registry σ} {e e' : Engine σ}

/-! ## Computations -/

/-- A computation on this level is the one that its node type prescribes. -/
def Frame.Honest : Frame σ → Prop
  | .run _ (.computing _ _ d context c) => c = d.compute context
  | _ => True

/-- The answer is what the computation gives. -/
def Answer.Honest (a : Answer σ) : Prop := a.definition.compute a.context = .done a.result

omit [NodeState σ] in
theorem Frame.honest_of_idle {f : Frame σ} (h : f.run? = none) : f.Honest := by
  cases f with
  | run id phase =>
    cases phase with
    | computing run epoch d context c => cases h
    | _ => trivial
  | _ => trivial

omit [NodeState σ] in
theorem Frame.Honest.answer {f : Frame σ} (h : f.Honest) {a : Answer σ}
    (ha : f.answer? = some a) : a.Honest := by
  unfold Frame.answer? at ha
  split at ha
  · cases ha
    exact h.symm
  · cases ha

theorem honest_turn {top : Frame σ} {rest new : List (Frame σ)} (hturn : Turn e top rest e' new) :
    ∀ f ∈ new, f.Honest := by
  cases hturn with
  | begin id run rest n d inputs hn hrun hd hinputs => exact List.forall_mem_singleton.2 rfl
  | pull id run p todo rest =>
    exact List.forall_mem_cons.2 ⟨trivial, List.forall_mem_singleton.2 trivial⟩
  | pass top rest e' new hpass =>
    rcases hpass.new_cases with rfl | ⟨f, rfl, hidle | ⟨id, run, ending, rfl, -⟩⟩
    · exact List.forall_mem_nil _
    · exact List.forall_mem_singleton.2 (Frame.honest_of_idle hidle)
    · exact List.forall_mem_singleton.2 trivial
  | _ => exact List.forall_mem_singleton.2 trivial

/-! ## All moves -/

namespace World

/-- What is known of a world that was reached without deliveries and restorations. -/
structure Regular (r : Registry σ) (p : Policy) (w : World σ) : Prop where
  sound : Sound r w.engine w.frames
  truthful : Truthful r w.engine.graph w.answers
  policy : w.engine.policy = p
  held : Held w.engine.graph w.frames
  honest : ∀ f ∈ w.frames, f.Honest
  answers : ∀ a ∈ w.answers, a.Honest
  collected : w.engine.scheduled = []

variable {w : World σ} {p : Policy}

theorem policy_changed {restoring : Bool} (hr : e.registry.Steady)
    (h : e.Changed restoring e') : e'.policy = e.policy := by
  cases h with
  | edited hedit => exact hedit.policy
  | created id state hcreate =>
    obtain ⟨-, -, rfl⟩ := Engine.createWith_eq_ok hcreate
    rfl
  | restored s hrestoring hrestore => exact (Engine.restore_eq_ok hr hrestore).2.1

theorem collected_next (h : w.engine.scheduled = []) (m : Move σ) :
    (w.next m).engine.scheduled = [] := by
  have hedit : ∀ result : Except Error (Engine σ), (w.edit result).engine.scheduled = [] := by
    intro result
    cases result with
    | error err => exact h
    | ok e => rfl
  cases m with
  | start id | wait target | deliver task c => exact h
  | step task =>
    rcases w.stepTask_eq task with heq | ⟨top, rest, e, new, -, -, heq⟩
    · rw [next, heq]
      exact h
    · rw [next, heq]
      rfl
  | _ => exact hedit _

theorem collected_after (r : Registry σ) (p : Policy) (moves : List (Move σ)) :
    (after r p moves).engine.scheduled = [] := by
  induction moves using List.reverseRecOn with
  | nil => rfl
  | append_singleton moves m ih =>
    rw [after_concat]
    exact collected_next ih m

theorem regular_next (hr : r.Steady) (h : w.Regular r p) {m : Move σ}
    (hrestore : m.isRestore = false) (hdelivery : m.isDelivery = false) :
    (w.next m).Regular r p := by
  have hr' : w.engine.registry.Steady := h.sound.registry ▸ hr
  have hw : w.engine.graph.Whole w.engine.registry := h.sound.registry ▸ h.sound.whole
  have hsound := sound_next hr h.sound m
  have htruthful := truthful_next hr h.sound h.truthful hrestore
  have hheld := (Held.invariant r p).next h.held m
  have hcollected := collected_next h.collected m
  rcases next_cases hr' hw hdelivery with hedits | ⟨pre, top, post, e, new, hsteps⟩
  · obtain ⟨e, hchange, hsame⟩ := hedits.engine
    obtain ⟨idle, hidle, hframes⟩ := hedits.frames
    refine ⟨hsound, htruthful, ?_, ?_, ?_, ?_, hcollected⟩
    · rw [hsame.policy, policy_changed hr' hchange, h.policy]
    · exact hheld
    · intro f hf
      rw [hframes] at hf
      rcases List.mem_append.1 hf with hf | hf
      · exact h.honest f hf
      · exact Frame.honest_of_idle (hidle f hf)
    · rw [hedits.answers]
      exact h.answers
  · obtain ⟨rest, hturn⟩ := hsteps.turn
    obtain ⟨idle, hidle, hframes⟩ := hsteps.after
    have hbefore := h.honest
    rw [hsteps.before] at hbefore
    refine ⟨hsound, htruthful, ?_, ?_, ?_, ?_, hcollected⟩
    · rw [hsteps.engine.policy, (Engine.registry_turn hturn).2, h.policy]
    · exact hheld
    · intro f hf
      rw [hframes] at hf
      simp only [List.mem_append] at hf
      rcases hf with ((hf | hf) | hf) | hf
      · exact hbefore f (List.mem_append_left _ hf)
      · exact honest_turn hturn f hf
      · exact hbefore f (List.mem_append_right _ (List.mem_cons_of_mem _ hf))
      · exact Frame.honest_of_idle (hidle f hf)
    · intro a ha
      rw [hsteps.answers] at ha
      rcases List.mem_append.1 ha with ha | ha
      · exact h.answers a ha
      · exact (hbefore top (List.mem_append_right _ List.mem_cons_self)).answer
          (Option.mem_toList.1 ha)

/-- Without deliveries and restorations every world that can be reached is regular. -/
theorem regular_after (hr : r.Steady) (p : Policy) {moves : List (Move σ)}
    (hmoves : ∀ m ∈ moves, m.isRestore = false ∧ m.isDelivery = false) :
    (after r p moves).Regular r p := by
  suffices h : ∀ w : World σ, w.Regular r p → (moves.foldl next w).Regular r p by
    refine h _ ⟨sound_after hr p [], ?_, rfl, ?_, ?_, ?_, rfl⟩
    · intro id n hn
      cases hn
    · intro id n hn
      cases hn
    · intro f hf
      cases hf
    · intro a ha
      cases ha
  induction moves with
  | nil => exact fun w h => h
  | cons m rest ih =>
    intro w h
    obtain ⟨hrestore, hdelivery⟩ := hmoves m List.mem_cons_self
    exact ih (fun m hm => hmoves m (List.mem_cons_of_mem _ hm)) (w.next m)
      (regular_next hr h hrestore hdelivery)

end World

end Patchbay
