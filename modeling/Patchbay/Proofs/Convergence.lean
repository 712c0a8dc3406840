import Mathlib.Logic.Hydra
import Mathlib.Order.Filter.AtTopBot.Basic
import Mathlib.Order.Filter.Finite
import Mathlib.Order.OrderIsoNat
import Patchbay.Proofs.Footprint
import Patchbay.Proofs.Passive
import Patchbay.Proofs.Propagation
import Patchbay.Proofs.Requests

/-!
# No endless runs

Outputs that are written make consumers stale and have them run in the background, and a run
executes again what was listed before. So neither the number of stale nodes nor that of the tasks
falls. But what is written to a node depends on its producers, and connections lead in no circle.

Suppose that tasks go on without end, that computations of nodes that are executed on demand come to
their results at once and that a result that was written back does not change what the next
computation gives. Other computations may wait, and be given anything. Take a node above which
nothing is written from some time on. If it is not executed on demand, nobody lists it, and only its
producers have it run, so the runs that are still to come are used up. Otherwise its producers can
from then on only become stale, and their values can only be stopped, so that in the end they stay
as they are. If the node has no inputs then, no computation of it begins. If it has, the second
result that is written makes the node fresh, and it stays so: the same inputs give the same outputs,
and nobody above it tells it anything. What is fresh is not listed any more, and who feeds it
schedules nothing, so again the runs are used up. Hence every node is written to finitely often, by
induction along the connections, and without writes the tasks have only so many steps.

What is proved here:
  1. `Live.turn`: where a computation comes from that can still be written.
  2. `Endless.eventually_not_completes`: every node is written to finitely often.
  3. `not_endless`, `acc_of_sound`: tasks do not go on without end, from whatever state.
-/

namespace Patchbay

open Relation Filter

/-! ## Sequences -/

section

variable {P : ℕ → Prop}

/-- What is never lost once it holds either holds from some time on, or fails from some time on. -/
theorem eventually_or_of_step (h : ∀ᶠ t in atTop, P t → P (t + 1)) :
    (∀ᶠ t in atTop, P t) ∨ ∀ᶠ t in atTop, ¬ P t := by
  obtain ⟨T, hT⟩ := eventually_atTop.1 h
  by_cases hex : ∃ t ≥ T, P t
  · obtain ⟨t, ht, hP⟩ := hex
    refine .inl (eventually_atTop.2 ⟨t, fun s hs => ?_⟩)
    induction s, hs using Nat.le_induction with
    | base => exact hP
    | succ s hs ih => exact hT s (Nat.le_trans ht hs) ih
  · exact .inr (eventually_atTop.2 ⟨T, fun t ht hP => hex ⟨t, ht, hP⟩⟩)

/-- What makes a number smaller that never grows happens finitely often. -/
theorem eventually_not_of_lt {μ : ℕ → ℕ} (hle : ∀ᶠ t in atTop, μ (t + 1) ≤ μ t)
    (hlt : ∀ᶠ t in atTop, P t → μ (t + 1) < μ t) : ∀ᶠ t in atTop, ¬ P t := by
  obtain ⟨T, hT⟩ := eventually_atTop.1 (hle.and hlt)
  obtain ⟨m, ⟨s, hs, rfl⟩, hmin⟩ :=
    Nat.lt_wfRel.wf.has_min (μ '' {t | T ≤ t}) ⟨μ T, T, Nat.le_refl T, rfl⟩
  have hconst : ∀ t, s ≤ t → μ t ≤ μ s := fun t ht => by
    induction t, ht using Nat.le_induction with
    | base => exact Nat.le_refl _
    | succ t ht ih => exact Nat.le_trans (hT t (Nat.le_trans hs ht)).1 ih
  refine eventually_atTop.2 ⟨s, fun t ht hP => ?_⟩
  have hless : μ (t + 1) < μ t := (hT t (Nat.le_trans hs ht)).2 hP
  exact hmin _ ⟨t + 1, Nat.le_succ_of_le (Nat.le_trans hs ht), rfl⟩
    (Nat.lt_of_lt_of_le hless (hconst t ht))

/-- A value that can only be lost stays as it is from some time on. -/
theorem exists_eventually_eq {α : Type} {x : ℕ → Option α}
    (h : ∀ᶠ t in atTop, ∀ a, x (t + 1) = some a → x t = some a) :
    ∃ a, ∀ᶠ t in atTop, x t = a := by
  have hnone : ∀ᶠ t in atTop, x t = none → x (t + 1) = none := h.mono fun t ht hx => by
    cases hnext : x (t + 1) with
    | none => rfl
    | some a =>
      rw [ht a hnext] at hx
      cases hx
  rcases eventually_or_of_step hnone with hlost | hkept
  · exact ⟨none, hlost⟩
  · obtain ⟨T, hT⟩ := eventually_atTop.1 (h.and hkept)
    refine ⟨x T, eventually_atTop.2 ⟨T, fun t ht => ?_⟩⟩
    induction t, ht using Nat.le_induction with
    | base => rfl
    | succ t ht ih =>
      have hsome : x (t + 1) ≠ none := (hT (t + 1) (Nat.le_succ_of_le ht)).2
      obtain ⟨a, ha⟩ := Option.ne_none_iff_exists'.1 hsome
      rw [ha, ← ih, (hT t ht).1 a ha]

end

variable {σ : Type} [NodeState σ]

/-! ## Computations that can still be written -/

/-- A computation of the node is going on for the run that has it. -/
structure Live (g : Graph σ) (frames : List (Frame σ)) (id : NodeId) (epoch : Nat)
    (d : Definition σ) (context : Context σ) (c : Computation) (n : Node σ) : Prop where
  level : .run id (.computing n.run epoch d context c) ∈ frames
  node : g.node? id = some n
  claimed : n.claimed = true

variable {r : Registry σ} {e e' : Engine σ} {top : Frame σ} {rest new post : List (Frame σ)}
  {id : NodeId}

/-- Only the beginning of a computation leaves a new level behind that computes. -/
theorem Live.begun {frames : List (Frame σ)} {epoch : Nat} {d : Definition σ}
    {context : Context σ} {c : Computation} {n : Node σ}
    (h : Live e'.graph frames id epoch d context c n)
    (hlevel : .run id (.computing n.run epoch d context c) ∈ new) (hturn : Turn e top rest e' new) :
    ∃ n₀ inputs, e.graph.node? id = some n₀ ∧ n = n₀.started ∧ e.registry.of? n₀.state = some d ∧
      e.graph.resolve id (d.ports n₀.state) = some inputs ∧ epoch = n₀.epoch ∧
      context = ⟨id, n₀.state, inputs⟩ ∧ c = d.compute context := by
  cases hturn with
  | begin id' run rest n₀ d' inputs hn₀ hrun hd hinputs =>
    cases List.mem_singleton.1 hlevel
    have hstarted := h.node.symm.trans (Graph.node?_modify_self e.graph id Node.started)
    rw [hn₀] at hstarted
    exact ⟨n₀, inputs, hn₀, Option.some.inj hstarted, hd, hinputs, rfl, rfl, rfl⟩
  | pull id' run p todo rest =>
    simp only [List.mem_cons, List.not_mem_nil, or_false] at hlevel
    rcases hlevel with heq | heq <;> cases heq
  | pass top rest e' new hpass =>
    rcases hpass.new_cases with rfl | ⟨f, rfl, hf | ⟨id', run, ending, rfl, -⟩⟩
    · cases hlevel
    · obtain rfl := List.mem_singleton.1 hlevel
      cases hf
    · cases List.mem_singleton.1 hlevel
  | _ => cases List.mem_singleton.1 hlevel

theorem Live.node_before {frames : List (Frame σ)} {epoch : Nat} {d : Definition σ}
    {context : Context σ} {c : Computation} {n : Node σ} {phase : Phase σ}
    (h : Live e'.graph frames id epoch d context c n)
    (hturn : Turn e (.run id phase) rest e' new) (hne : phase.run? ≠ some n.run) :
    e.graph.node? id = some n := by
  obtain ⟨-, hn, hclaimed⟩ := h
  have hinherits := Engine.inherits_turn hturn
  cases hturn with
  | enter | list | pull => exact hn
  | claim id run rest n₀ hn₀ hfree =>
    rw [Engine.graph_withGraph, Graph.node?_modify_self, hn₀] at hn
    cases hn
    exact absurd rfl hne
  | release id run ending rest =>
    rw [Engine.release, Engine.graph_withGraph, Graph.node?_modify_self] at hn
    obtain ⟨n₀, hn₀, heq⟩ := Option.map_eq_some_iff.1 hn
    unfold Node.released at heq
    split at heq
    · rw [← heq] at hclaimed
      cases hclaimed
    · rw [← heq]
      exact hn₀
  | pass top rest e' new hpass => rwa [← hpass.same.graph]
  -- All that is left is done by a run that has the node, and it leaves the node to that run.
  | block id run rest n₀ _ _ hn₀ hrun₀ | begin id run rest n₀ _ _ hn₀ hrun₀
  | finish id run epoch rest n₀ _ _ _ hn₀ hrun₀
  | fail id run epoch rest _ _ _ n₀ hn₀ hrun₀ =>
    rcases hinherits with hkeeps | ⟨_, heq, -⟩ | ⟨_, _, _, heq, -⟩
    · obtain ⟨n₁, hn₁, hlasts⟩ := hkeeps.nodes id n hn
      rw [hn₀] at hn₁
      cases hn₁
      exact absurd (congrArg some (hrun₀.symm.trans hlasts.run.symm)) hne
    · cases heq
    · cases heq

/-- As long as nobody else changes the node, a computation that can be written could be written
before, on the same node, or it has just begun. -/
theorem Live.turn {epoch : Nat} {d : Definition σ} {context : Context σ} {c : Computation}
    {n : Node σ} (h : Live e'.graph (new ++ post) id epoch d context c n)
    (hsound : Sound r e (top :: post)) (hturn : Turn e top rest e' new)
    (hother : (∀ phase, top ≠ .run id phase) → e'.graph.node? id = e.graph.node? id) :
    Live e.graph (top :: post) id epoch d context c n ∨
      ∃ n₀ inputs, e.graph.node? id = some n₀ ∧ n = n₀.started ∧ e.registry.of? n₀.state = some d ∧
        e.graph.resolve id (d.ports n₀.state) = some inputs ∧ epoch = n₀.epoch ∧
        context = ⟨id, n₀.state, inputs⟩ ∧ c = d.compute context := by
  rcases List.mem_append.1 h.level with hlevel | hlevel
  · exact .inr (h.begun hlevel hturn)
  · -- The level was there before, and its run is not the one that goes on.
    have hne : top.run? ≠ some n.run := fun htop =>
      Sound.run?_ne (show Sound r e ([] ++ top :: post) from hsound) htop hlevel rfl
    refine .inl ⟨List.mem_cons_of_mem _ hlevel, ?_, h.claimed⟩
    by_cases hown : ∃ phase, top = .run id phase
    · obtain ⟨phase, rfl⟩ := hown
      exact h.node_before hturn hne
    · rw [← hother fun phase heq => hown ⟨phase, heq⟩]
      exact h.node

/-! ## What consumers may read -/

theorem Outputs.value?_stopped (ports : List PortId) (port : PortId) :
    (Outputs.stopped ports).value? port = none := by
  suffices hfold : ∀ o : Outputs, o.value? port = none →
      ((ports.map (·, PortValue.stop)).foldl (fun o e => o.insert e.1 e.2) o).value? port = none
    from hfold .empty rfl
  induction ports with
  | nil => exact fun _ ho => ho
  | cons p rest ih =>
    intro o ho
    refine ih _ ?_
    rw [Outputs.value?, Dict.get?_insert]
    split
    · rfl
    · exact ho

def Node.Offers (n : Node σ) (port : PortId) (v : Json.Value) : Prop :=
  n.stale = false ∧ n.outputs.value? port = some v

omit [NodeState σ] in
theorem Node.robust_offers :
    Robust fun n n' : Node σ => ∀ port v, n'.Offers port v → n.Offers port v where
  refl _ _ _ h := h
  trans _ _ _ h h' port v hoffers := h port v (h' port v hoffers)
  touched _ _ _ h := h
  invalidated _ _ _ h := by cases h.1
  stopped _ _ _ h := by cases h.1

/-- A value is there for the consumers only if it was there before, or has just been written. -/
theorem Engine.freshValue?_turn (hturn : Turn e top rest e' new) {source : PortRef}
    (hnot : ¬ top.Completes e.graph source.node) {v : Json.Value}
    (hv : e'.graph.freshValue? source = some v) : e.graph.freshValue? source = some v := by
  have hrel := Engine.rel_turn_of_not_completes Node.robust_offers hturn hnot
    fun n n' hn hwrites hdone port v hoffers => by
      cases hwrites with
      | blocked id run n ports hrun =>
        have hnone := hoffers.2
        rw [Node.blocked, Outputs.value?_stopped] at hnone
        cases hnone
      | completed id run epoch d context outputs n hrun => exact absurd rfl (hdone _ _ _ _ _)
      | released id run ending n =>
        unfold Node.released at hoffers
        split at hoffers <;> exact hoffers
      | _ => exact hoffers
  obtain ⟨n', hn', hoffers⟩ := Graph.freshValue?_eq_some.1 hv
  obtain ⟨n, hn, hkeeps⟩ := Graph.exists_of_rel' hrel hn'
  exact Graph.freshValue?_eq_some.2 ⟨n, hn, hkeeps _ _ hoffers⟩

/-- In whole graphs with the same connections a node reads the same if the same values are there
to be read. -/
theorem Graph.resolve_eq_some {g g' : Graph σ} (h : g.Whole r) (h' : g'.Whole r)
    (hwiring : g'.wiring = g.wiring)
    (hvalues : ∀ port source, g.wiring.producerOf ⟨id, port⟩ = some source →
      g'.freshValue? source = g.freshValue? source) {n n' : Node σ} {d d' : Definition σ}
    (hn : g.node? id = some n) (hd : r.of? n.state = some d) (hn' : g'.node? id = some n')
    (hd' : r.of? n'.state = some d') {inputs : Inputs}
    (hinputs : g.resolve id (d.ports n.state) = some inputs) :
    g'.resolve id (d'.ports n'.state) = some inputs := by
  obtain ⟨inputs', hinputs'⟩ : ∃ inputs', g'.resolve id (d'.ports n'.state) = some inputs' := by
    rw [resolve, Wiring.gather]
    refine Wiring.foldlM_readSink _ fun p _ source hs => ?_
    have hget := get?_of_resolve h hn hd hinputs p.id
    rw [hwiring] at hs
    rw [hs] at hget
    obtain ⟨v, hv, -⟩ := hget
    exact ⟨v, (hvalues p.id source hs).trans hv⟩
  rw [hinputs']
  refine congrArg some (Dict.ext_get? fun port => ?_)
  have hget := get?_of_resolve h hn hd hinputs port
  have hget' := get?_of_resolve h' hn' hd' hinputs' port
  rw [hwiring] at hget'
  cases hs : g.wiring.producerOf ⟨id, port⟩ with
  | none =>
    rw [hs] at hget hget'
    rw [hget, hget']
  | some source =>
    rw [hs] at hget hget'
    obtain ⟨v, hv, hget⟩ := hget
    obtain ⟨v', hv', hget'⟩ := hget'
    rw [hvalues port source hs, hv] at hv'
    rw [hget, hget', hv']

theorem Graph.resolve_congr {g g' : Graph σ} (h : g.Whole r) (h' : g'.Whole r)
    (hwiring : g'.wiring = g.wiring)
    (hvalues : ∀ port source, g.wiring.producerOf ⟨id, port⟩ = some source →
      g'.freshValue? source = g.freshValue? source) {n n' : Node σ} {d d' : Definition σ}
    (hn : g.node? id = some n) (hd : r.of? n.state = some d) (hn' : g'.node? id = some n')
    (hd' : r.of? n'.state = some d') :
    g'.resolve id (d'.ports n'.state) = g.resolve id (d.ports n.state) := by
  cases hinputs : g.resolve id (d.ports n.state) with
  | some inputs => exact resolve_eq_some h h' hwiring hvalues hn hd hn' hd' hinputs
  | none =>
    cases hinputs' : g'.resolve id (d'.ports n'.state) with
    | none => rfl
    | some inputs =>
      have hback := resolve_eq_some h' h hwiring.symm (fun port source hs =>
        (hvalues port source (hwiring ▸ hs)).symm) hn' hd' hn hd hinputs'
      rw [hinputs] at hback
      cases hback

/-! ## Endless runs -/

/-- The invariant is about the levels in any order. -/
theorem Sound.perm {frames frames' : List (Frame σ)} (h : Sound r e frames)
    (hperm : frames.Perm frames') : Sound r e frames' where
  registry := h.registry
  whole := h.whole
  closed := h.closed
  distinct := (hperm.filterMap _).nodup_iff.1 h.distinct
  below run hrun := h.below run ((hperm.filterMap _).mem_iff.2 hrun)
  begun f hf := h.begun f (hperm.mem_iff.2 hf)

/-- The levels of the runs that are to go on in the background. -/
def Engine.errands (e : Engine σ) : List (Frame σ) := e.scheduled.flatMap Stack.background

omit [NodeState σ] in
theorem Engine.idle_errands : ∀ f ∈ e.errands, f.run? = none := by
  intro f hf
  obtain ⟨id, -, hf⟩ := List.mem_flatMap.1 hf
  simp only [Stack.background, List.mem_cons, List.not_mem_nil, or_false] at hf
  rcases hf with rfl | rfl <;> rfl

/-- A computation on the level that was waiting may have been given something. -/
inductive Frame.Answered : Frame σ → Frame σ → Prop
  | same (f : Frame σ) : Answered f f
  | given (id : NodeId) (run epoch : Nat) (d : Definition σ) (context : Context σ)
    (c c' : Computation) (hc : ∀ result, c ≠ .done result) :
    Answered (.run id (.computing run epoch d context c))
      (.run id (.computing run epoch d context c'))

omit [NodeState σ] in
theorem Frame.Answered.trans {f f' f'' : Frame σ} (h : f.Answered f') (h' : f'.Answered f'') :
    f.Answered f'' := by
  cases h with
  | same => exact h'
  | given id run epoch d context c c' hc =>
    cases h' with
    | same => exact .given id run epoch d context c c' hc
    | given id run epoch d context c' c'' hc' => exact .given id run epoch d context c c'' hc

/-- Some of the computations that were waiting have been given something. The order of the levels
does not count. -/
def Answers (frames frames' : List (Frame σ)) : Prop :=
  Relation.Comp List.Perm (List.Forall₂ Frame.Answered) frames frames'

namespace Answers

variable {frames frames' frames'' : List (Frame σ)}

omit [NodeState σ] in
theorem of_perm (h : frames.Perm frames') : Answers frames frames' :=
  ⟨frames', h, List.forall₂_same.2 fun f _ => .same f⟩

omit [NodeState σ] in
theorem perm (h : Answers frames frames') (hperm : frames'.Perm frames'') :
    Answers frames frames'' := by
  obtain ⟨given, hgiven, hanswered⟩ := h
  obtain ⟨given', hgiven', hanswered'⟩ : Relation.Comp List.Perm (List.Forall₂ Frame.Answered)
      given frames'' := by
    rw [← List.forall₂_comp_perm_eq_perm_comp_forall₂]
    exact ⟨frames', hanswered, hperm⟩
  exact ⟨given', hgiven.trans hgiven', hanswered'⟩

omit [NodeState σ] in
theorem trans (h : Answers frames frames') (h' : Answers frames' frames'') :
    Answers frames frames'' := by
  obtain ⟨given, hgiven, hanswered⟩ := h'
  obtain ⟨given', hgiven', hanswered'⟩ := h.perm hgiven
  refine ⟨given', hgiven', ?_⟩
  clear hgiven hgiven'
  induction hanswered' generalizing frames'' with
  | nil =>
    cases hanswered
    exact .nil
  | cons hfirst _ ih =>
    cases hanswered with
    | cons hsecond hrest => exact .cons (hfirst.trans hsecond) (ih hrest)

omit [NodeState σ] in
/-- Every level was there before, but for what its computation was given. -/
theorem exists_of_mem (h : Answers frames frames') {f' : Frame σ} (hf' : f' ∈ frames') :
    ∃ f ∈ frames, f.Answered f' := by
  obtain ⟨given, hgiven, hanswered⟩ := h
  obtain ⟨k, hk, rfl⟩ := List.getElem_of_mem hf'
  have hk' : k < given.length := hanswered.length_eq ▸ hk
  exact ⟨given[k], hgiven.mem_iff.2 (List.getElem_mem hk'),
    (List.forall₂_iff_get.1 hanswered).2 k hk' hk⟩

omit [NodeState σ] in
/-- What does not look at the computation of a level is the same of all levels. -/
theorem map_perm {α : Type} {f : Frame σ → α} (h : Answers frames frames')
    (hf : ∀ a b : Frame σ, a.Answered b → f b = f a) : (frames'.map f).Perm (frames.map f) := by
  obtain ⟨given, hgiven, hanswered⟩ := h
  have heq : frames'.map f = given.map f := by
    clear hgiven
    induction hanswered with
    | nil => rfl
    | cons hfirst _ ih => rw [List.map_cons, List.map_cons, hf _ _ hfirst, ih]
  rw [heq]
  exact (hgiven.map f).symm

/-- The invariant does not look at the computations. -/
theorem sound (h : Answers frames frames') (hsound : Sound r e frames) : Sound r e frames' := by
  have hrun : ∀ a b : Frame σ, a.Answered b → b.run? = a.run? := fun a b hab => by
    cases hab <;> rfl
  have hruns : (frames'.filterMap Frame.run?).Perm (frames.filterMap Frame.run?) := by
    have hperm := (h.map_perm hrun).filterMap id
    rwa [List.filterMap_map, List.filterMap_map] at hperm
  refine ⟨hsound.registry, hsound.whole, hsound.closed, hruns.nodup_iff.2 hsound.distinct,
    fun run hrun => hsound.below run (hruns.mem_iff.1 hrun), fun f' hf' => ?_⟩
  obtain ⟨f, hf, hanswered⟩ := h.exists_of_mem hf'
  have hbegun := hsound.begun f hf
  cases hanswered <;> exact hbegun

end Answers

/-- One step of one task, with what is scheduled turned into tasks, after computations were given
what they waited for. -/
structure Proceeds (e : Engine σ) (frames : List (Frame σ)) (top : Frame σ)
    (post : List (Frame σ)) (written : Engine σ) (new : List (Frame σ)) (e' : Engine σ)
    (frames' : List (Frame σ)) : Prop where
  before : Answers frames (top :: post)
  turn : ∃ rest, Turn e top rest written new
  engine : e' = { written with scheduled := [] }
  after : frames'.Perm (new ++ post ++ written.errands)

structure Endless (r : Registry σ) where
  engine : ℕ → Engine σ
  frames : ℕ → List (Frame σ)
  top : ℕ → Frame σ
  post : ℕ → List (Frame σ)
  written : ℕ → Engine σ
  new : ℕ → List (Frame σ)
  start : Sound r (engine 0) (frames 0)
  collected : (engine 0).scheduled = []
  proceeds : ∀ t, Proceeds (engine t) (frames t) (top t) (post t) (written t) (new t)
    (engine (t + 1)) (frames (t + 1))

theorem Proceeds.sound {frames frames' : List (Frame σ)} {written : Engine σ} (hr : r.Steady)
    (h : Proceeds e frames top post written new e' frames') (hsound : Sound r e frames) :
    Sound r e' frames' := by
  obtain ⟨rest, hturn⟩ := h.turn
  have hbefore : Sound r e ([] ++ top :: post) := h.before.sound hsound
  have hwritten := hbefore.turn hr hturn
  have hsame : written.Same e' := by
    rw [h.engine]
    exact ⟨rfl, rfl, rfl, rfl⟩
  exact ((hwritten.same hsame).append_idle Engine.idle_errands).perm h.after.symm

/-- A number that does not look at the computation of a level. -/
def Frame.Blind (count : Frame σ → ℕ) : Prop :=
  ∀ f f' : Frame σ, f.Answered f' → count f' = count f

omit [NodeState σ] in
theorem Frame.blind_left (cost : NodeId → ℕ) : Frame.Blind (Frame.left (σ := σ) cost) :=
  fun f f' h => by cases h <;> rfl

omit [NodeState σ] in
theorem Frame.blind_idle (beat : ℕ) : Frame.Blind (Frame.idle (σ := σ) beat) :=
  fun f f' h => by cases h <;> rfl

/-- What the levels have in a step is what they had, but for what the one that goes on becomes and
for what is scheduled. -/
theorem Proceeds.sum_map {frames frames' : List (Frame σ)} {written : Engine σ}
    (h : Proceeds e frames top post written new e' frames') {count : Frame σ → ℕ}
    (hcount : Frame.Blind count) :
    (frames'.map count).sum + count top =
      (frames.map count).sum + (new.map count).sum + (written.errands.map count).sum := by
  rw [(h.after.map count).sum_eq, ← (h.before.map_perm hcount).sum_eq]
  simp only [List.map_append, List.map_cons, List.sum_append, List.sum_cons]
  omega

theorem Proceeds.sum_map_of_errands {frames frames' : List (Frame σ)} {written : Engine σ}
    (h : Proceeds e frames top post written new e' frames') {count : Frame σ → ℕ}
    (hcount : Frame.Blind count) (hnone : written.errands = []) :
    (frames'.map count).sum + count top = (frames.map count).sum + (new.map count).sum := by
  have hsum := h.sum_map hcount
  rwa [hnone, List.map_nil, List.sum_nil, Nat.add_zero] at hsum

omit [NodeState σ] in
theorem Engine.sum_errands {count : Frame σ → ℕ}
    (h : ∀ c ∈ e.scheduled, count (.run c .entering) = 0) (herrand : count (.errand false) = 0) :
    (e.errands.map count).sum = 0 := by
  rw [List.sum_eq_zero_iff_forall_eq_nat]
  intro x hx
  obtain ⟨f, hf, rfl⟩ := List.mem_map.1 hx
  obtain ⟨c, hc, hf⟩ := List.mem_flatMap.1 hf
  simp only [Stack.background, List.mem_cons, List.not_mem_nil, or_false] at hf
  rcases hf with rfl | rfl
  · exact h c hc
  · exact herrand

namespace Endless

variable (E : Endless r)

def graph (t : ℕ) : Graph σ := (E.engine t).graph

def Completes (t : ℕ) (id : NodeId) : Prop := (E.top t).Completes (E.graph t) id

theorem graph_succ (t : ℕ) : E.graph (t + 1) = (E.written t).graph := by
  rw [graph, (E.proceeds t).engine]

theorem collected_at (t : ℕ) : (E.engine t).scheduled = [] := by
  cases t with
  | zero => exact E.collected
  | succ t => rw [(E.proceeds t).engine]

theorem wiring (t : ℕ) : (E.graph t).wiring = (E.graph 0).wiring := by
  induction t with
  | zero => rfl
  | succ t ih =>
    obtain ⟨rest, hturn⟩ := (E.proceeds t).turn
    rw [graph_succ, Engine.wiring_turn hturn]
    exact ih

variable {E}

theorem sound (hr : r.Steady) (t : ℕ) : Sound r (E.engine t) (E.frames t) := by
  induction t with
  | zero => exact E.start
  | succ t ih => exact (E.proceeds t).sound hr ih

theorem sound_before (hr : r.Steady) (t : ℕ) : Sound r (E.engine t) (E.top t :: E.post t) :=
  (E.proceeds t).before.sound (sound hr t)

variable (E) in
theorem whole (hr : r.Steady) (t : ℕ) : (E.graph t).Whole r := (sound hr t).whole

variable (E) in
theorem registry (hr : r.Steady) (t : ℕ) : (E.engine t).registry = r := (sound hr t).registry

theorem Completes.finish (hr : r.Steady) {t : ℕ} (h : E.Completes t id) :
    ∃ run epoch d context outputs n,
      E.top t = .run id (.computing run epoch d context (.done (.ok outputs))) ∧
        (E.graph t).node? id = some n ∧ n.run = run ∧ n.claimed = true ∧
        E.written t = (E.engine t).commitOutputs id n epoch d outputs ∧
        E.new t = [.run id (.releasing run (.ok (.completed outputs)))] := by
  obtain ⟨rest, hturn⟩ := (E.proceeds t).turn
  exact Frame.Completes.turn h ((E.registry hr t).symm ▸ E.whole hr t) hturn

theorem isSome_node? (m : NodeId) (t : ℕ) :
    ((E.graph t).node? m).isSome = ((E.graph 0).node? m).isSome := by
  induction t with
  | zero => rfl
  | succ t ih =>
    obtain ⟨rest, hturn⟩ := (E.proceeds t).turn
    have hrel := Engine.rel_turn_of_writes (m := m) Node.robust_any hturn fun _ _ _ _ => trivial
    rw [← ih, graph_succ]
    change Option.Rel _ ((E.graph t).node? m) _ at hrel
    generalize (E.graph t).node? m = before, (E.written t).graph.node? m = after at hrel
    cases hrel <;> rfl

variable (E) in
theorem of?_eq (hr : r.Steady) {m : NodeId} {n₀ n : Node σ} {t : ℕ}
    (hn₀ : (E.graph 0).node? m = some n₀) (hn : (E.graph t).node? m = some n) :
    r.of? n.state = r.of? n₀.state := by
  suffices htype : n.typeName = n₀.typeName by
    exact congrArg r.definitions.get? htype
  induction t generalizing n with
  | zero =>
    rw [hn₀] at hn
    cases hn
    rfl
  | succ t ih =>
    obtain ⟨rest, hturn⟩ := (E.proceeds t).turn
    have hsound : Sound r (E.engine t) ([] ++ E.top t :: E.post t) := sound_before hr t
    rw [graph_succ] at hn
    obtain ⟨n', hn', htype⟩ := Engine.typeName_turn hr hsound hturn hn
    exact htype.trans (ih hn')

/-- Outputs are written to nodes that are there, and there are finitely many. -/
theorem eventually_forall {P : NodeId → Prop}
    (h : ∀ u, P u → ∀ᶠ t in atTop, ¬ E.Completes t u) :
    ∀ᶠ t in atTop, ∀ u, P u → ¬ E.Completes t u := by
  have hthere : ∀ t u, E.Completes t u → u ∈ (E.graph 0).nodes.keys := by
    intro t u hcompletes
    obtain ⟨-, -, -, -, -, n, -, hn, -⟩ := hcompletes
    have hsome := (E.isSome_node? u t).symm.trans (by rw [hn, Option.isSome_some])
    obtain ⟨n₀, hn₀⟩ := Option.isSome_iff_exists.1 hsome
    exact List.mem_map.2 ⟨(u, n₀), Dict.mem_entries.2 hn₀, rfl⟩
  have hall : ∀ᶠ t in atTop, ∀ u ∈ {u | u ∈ (E.graph 0).nodes.keys}, P u → ¬ E.Completes t u :=
    (Filter.eventually_all_finite (List.finite_toSet _)).2 fun u _ => by
      by_cases hu : P u
      · exact (h u hu).mono fun t ht _ => ht
      · exact .of_forall fun t hu' => absurd hu' hu
  exact hall.mono fun t ht u hu hcompletes => ht u (hthere t u hcompletes) hu hcompletes

/-- If nothing is written to the producers of a node, it reads the same from some time on. -/
theorem exists_inputs (hr : r.Steady)
    (hfeeders : ∀ᶠ t in atTop, ∀ u, (E.graph 0).wiring.Feeds u id → ¬ E.Completes t u) :
    ∃ inputs : Option Inputs, ∀ᶠ t in atTop, ∀ n d, (E.graph t).node? id = some n →
      r.of? n.state = some d → (E.graph t).resolve id (d.ports n.state) = inputs := by
  have hvalue : ∀ c ∈ (E.graph 0).wiring.incoming id, ∃ v, ∀ᶠ t in atTop,
      (E.graph t).freshValue? c.source = v := by
    intro c hc
    obtain ⟨hproducer, hnode⟩ := Wiring.mem_incoming.1 hc
    refine exists_eventually_eq (hfeeders.mono fun t ht v hv => ?_)
    rw [graph_succ] at hv
    obtain ⟨rest, hturn⟩ := (E.proceeds t).turn
    exact Engine.freshValue?_turn hturn (ht _ ⟨c, hproducer, rfl, hnode⟩) hv
  choose! value hvalue using hvalue
  have hvalues := (Filter.eventually_all_finite (List.finite_toSet _)).2 hvalue
  obtain ⟨T, hT⟩ := eventually_atTop.1 hvalues
  cases hn₀ : (E.graph T).node? id with
  | none =>
    refine ⟨none, .of_forall fun t n d hn => ?_⟩
    have hsome := (E.isSome_node? id t).trans (E.isSome_node? id T).symm
    rw [hn, hn₀] at hsome
    cases hsome
  | some n₀ =>
    obtain ⟨d₀, hd₀⟩ := (E.whole hr T).types id n₀ hn₀
    refine ⟨(E.graph T).resolve id (d₀.ports n₀.state), eventually_atTop.2 ⟨T, ?_⟩⟩
    intro t ht n d hn hd
    refine Graph.resolve_congr (E.whole hr T) (E.whole hr t) (by rw [E.wiring t, E.wiring T]) ?_
      hn₀ hd₀ hn hd
    intro port source hs
    have hmem : (⟨source, ⟨id, port⟩⟩ : Connection) ∈ (E.graph 0).wiring.incoming id :=
      Wiring.mem_incoming.2 ⟨by rw [← E.wiring T]; exact hs, rfl⟩
    exact (hT t ht _ hmem).trans (hT T (Nat.le_refl T) _ hmem).symm

/-- If the levels count no more after each step than before, and fewer after outputs are written to
a node, then that happens finitely often. -/
theorem not_completes_of_count {count : Frame σ → ℕ} (hcount : Frame.Blind count)
    (hle : ∀ᶠ t in atTop, ((E.new t).map count).sum + ((E.written t).errands.map count).sum ≤
      count (E.top t))
    (hlt : ∀ᶠ t in atTop, E.Completes t id →
      ((E.new t).map count).sum + ((E.written t).errands.map count).sum < count (E.top t)) :
    ∀ᶠ t in atTop, ¬ E.Completes t id := by
  refine eventually_not_of_lt (μ := fun t => ((E.frames t).map count).sum)
    (hle.mono fun t ht => ?_) (hlt.mono fun t ht hcompletes => ?_)
  · have hsum := (E.proceeds t).sum_map hcount
    omega
  · have hsum := (E.proceeds t).sum_map hcount
    have hless := ht hcompletes
    omega

/-! ## A node without inputs -/

/-- Without inputs no computation begins, so there is an end to those that can be written. -/
theorem not_completes_of_no_inputs (hr : r.Steady)
    (hinputs : ∀ᶠ t in atTop, ∀ n d, (E.graph t).node? id = some n → r.of? n.state = some d →
      (E.graph t).resolve id (d.ports n.state) = none) :
    ∀ᶠ t in atTop, ¬ E.Completes t id := by
  -- What falls is the number of the computations of the node that are going on.
  let count : Frame σ → ℕ := fun f => (f.computing?.any (·.1 == id)).toNat
  have herrands : ∀ t, ((E.written t).errands.map count).sum = 0 := fun t =>
    Engine.sum_errands (fun _ _ => rfl) rfl
  have hcount : Frame.Blind count := fun f f' h => by cases h <;> rfl
  refine not_completes_of_count hcount (hinputs.mono fun t ht => ?_)
    (.of_forall fun t hcompletes => ?_)
  · rw [herrands, Nat.add_zero]
    obtain ⟨rest, hturn⟩ := (E.proceeds t).turn
    have hreg := E.registry hr t
    generalize E.top t = top, E.new t = new, E.written t = e' at hturn
    cases hturn with
    | begin id' run rest n d inputs hn hrun hd hresolved =>
      by_cases hid : id' = id
      · subst hid
        rw [hreg] at hd
        have hnone := ht n d hn hd
        rw [graph, hresolved] at hnone
        cases hnone
      · simp [count, Frame.computing?, hid]
    | pass top rest e' new hpass =>
      rcases hpass.new_cases with rfl | ⟨f, rfl, hf | ⟨id', run, ending, rfl, -⟩⟩
      · exact Nat.zero_le _
      · have hzero : count f = 0 := by
          cases f with
          | run m phase => cases phase <;> first | rfl | cases hf
          | _ => rfl
        simp [hzero]
      · exact Nat.zero_le _
    | _ => exact Nat.zero_le _
  · rw [herrands, Nat.add_zero]
    obtain ⟨run, epoch, d, context, outputs, n, htop, -, -, -, -, hnew⟩ := hcompletes.finish hr
    rw [htop, hnew]
    simp [count, Frame.computing?]

end Endless

/-! ## A node with inputs -/

/-- Computations come to their results at once, and a result that was written back does not change
what the next computation on the same inputs gives. -/
structure Registry.Settling (r : Registry σ) : Prop where
  total : ∀ d (context : Context σ), r.of? context.state = some d →
    ∃ result, d.compute context = .done result
  stable : ∀ d (context : Context σ) outputs, r.of? context.state = some d →
    d.compute context = .done (.ok outputs) →
      d.compute { context with state := d.applyResult context.state outputs } = .done (.ok outputs)

/-- The same of the types that are executed on demand. A computation of another type may wait, and
whoever gives it what it waits for may give something else each time. -/
structure Registry.Convergent (r : Registry σ) : Prop where
  total : ∀ d (context : Context σ), r.of? context.state = some d →
    d.metadata.mode = .reactive → ∃ result, d.compute context = .done result
  stable : ∀ d (context : Context σ) outputs, r.of? context.state = some d →
    d.metadata.mode = .reactive → d.compute context = .done (.ok outputs) →
      d.compute { context with state := d.applyResult context.state outputs } = .done (.ok outputs)

theorem Registry.Settling.convergent (h : r.Settling) : r.Convergent where
  total d context hd _ := h.total d context hd
  stable d context outputs hd _ := h.stable d context outputs hd

theorem Registry.isReactive_eq {n : Node σ} {d : Definition σ} (h : r.of? n.state = some d) :
    r.isReactive n.typeName = (d.metadata.mode == .reactive) := by
  have hget : r.definitions.get? n.typeName = some d := h
  simp [isReactive, metadata?, hget]

def Graph.Reactive (r : Registry σ) (g : Graph σ) (id : NodeId) : Prop :=
  ∀ n d, g.node? id = some n → r.of? n.state = some d → d.metadata.mode = .reactive

/-- What is still computed of the node is computed from these inputs and from its present state,
and nothing has happened to it since. -/
def Exact (r : Registry σ) (inputs : Inputs) (g : Graph σ) (frames : List (Frame σ))
    (id : NodeId) : Prop :=
  ∀ epoch d context c n, Live g frames id epoch d context c n →
    epoch = n.epoch ∧ r.of? n.state = some d ∧ context = ⟨id, n.state, inputs⟩ ∧
      c = d.compute context

/-- The node is fresh, and it would compute outputs from these inputs. -/
def Fixed (r : Registry σ) (inputs : Inputs) (g : Graph σ) (id : NodeId) : Prop :=
  ∃ n d outputs, g.node? id = some n ∧ n.stale = false ∧ r.of? n.state = some d ∧
    d.compute ⟨id, n.state, inputs⟩ = .done (.ok outputs)

section

variable {inputs : Inputs}

theorem Exact.turn (h : Exact r inputs e.graph (top :: post) id) (hsound : Sound r e (top :: post))
    (hturn : Turn e top rest e' new)
    (hother : (∀ phase, top ≠ .run id phase) → e'.graph.node? id = e.graph.node? id)
    (hinputs : ∀ n d, e.graph.node? id = some n → r.of? n.state = some d →
      e.graph.resolve id (d.ports n.state) = some inputs) :
    Exact r inputs e'.graph (new ++ post) id := by
  intro epoch d context c n hlive
  rcases hlive.turn hsound hturn hother with hbefore | ⟨n₀, now, hn₀, rfl, hd, hnow, rfl, rfl, rfl⟩
  · exact h epoch d context c n hbefore
  · rw [hsound.registry] at hd
    rw [hinputs n₀ d hn₀ hd] at hnow
    cases hnow
    exact ⟨rfl, hd, rfl, rfl⟩

theorem exact_of_completes (hsound : Sound r e (top :: post)) (hturn : Turn e top rest e' new)
    (hcompletes : top.Completes e.graph id) : Exact r inputs e'.graph (new ++ post) id := by
  have hw : e.graph.Whole e.registry := hsound.registry.symm ▸ hsound.whole
  obtain ⟨run, epoch, d, context, outputs, n, -, hn, -, -, rfl, -⟩ := hcompletes.turn hw hturn
  intro epoch' d' context' c' n' hlive
  have hafter := Graph.node?_complete hw.wiring hn e.policy (d.applyResult n.state outputs) outputs
    (n.epoch == epoch)
  rw [← (Engine.commitOutputs_spec e id n epoch d outputs).2.2.1, hlive.node] at hafter
  have hclaimed := hlive.claimed
  rw [Option.some.inj hafter] at hclaimed
  cases hclaimed

/-- The result of an exact computation makes the node fresh, and the next one has the same result.
-/
theorem fixed_of_completes (hs : r.Convergent) (h : Exact r inputs e.graph (top :: post) id)
    (hr : r.Steady) (hsound : Sound r e (top :: post)) (hturn : Turn e top rest e' new)
    (hreactive : e.graph.Reactive r id) (hcompletes : top.Completes e.graph id) :
    Fixed r inputs e'.graph id := by
  have hw : e.graph.Whole e.registry := hsound.registry.symm ▸ hsound.whole
  obtain ⟨run, epoch, d, context, outputs, n, rfl, hn, rfl, hclaimed, rfl, -⟩ :=
    hcompletes.turn hw hturn
  obtain ⟨rfl, hd, rfl, hc⟩ := h _ _ _ _ n ⟨List.mem_cons_self, hn, hclaimed⟩
  refine ⟨n.completed (d.applyResult n.state outputs) outputs true, d, outputs, ?_, ?_, ?_, ?_⟩
  · rw [(Engine.commitOutputs_spec e id n n.epoch d outputs).2.2.1, beq_self_eq_true]
    exact Graph.node?_complete hw.wiring hn _ _ _ _
  · simp [Node.completed]
  · rw [← hd]
    exact (hr.result d n.state outputs hd).of?_eq
  · exact hs.stable d ⟨id, n.state, inputs⟩ outputs hd (hreactive n d hn hd) hc.symm

theorem Fixed.turn (hfixed : Fixed r inputs e.graph id) (hs : r.Convergent) (hr : r.Steady)
    (h : Exact r inputs e.graph (top :: post) id) (hsound : Sound r e (top :: post))
    (hturn : Turn e top rest e' new) (hreactive : e.graph.Reactive r id)
    (hother : (∀ phase, top ≠ .run id phase) → e'.graph.node? id = e.graph.node? id)
    (hinputs : ∀ n d, e.graph.node? id = some n → r.of? n.state = some d →
      e.graph.resolve id (d.ports n.state) = some inputs) : Fixed r inputs e'.graph id := by
  by_cases hcompletes : top.Completes e.graph id
  · exact fixed_of_completes hs h hr hsound hturn hreactive hcompletes
  obtain ⟨n, d, outputs, hn, hfresh, hd, hc⟩ := hfixed
  by_cases hown : ∃ phase, top = .run id phase
  · obtain ⟨phase, rfl⟩ := hown
    have hmodify : ∀ f : Node σ → Node σ, (f n).state = n.state → (f n).stale = n.stale →
        Fixed r inputs (e.graph.modify id f) id := fun f hstate hstale =>
      ⟨f n, d, outputs, by rw [Graph.node?_modify_self, hn]; rfl, hstale.trans hfresh,
        hstate ▸ hd, hstate ▸ hc⟩
    cases hturn with
    | enter | list | pull => exact ⟨n, d, outputs, hn, hfresh, hd, hc⟩
    | claim | begin => exact hmodify _ rfl rfl
    | release =>
      refine hmodify _ ?_ ?_ <;>
      · unfold Node.released
        split <;> rfl
    | block id run rest n' d' events hn' hrun hd' hblocked =>
      rw [hsound.registry] at hd'
      rw [hinputs n' d' hn' hd'] at hblocked
      cases hblocked
    | finish id run epoch rest n' d' context outputs' hn' hrun hclaimed =>
      exact absurd ⟨run, epoch, d', context, outputs', n', rfl, hn', hrun, hclaimed⟩ hcompletes
    | fail id run epoch rest d' context cause n' hn' hrun hclaimed =>
      -- The computation would have come to outputs.
      rw [hn] at hn'
      cases hn'
      cases hrun
      obtain ⟨-, hd', rfl, hc'⟩ := h _ _ _ _ n ⟨List.mem_cons_self, hn, hclaimed⟩
      rw [hd] at hd'
      cases hd'
      rw [hc] at hc'
      cases hc'
    | pass top rest e' new hpass =>
      rw [hpass.same.graph]
      exact ⟨n, d, outputs, hn, hfresh, hd, hc⟩
  · exact ⟨n, d, outputs, (hother fun phase heq => hown ⟨phase, heq⟩).trans hn, hfresh, hd, hc⟩

end

/-! ## The runs that are still to come -/

/-- How often the node may still be written to for this level, as long as it is not listed anew. -/
def Frame.calls (id : NodeId) (f : Frame σ) : ℕ := f.due (fun _ => 1) id + f.listed.count id

omit [NodeState σ] in
theorem Frame.blind_calls (id : NodeId) : Frame.Blind (Frame.calls (σ := σ) id) :=
  fun f f' h => by cases h <;> rfl

theorem Turn.calls_le (hturn : Turn e top rest e' new) (hunlisted : ∀ m, id ∉ e.toPull m) :
    (new.map (Frame.calls id)).sum ≤ top.calls id := by
  cases hturn with
  | list m run rest =>
    have hnone : (e.toPull m).count id = 0 := List.count_eq_zero.2 (hunlisted m)
    simp [Frame.calls, Frame.due, Phase.due, Frame.listed, hnone]
  | pull m run p todo rest =>
    simp only [Frame.calls, Frame.due, Phase.due, Frame.listed, List.map_cons, List.map_nil,
      List.sum_cons, List.sum_nil, List.count_nil, List.count_cons, beq_iff_eq]
    omega
  | pass top rest e' new hpass =>
    rcases hpass.new_cases with rfl | ⟨f, rfl, hf | ⟨m, run, ending, rfl, -⟩⟩
    · exact Nat.zero_le _
    · cases hpass <;> simp_all [Frame.calls, Frame.due, Phase.due, Frame.listed]
    · simp [Frame.calls, Frame.due, Phase.due, Frame.listed]
  | _ => simp [Frame.calls, Frame.due, Phase.due, Frame.listed]

/-- What a step schedules reads from the node whose outputs it writes, and is stale then. -/
theorem Engine.of_scheduled (hw : e.graph.wiring.Sound) (hturn : Turn e top rest e' new)
    {c : NodeId} (hc : c ∈ e'.scheduled) : c ∈ e.scheduled ∨ e'.graph.isFresh c = false ∧
      ∃ u, top.Completes e.graph u ∧ e.graph.wiring.Feeds u c := by
  cases hturn with
  | finish id run epoch rest n d context outputs hn hrun hclaimed =>
    rw [(commitOutputs_spec e id n epoch d outputs).2.2.1]
    rw [commitOutputs, scheduled_scheduleAll] at hc
    rcases List.mem_append.1 hc with hc | hc
    · exact .inl hc
    · apply Or.inr
      split at hc
      · obtain ⟨hdown, hany⟩ := List.mem_filter.1 hc
        obtain ⟨n', hn', hstale⟩ := (Option.any_eq_true _ _).1 hany
        refine ⟨by simp [Graph.isFresh, hn', (Bool.and_eq_true_iff.1 hstale).1], id, ?_,
          hw.mem_downstream.1 hdown⟩
        exact ⟨run, epoch, d, context, outputs, n, rfl, hn, hrun, hclaimed⟩
      · cases hc
  | pass top rest e' new hpass =>
    cases hpass with
    | quit id run phase rest e' ending hsame hbeat hphase hend hlost htally =>
      exact .inl (htally.2 ▸ hc)
    | _ => exact .inl hc
  | _ => exact .inl hc

namespace Endless

variable {E : Endless r} {inputs : Inputs}

theorem mem_of_computing {t : ℕ} {run epoch : Nat} {d : Definition σ} {context : Context σ}
    {c : Computation} (h : .run id (.computing run epoch d context c) ∈ E.frames (t + 1)) :
    .run id (.computing run epoch d context c) ∈ E.new t ++ E.post t := by
  rcases List.mem_append.1 ((E.proceeds t).after.mem_iff.1 h) with h | h
  · exact h
  · obtain ⟨u, -, h⟩ := List.mem_flatMap.1 h
    simp [Stack.background] at h

/-- What is still computed of the node at this time is exact. -/
def ExactAt (E : Endless r) (inputs : Inputs) (id : NodeId) (t : ℕ) : Prop :=
  Exact r inputs (E.graph t) (E.frames t) id

/-- Such a computation has its result, so that it cannot be given anything. -/
theorem ExactAt.before {t : ℕ} (h : E.ExactAt inputs id t) (hs : r.Convergent)
    (hreactive : (E.graph t).Reactive r id) :
    Exact r inputs (E.graph t) (E.top t :: E.post t) id := by
  intro epoch d context c n hlive
  obtain ⟨f, hf, hanswered⟩ := (E.proceeds t).before.exists_of_mem hlive.level
  cases hanswered with
  | same => exact h epoch d context c n ⟨hf, hlive.node, hlive.claimed⟩
  | given _ _ _ _ _ c₀ _ hc =>
    obtain ⟨-, hd, rfl, rfl⟩ := h epoch d context c₀ n ⟨hf, hlive.node, hlive.claimed⟩
    obtain ⟨result, hresult⟩ := hs.total d ⟨id, n.state, inputs⟩ hd (hreactive n d hlive.node hd)
    exact absurd hresult (hc result)

theorem ExactAt.of_after {t : ℕ}
    (h : Exact r inputs (E.written t).graph (E.new t ++ E.post t) id) :
    E.ExactAt inputs id (t + 1) := by
  intro epoch d context c n hlive
  rw [graph_succ] at hlive
  exact h epoch d context c n ⟨mem_of_computing hlive.level, hlive.node, hlive.claimed⟩

/-- If nothing is written above a node that has inputs, no step but its own changes it. -/
theorem eventually_node?_eq (hr : r.Steady)
    (habove : ∀ᶠ t in atTop, ∀ u, TransGen (E.graph 0).wiring.Feeds u id → ¬ E.Completes t u)
    (hfresh : ∀ᶠ t in atTop, ∀ u, TransGen (E.graph 0).wiring.Feeds u id →
      (E.graph t).isFresh u = true) :
    ∀ᶠ t in atTop, (∀ phase, E.top t ≠ .run id phase) →
      (E.written t).graph.node? id = (E.graph t).node? id := by
  refine (habove.and ((tendsto_add_atTop_nat 1).eventually hfresh)).mono fun t ht hown => ?_
  obtain ⟨rest, hturn⟩ := (E.proceeds t).turn
  refine Engine.node?_turn_of_above (E.whole hr t).wiring hturn (fun u hu => ?_) hown
  have hu : TransGen (E.graph 0).wiring.Feeds u id := by
    rw [← E.wiring t]
    exact hu
  refine ⟨?_, ht.1 u hu⟩
  rw [← graph_succ]
  exact ht.2 u hu

/-- What feeds a node that has inputs, directly or not, is fresh. -/
theorem isFresh_above (hr : r.Steady) {t : ℕ} {n : Node σ} {d : Definition σ}
    (hn : (E.graph t).node? id = some n) (hd : r.of? n.state = some d)
    (hinputs : (E.graph t).resolve id (d.ports n.state) = some inputs) {u : NodeId}
    (hu : TransGen (E.graph 0).wiring.Feeds u id) : (E.graph t).isFresh u = true := by
  rw [← E.wiring t] at hu
  obtain ⟨v, huv, hv⟩ := TransGen.tail'_iff.1 hu
  have hfresh := (Graph.reads_of_resolve (E.whole hr t) hn hd hinputs).isFresh hv
  rcases reflTransGen_iff_eq_or_transGen.1 huv with rfl | huv
  · exact hfresh
  · exact (sound hr t).closed.transGen huv hfresh

/-- The runs of a node that nobody lists and nobody schedules are used up. -/
theorem not_completes_of_unlisted (hr : r.Steady)
    (hunlisted : ∀ᶠ t in atTop, ∀ m, id ∉ (E.engine t).toPull m)
    (hunscheduled : ∀ᶠ t in atTop, id ∉ (E.written t).scheduled) :
    ∀ᶠ t in atTop, ¬ E.Completes t id := by
  have herrands : ∀ᶠ t in atTop, ((E.written t).errands.map (Frame.calls id)).sum = 0 :=
    hunscheduled.mono fun t ht => by
      refine Engine.sum_errands (fun c hc => ?_) rfl
      have hne : c ≠ id := fun heq => ht (heq ▸ hc)
      simp [Frame.calls, Frame.due, Frame.listed, hne]
  refine not_completes_of_count (Frame.blind_calls id)
    ((hunlisted.and herrands).mono fun t ht => ?_) (herrands.mono fun t ht hcompletes => ?_)
  · obtain ⟨rest, hturn⟩ := (E.proceeds t).turn
    rw [ht.2]
    exact hturn.calls_le ht.1
  · obtain ⟨run, epoch, d, context, outputs, n, htop, -, -, -, -, hnew⟩ := hcompletes.finish hr
    rw [ht, htop, hnew]
    simp [Frame.calls, Frame.due, Phase.due, Frame.listed]

theorem of_scheduled (hr : r.Steady) {t : ℕ} {c : NodeId} (hc : c ∈ (E.written t).scheduled) :
    (E.graph (t + 1)).isFresh c = false ∧ ∃ u, E.Completes t u ∧ (E.graph 0).wiring.Feeds u c := by
  obtain ⟨rest, hturn⟩ := (E.proceeds t).turn
  rw [← E.wiring t, graph_succ]
  refine (Engine.of_scheduled (E.whole hr t).wiring hturn hc).resolve_left fun hc => ?_
  rw [E.collected_at t] at hc
  cases hc

/-- A node that is executed on demand and has inputs is written to finitely often, if nothing is
written above it. -/
theorem not_completes_of_inputs (hr : r.Steady) (hs : r.Convergent)
    (hreactive : ∀ t, (E.graph t).Reactive r id) (hthere : ((E.graph 0).node? id).isSome)
    (habove : ∀ᶠ t in atTop, ∀ u, TransGen (E.graph 0).wiring.Feeds u id → ¬ E.Completes t u)
    (hinputs : ∀ᶠ t in atTop, ∀ n d, (E.graph t).node? id = some n → r.of? n.state = some d →
      (E.graph t).resolve id (d.ports n.state) = some inputs) :
    ∀ᶠ t in atTop, ¬ E.Completes t id := by
  have hfresh : ∀ᶠ t in atTop, ∀ u, TransGen (E.graph 0).wiring.Feeds u id →
      (E.graph t).isFresh u = true := hinputs.mono fun t ht u hu => by
    obtain ⟨n, hn⟩ := Option.isSome_iff_exists.1 ((E.isSome_node? id t).trans hthere)
    obtain ⟨d, hd⟩ := (E.whole hr t).types id n hn
    exact isFresh_above hr hn hd (ht n d hn hd) hu
  have hother := eventually_node?_eq hr habove hfresh
  -- The first result that is written leaves exact computations only, the second a fixed node.
  have hexact : ∀ᶠ t in atTop, E.ExactAt inputs id t → E.ExactAt inputs id (t + 1) :=
    (hother.and hinputs).mono fun t ht hbefore => by
      obtain ⟨rest, hturn⟩ := (E.proceeds t).turn
      exact .of_after ((hbefore.before hs (hreactive t)).turn (sound_before hr t) hturn ht.1 ht.2)
  have hwritten : ∀ t, E.Completes t id → E.ExactAt inputs id (t + 1) := fun t hcompletes => by
    obtain ⟨rest, hturn⟩ := (E.proceeds t).turn
    exact .of_after (exact_of_completes (sound_before hr t) hturn hcompletes)
  rcases eventually_or_of_step hexact with hexact | hnever
  swap
  · exact ((tendsto_add_atTop_nat 1).eventually hnever).mono fun t ht hcompletes =>
      ht (hwritten t hcompletes)
  have hfixed : ∀ᶠ t in atTop,
      Fixed r inputs (E.graph t) id → Fixed r inputs (E.graph (t + 1)) id :=
    (hexact.and (hother.and hinputs)).mono fun t ht hbefore => by
      obtain ⟨rest, hturn⟩ := (E.proceeds t).turn
      rw [graph_succ]
      exact hbefore.turn hs hr (ht.1.before hs (hreactive t)) (sound_before hr t) hturn
        (hreactive t) ht.2.1 ht.2.2
  rcases eventually_or_of_step hfixed with hfixed | hnever
  swap
  · refine (hexact.and ((tendsto_add_atTop_nat 1).eventually hnever)).mono
      fun t ht hcompletes => ht.2 ?_
    obtain ⟨rest, hturn⟩ := (E.proceeds t).turn
    rw [graph_succ]
    exact fixed_of_completes hs (ht.1.before hs (hreactive t)) hr (sound_before hr t) hturn
      (hreactive t) hcompletes
  -- From then on nobody lists or schedules the node, and every result uses up a run.
  have hstays : ∀ᶠ t in atTop, (E.graph t).isFresh id = true := hfixed.mono fun t ht => by
    obtain ⟨n, -, -, hn, hs, -⟩ := ht
    exact Graph.isFresh_iff.2 ⟨n, hn, hs⟩
  refine not_completes_of_unlisted hr (hstays.mono fun t ht m hm => ?_)
    (((tendsto_add_atTop_nat 1).eventually hstays).mono fun t ht hc => ?_)
  · have hstale : (E.graph t).isFresh id = false := (Engine.of_mem_toPull hm).2
    rw [ht] at hstale
    cases hstale
  · rw [(of_scheduled hr hc).1] at ht
    cases ht

/-- A node that is not executed on demand is written to finitely often, if nothing is written to
its producers: only they have it run. -/
theorem not_completes_of_manual (hr : r.Steady) {mode : Mode} (hmode : mode ≠ .reactive)
    (hmanual : ∀ t n d, (E.graph t).node? id = some n → r.of? n.state = some d →
      d.metadata.mode = mode)
    (habove : ∀ᶠ t in atTop, ∀ u, (E.graph 0).wiring.Feeds u id → ¬ E.Completes t u) :
    ∀ᶠ t in atTop, ¬ E.Completes t id := by
  refine not_completes_of_unlisted hr (.of_forall fun t m hm => ?_)
    (habove.mono fun t ht hc => ?_)
  · obtain ⟨n, hn, hpulled⟩ := (Option.any_eq_true _ _).1 (List.mem_filter.1 hm).2
    obtain ⟨d, hd⟩ := (E.whole hr t).types id n hn
    have hreactive := (Bool.and_eq_true_iff.1 hpulled).2
    rw [E.registry hr t, Registry.isReactive_eq hd, hmanual t n d hn hd, beq_iff_eq] at hreactive
    exact hmode hreactive
  · obtain ⟨-, u, hcompletes, hfeeds⟩ := of_scheduled hr hc
    exact ht u hfeeds hcompletes

theorem eventually_not_completes (hr : r.Steady) (hs : r.Convergent) (id : NodeId) :
    ∀ᶠ t in atTop, ¬ E.Completes t id := by
  induction id using (E.whole hr 0).wiring.acyclic.transGen.induction with
  | _ id ih =>
    have habove := eventually_forall (E := E) (P := fun u => TransGen (E.graph 0).wiring.Feeds u id)
      ih
    have hfeeders : ∀ᶠ t in atTop, ∀ u, (E.graph 0).wiring.Feeds u id → ¬ E.Completes t u :=
      habove.mono fun t ht u hu => ht u (.single hu)
    cases hn₀ : (E.graph 0).node? id with
    | none =>
      refine .of_forall fun t hcompletes => ?_
      obtain ⟨-, -, -, -, -, n, -, hn, -⟩ := hcompletes.finish hr
      have hsome := E.isSome_node? id t
      rw [hn, hn₀] at hsome
      cases hsome
    | some n₀ =>
      obtain ⟨d₀, hd₀⟩ := (E.whole hr 0).types id n₀ hn₀
      have hmode : ∀ t n d, (E.graph t).node? id = some n → r.of? n.state = some d →
          d.metadata.mode = d₀.metadata.mode := fun t n d hn hd => by
        rw [E.of?_eq hr hn₀ hn, hd₀] at hd
        cases hd
        rfl
      by_cases hreactive : d₀.metadata.mode = .reactive
      · obtain ⟨inputs, hinputs⟩ := exists_inputs hr hfeeders
        cases inputs with
        | none => exact not_completes_of_no_inputs hr hinputs
        | some inputs =>
          exact not_completes_of_inputs hr hs
            (fun t n d hn hd => (hmode t n d hn hd).trans hreactive) (by rw [hn₀]; rfl) habove
            hinputs
      · exact not_completes_of_manual hr hreactive hmode hfeeders

end Endless

theorem Engine.scheduled_turn_of_not_completes (hturn : Turn e top rest e' new)
    (hnot : ∀ id, ¬ top.Completes e.graph id) : e'.scheduled = e.scheduled := by
  cases hturn with
  | finish id run epoch rest n d context outputs hn hrun hclaimed =>
    exact absurd ⟨run, epoch, d, context, outputs, n, rfl, hn, hrun, hclaimed⟩ (hnot id)
  | pass top rest e' new hpass =>
    cases hpass with
    | quit id run phase rest e' ending hsame hbeat hphase hend hlost htally => exact htally.2
    | _ => rfl
  | _ => rfl

theorem Endless.eventually_errands_eq_nil {E : Endless r} (hr : r.Steady) (hs : r.Convergent) :
    ∀ᶠ t in atTop, (E.written t).errands = [] := by
  have hnone := Endless.eventually_forall (E := E) (P := fun _ => True)
    fun u _ => Endless.eventually_not_completes hr hs u
  refine hnone.mono fun t ht => ?_
  obtain ⟨rest, hturn⟩ := (E.proceeds t).turn
  rw [Engine.errands, Engine.scheduled_turn_of_not_completes hturn fun id => ht id trivial,
    E.collected_at t]
  rfl

/-- Each step uses up work, or a wait goes on. The connections stay, and so do the costs. -/
theorem Endless.less {E : Endless r} (hr : r.Steady) (hwf : WellFounded (E.graph 0).wiring.Feeds)
    (t : ℕ) :
    Stack.work ((E.graph 0).wiring.cost hwf) (E.new t) <
      (E.top t).left ((E.graph 0).wiring.cost hwf) ∨ E.written t = E.engine t ∧
        Stack.work ((E.graph 0).wiring.cost hwf) (E.new t) ≤
          (E.top t).left ((E.graph 0).wiring.cost hwf) ∧
        Stack.idle (E.engine t).beat (E.new t) < (E.top t).idle (E.engine t).beat := by
  obtain ⟨rest, hturn⟩ := (E.proceeds t).turn
  have hwf' : WellFounded (E.graph t).wiring.Feeds := (E.whole hr t).wiring.acyclic
  have hless := hturn.less hwf'
  have hcost : (E.engine t).graph.wiring.cost hwf' = (E.graph 0).wiring.cost hwf := by
    have hwiring := E.wiring t
    rw [Endless.graph] at hwiring hwf'
    congr 1
  rwa [hcost] at hless

theorem not_endless (hr : r.Steady) (hs : r.Convergent) : IsEmpty (Endless r) := by
  refine ⟨fun E => ?_⟩
  have hwf := (E.whole hr 0).wiring.acyclic
  have herrands := Endless.eventually_errands_eq_nil (E := E) hr hs
  have hless := Endless.less (E := E) hr hwf
  -- Neither the steps of the runs are without end, nor those of the waits between them.
  have hpauses : ∀ᶠ t in atTop, ¬ Stack.work ((E.graph 0).wiring.cost hwf) (E.new t) <
      (E.top t).left ((E.graph 0).wiring.cost hwf) := by
    refine eventually_not_of_lt
      (μ := fun t => ((E.frames t).map (Frame.left ((E.graph 0).wiring.cost hwf))).sum)
      (herrands.mono fun t ht => ?_) (herrands.mono fun t ht hlt => ?_)
    · have hsum := (E.proceeds t).sum_map_of_errands
        (Frame.blind_left ((E.graph 0).wiring.cost hwf)) ht
      have hle := hless t
      simp only [Stack.work] at hle
      omega
    · have hsum := (E.proceeds t).sum_map_of_errands
        (Frame.blind_left ((E.graph 0).wiring.cost hwf)) ht
      simp only [Stack.work] at hlt
      omega
  have hwaits : ∀ᶠ t in atTop, ((E.frames (t + 1)).map (Frame.idle (E.engine (t + 1)).beat)).sum <
      ((E.frames t).map (Frame.idle (E.engine t).beat)).sum :=
    (hpauses.and herrands).mono fun t ht => by
      obtain ⟨hsame, -, hlt⟩ := (hless t).resolve_left ht.1
      have hbeat : (E.engine (t + 1)).beat = (E.engine t).beat := by
        rw [(E.proceeds t).engine, hsame]
      have hsum := (E.proceeds t).sum_map_of_errands (Frame.blind_idle (E.engine t).beat) ht.2
      rw [hbeat]
      simp only [Stack.idle] at hlt
      omega
  have hfalse := eventually_not_of_lt (P := fun _ => True)
    (μ := fun t => ((E.frames t).map (Frame.idle (E.engine t).beat)).sum)
    (hwaits.mono fun t ht => Nat.le_of_lt ht) (hwaits.mono fun t ht _ => ht)
  obtain ⟨t, ht⟩ := hfalse.exists
  exact ht trivial

/-! ## Accessibility -/

/-- The first computation is what becomes of the second when its job has an outcome. -/
inductive Computation.Follows : Computation → Computation → Prop
  | outcome (request : Generation.Request)
    (next : Except Generation.Error Generation.Output → Computation)
    (outcome : Except Generation.Error Generation.Output) :
    Follows (next outcome) (.generate request next)

theorem Computation.wellFounded_follows : WellFounded Follows := by
  refine ⟨fun c => ?_⟩
  induction c with
  | done result => exact ⟨_, fun c h => by cases h⟩
  | awaitPermit next => exact ⟨_, fun c h => by cases h⟩
  | generate request next ih =>
    refine ⟨_, fun c h => ?_⟩
    cases h with
    | outcome _ _ outcome => exact ih outcome

/-- A step of some task leads from the first engine with its levels to the second, and what it has
scheduled is turned into tasks. -/
def Acts (x y : Engine σ × List (Frame σ)) : Prop :=
  ∃ top rest post written new, x.2.Perm (top :: post) ∧ Turn x.1 top rest written new ∧
    y.1 = { written with scheduled := [] } ∧ y.2.Perm (new ++ post ++ written.errands)

/-- The same, perhaps after computations were given something. -/
def Turns (x y : Engine σ × List (Frame σ)) : Prop :=
  ∃ top post written new, Proceeds x.1 x.2 top post written new y.1 y.2

/-- The outcome of one job leads from the first engine with its levels to the second. -/
def Responds (x y : Engine σ × List (Frame σ)) : Prop :=
  y.1 = x.1 ∧ ∃ id run epoch d context c₀ c post, c.Follows c₀ ∧
    x.2.Perm (.run id (.computing run epoch d context c₀) :: post) ∧
    y.2.Perm (.run id (.computing run epoch d context c) :: post)

/-- A step of some task or the outcome of a job leads from the first engine with its levels to the
second. -/
def Happens (x y : Engine σ × List (Frame σ)) : Prop := Acts x y ∨ Responds x y

/-- The same, with computations that are given anything before the steps. -/
def Precedes (x y : Engine σ × List (Frame σ)) : Prop := Turns x y ∨ Responds x y

def Frame.computation? : Frame σ → Option Computation
  | .run _ (.computing _ _ _ _ c) => some c
  | _ => none

omit [NodeState σ] in
theorem Responds.answers {x y : Engine σ × List (Frame σ)} (h : Responds x y) :
    Answers x.2 y.2 := by
  obtain ⟨-, id, run, epoch, d, context, c₀, c, post, hfollows, hx, hy⟩ := h
  refine Answers.perm ⟨_, hx, .cons (.given id run epoch d context c₀ c ?_)
    (List.forall₂_same.2 fun f _ => .same f)⟩ hy.symm
  rintro result rfl
  cases hfollows

omit [NodeState σ] in
/-- Of the computations that are going on the outcome of a job replaces one by one that follows. -/
theorem Responds.cutExpand {x y : Engine σ × List (Frame σ)} (h : Responds x y) :
    CutExpand Computation.Follows (↑(y.2.filterMap Frame.computation?) : Multiset Computation)
      ↑(x.2.filterMap Frame.computation?) := by
  obtain ⟨-, id, run, epoch, d, context, c₀, c, post, hfollows, hx, hy⟩ := h
  have hx : (↑(x.2.filterMap Frame.computation?) : Multiset Computation) =
      {c₀} + ↑(post.filterMap Frame.computation?) := Multiset.coe_eq_coe.2 (hx.filterMap _)
  have hy : (↑(y.2.filterMap Frame.computation?) : Multiset Computation) =
      {c} + ↑(post.filterMap Frame.computation?) := Multiset.coe_eq_coe.2 (hy.filterMap _)
  rw [hx, hy]
  exact cutExpand_single_add hfollows _

/-- Whatever steps are taken from a sound state, they come to an end. -/
theorem acc_turns (hr : r.Steady) (hs : r.Convergent) {frames : List (Frame σ)}
    (h : Sound r e frames) (hcollected : e.scheduled = []) :
    Acc (fun y x => Turns x y) (e, frames) := by
  rw [acc_iff_isEmpty_descending_chain]
  refine ⟨fun chain => ?_⟩
  obtain ⟨state, hstart, hsteps⟩ := chain
  choose top post written new hproceeds using hsteps
  refine (not_endless hr hs).false
    ⟨fun t => (state t).1, fun t => (state t).2, top, post, written, new, ?_, ?_, hproceeds⟩
  · rw [hstart]
    exact h
  · rw [hstart]
    exact hcollected

theorem Turns.of_answers {frames frames' : List (Frame σ)} {y : Engine σ × List (Frame σ)}
    (h : Turns (e, frames) y) (hanswers : Answers frames' frames) : Turns (e, frames') y := by
  obtain ⟨top, post, written, new, hproceeds⟩ := h
  exact ⟨top, post, written, new, hanswers.trans hproceeds.before, hproceeds.turn,
    hproceeds.engine, hproceeds.after⟩

/-- Whatever steps are taken from a sound state and whatever the outcomes of jobs are between them,
they come to an end. -/
theorem acc_of_sound (hr : r.Steady) (hs : r.Convergent) {frames : List (Frame σ)}
    (h : Sound r e frames) (hcollected : e.scheduled = []) :
    Acc (fun y x => Precedes x y) (e, frames) := by
  suffices hall : ∀ x, Acc (fun y x => Turns x y) x → ∀ y : Engine σ × List (Frame σ),
      x.1 = y.1 → Answers x.2 y.2 → Acc (fun y x => Precedes x y) y from
    hall _ (acc_turns hr hs h hcollected) _ rfl (.of_perm (.refl _))
  intro x hacc
  induction hacc with
  | intro x hbefore ih =>
    -- Between two steps there are so many outcomes of jobs.
    have hwf : WellFounded fun y' y : Engine σ × List (Frame σ) =>
        CutExpand Computation.Follows (↑(y'.2.filterMap Frame.computation?) : Multiset Computation)
          ↑(y.2.filterMap Frame.computation?) :=
      InvImage.wf _ Computation.wellFounded_follows.cutExpand
    refine fun y => hwf.induction (C := fun y => x.1 = y.1 → Answers x.2 y.2 →
      Acc (fun y x => Precedes x y) y) y fun y ihy hengine hanswers => ⟨y, fun z hz => ?_⟩
    rcases hz with hturns | hresponds
    · refine ih z ?_ z rfl (.of_perm (.refl _))
      obtain ⟨e, frames⟩ := x
      obtain ⟨e', frames'⟩ := y
      cases hengine
      exact hturns.of_answers hanswers
    · exact ihy z hresponds.cutExpand (hengine.trans hresponds.1.symm)
        (hanswers.trans hresponds.answers)

theorem Precedes.sound {x y : Engine σ × List (Frame σ)} (h : Precedes x y) (hr : r.Steady)
    (hsound : Sound r x.1 x.2) : Sound r y.1 y.2 := by
  rcases h with ⟨_, _, _, _, hproceeds⟩ | hresponds
  · exact hproceeds.sound hr hsound
  · rw [hresponds.1]
    exact hresponds.answers.sound hsound

theorem Acts.append {frames frames' : List (Frame σ)} (h : Acts (e, frames) (e', frames'))
    (past : List (Frame σ)) : Acts (e, frames ++ past) (e', frames' ++ past) := by
  obtain ⟨top, rest, post, written, new, hbefore, hturn, hengine, hafter⟩ := h
  refine ⟨top, rest, post ++ past, written, new, hbefore.append_right past, hturn, hengine,
    (hafter.append_right past).trans ?_⟩
  simp only [List.append_assoc]
  exact (List.perm_append_left_iff _).2 ((List.perm_append_left_iff _).2 List.perm_append_comm)

omit [NodeState σ] in
theorem Responds.append {frames frames' : List (Frame σ)} (h : Responds (e, frames) (e', frames'))
    (past : List (Frame σ)) : Responds (e, frames ++ past) (e', frames' ++ past) := by
  obtain ⟨hengine, id, run, epoch, d, context, c₀, c, post, hfollows, hbefore, hafter⟩ := h
  exact ⟨hengine, id, run, epoch, d, context, c₀, c, post ++ past, hfollows,
    hbefore.append_right past, hafter.append_right past⟩

/-- What happens to some levels happens whatever other levels there are. -/
theorem Happens.append {frames frames' : List (Frame σ)} (h : Happens (e, frames) (e', frames'))
    (past : List (Frame σ)) : Happens (e, frames ++ past) (e', frames' ++ past) :=
  h.imp (·.append past) (·.append past)

theorem Happens.precedes {x y : Engine σ × List (Frame σ)} (h : Happens x y) : Precedes x y := by
  rcases h with ⟨top, rest, post, written, new, hbefore, hturn, hengine, hafter⟩ | hresponds
  · exact .inl ⟨top, post, written, new, .of_perm hbefore, ⟨rest, hturn⟩, hengine, hafter⟩
  · exact .inr hresponds

theorem Precedes.perm {frames frames' : List (Frame σ)} {y : Engine σ × List (Frame σ)}
    (h : Precedes (e, frames) y) (hperm : frames'.Perm frames) : Precedes (e, frames') y := by
  rcases h with hturns | ⟨hengine, id, run, epoch, d, context, c₀, c, post, hfollows, hbefore, hafter⟩
  · exact .inl (hturns.of_answers (.of_perm hperm))
  · exact .inr ⟨hengine, id, run, epoch, d, context, c₀, c, post, hfollows,
      hperm.trans hbefore, hafter⟩

end Patchbay
