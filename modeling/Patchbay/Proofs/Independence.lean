import Patchbay.Proofs.Agreement
import Patchbay.Proofs.Draining
import Patchbay.Proofs.Idle
import Patchbay.Proofs.Restore

/-!
# Independent executions

An execution needs its node and all that feeds it, directly or not. It affects what can be reached
from its node, or from a node that it executes on the way because it is stale. Two executions are
independent if neither needs or affects what the other one affects; both may need the same fresh
nodes.

Such executions may take their steps in any order. Each of them goes on as if it were alone: the
nodes that it looks at are as it has left them itself, but for the numbers of runs.

What is proved here:
  1. `Alone.turn`: what an execution affects that is on its own, and that nobody is in its way.
  2. `World.Unmixed.go`: among independent executions each is where it would be on its own.
  3. `World.independent_executions`: so whatever the order of their steps is, they end alike and
     leave the same graph behind as one after the other.
-/

namespace Patchbay

open Relation

variable {σ : Type}

/-! ## What an execution reaches -/

namespace Graph

/-- The node and all that feeds it, directly or through others. -/
def needed (g : Graph σ) (base : NodeId) : Set NodeId :=
  {m | ReflTransGen g.wiring.Feeds m base}

/-- All that can be reached from the node, or from a stale one among those that feed it. -/
def affected (g : Graph σ) (base : NodeId) : Set NodeId :=
  {m | ∃ u, (u = base ∨ TransGen g.wiring.Feeds u base ∧ ∃ n, g.node? u = some n ∧ n.stale = true) ∧
    ReflTransGen g.wiring.Feeds u m}

/-- What an execution of the one node affects, one of the other neither needs nor affects. -/
structure Independent (g : Graph σ) (a b : NodeId) : Prop where
  left : ∀ m ∈ g.affected a, m ∉ g.needed b ∪ g.affected b
  right : ∀ m ∈ g.affected b, m ∉ g.needed a ∪ g.affected a

variable {g : Graph σ} {base id m : NodeId}

theorem needed_self (g : Graph σ) (base : NodeId) : base ∈ g.needed base := .refl

theorem affected_self (g : Graph σ) (base : NodeId) : base ∈ g.affected base :=
  ⟨base, .inl rfl, .refl⟩

theorem affected_below (h : id ∈ g.affected base) (hpath : ReflTransGen g.wiring.Feeds id m) :
    m ∈ g.affected base := by
  obtain ⟨u, hu, hreach⟩ := h
  exact ⟨u, hu, hreach.trans hpath⟩

/-- An execution of a node that the one of the base needs and affects stays within what that one
needs and affects. -/
theorem spans_of_mem (hneeded : id ∈ g.needed base) (haffected : id ∈ g.affected base) :
    g.wiring.Spans (g.needed base ∪ g.affected base) id where
  fed _ hu := .inl (.head hu hneeded)
  below _ hv := .inr (affected_below haffected hv)

def affects (g : Graph σ) (base m : NodeId) : Bool :=
  (base :: g.staleNodes.filter (g.wiring.reaches · base)).any (g.wiring.reaches · m)

theorem affects_iff (hw : g.wiring.Sound) : g.affects base m = true ↔ m ∈ g.affected base := by
  simp only [affects, List.any_eq_true, List.mem_cons, List.mem_filter, mem_staleNodes,
    hw.reaches_iff]
  constructor
  · rintro ⟨u, rfl | ⟨hstale, hpath⟩, hreach⟩
    · exact ⟨u, .inl rfl, hreach⟩
    · rcases reflTransGen_iff_eq_or_transGen.1 hpath with rfl | hpath
      · exact ⟨base, .inl rfl, hreach⟩
      · exact ⟨u, .inr ⟨hpath, hstale⟩, hreach⟩
  · rintro ⟨u, rfl | ⟨hpath, hstale⟩, hreach⟩
    · exact ⟨u, .inl rfl, hreach⟩
    · exact ⟨u, .inr ⟨hstale, hpath.to_reflTransGen⟩, hreach⟩

/-- Whether nothing that an execution of the one node may affect is needed or affected by one of the
other: it is enough to look at the node, at those that are stale, and at those that are fed. -/
def isApart (g : Graph σ) (a b : NodeId) : Bool :=
  (a :: (g.staleNodes ++ g.wiring.connections.map (·.sink.node))).all fun m =>
    !(g.affects a m && (g.wiring.reaches m b || g.affects b m))

theorem notMem_of_isApart (hw : g.wiring.Sound) {a b : NodeId} (h : g.isApart a b = true) :
    ∀ m ∈ g.affected a, m ∉ g.needed b ∪ g.affected b := by
  intro m hm hmeets
  have hlisted : m ∈ a :: (g.staleNodes ++ g.wiring.connections.map (·.sink.node)) := by
    obtain ⟨u, hu, hpath⟩ := hm
    rcases ReflTransGen.cases_tail hpath with rfl | ⟨v, -, c, hc, -, rfl⟩
    · rcases hu with rfl | ⟨-, hstale⟩
      · exact List.mem_cons_self
      · exact List.mem_cons_of_mem _ (List.mem_append_left _ (mem_staleNodes.2 hstale))
    · exact List.mem_cons_of_mem _ (List.mem_append_right _
        (List.mem_map_of_mem (Wiring.mem_connections.2 hc)))
  have hnot := List.all_eq_true.1 h m hlisted
  have hneeds : (g.wiring.reaches m b || g.affects b m) = true := by
    rw [Bool.or_eq_true, hw.reaches_iff, affects_iff hw]
    exact hmeets
  rw [(affects_iff hw).2 hm, hneeds] at hnot
  cases hnot

end Graph

/-! ## Tasks that go on -/

/-- How computations go on that wait for something: a function of the node type, of what the
computation was given, and of what it has come to. -/
abbrev Course (σ : Type) := Definition σ → Context σ → Computation → Computation

/-- What the computation of the task becomes, if it waits for something. -/
def Stack.resumed? (course : Course σ) : Stack σ → Option Computation
  | .run _ (.computing _ _ _ _ (.done _)) :: _ => none
  | .run _ (.computing _ _ d context c) :: _ => some (course d context c)
  | _ => none

/-- Whether and how an execution has ended that is the task with this number. -/
def World.ending? (w : World σ) (task : Nat) : Option Ending := w.tasks[task]?.bind Stack.ending?

variable [NodeState σ]

/-- An engine and one task on it, after its computation has gone on or it has taken a step. -/
def Engine.go (course : Course σ) (x : Engine σ × Stack σ) : Engine σ × Stack σ :=
  match x.2.resumed? course with
  | some c => (x.1, x.2.proceed c)
  | none => (x.1.step x.2).getD x

namespace World

/-- The task goes on: its computation does if it waits for something, or else it takes a step. -/
def go (course : Course σ) (w : World σ) (task : Nat) : World σ :=
  match w.tasks[task]?.bind (Stack.resumed? course) with
  | some c => w.next (.deliver task c)
  | none => w.next (.step task)

def pursue (course : Course σ) (w : World σ) (tasks : List Nat) : World σ :=
  tasks.foldl (go course) w

/-- These executions end alike in both worlds, and the graphs are the same but for the numbers of
runs. -/
structure ConcursOn (w : World σ) (calls : List Nat) (w' : World σ) : Prop where
  endings : ∀ task ∈ calls, w'.ending? task = w.ending? task
  graph : w.engine.graph.AgreesOn Set.univ w'.engine.graph

variable {course : Course σ} {w : World σ} {task : Nat} {s : Stack σ}

/-- What becomes of the engine and of the tasks when one of them goes on. -/
theorem go_spec (course : Course σ) (hs : w.tasks[task]? = some s) :
    (Engine.go course (w.engine, s)).1.Same (w.go course task).engine ∧
      (w.go course task).tasks[task]? = some (Engine.go course (w.engine, s)).2 ∧
      ∀ j t, j ≠ task → w.tasks[j]? = some t → (w.go course task).tasks[j]? = some t := by
  rw [go, Engine.go, hs, Option.bind_some]
  cases s.resumed? course with
  | some c =>
    refine ⟨⟨rfl, rfl, rfl, rfl⟩, ?_, fun j t hj ht => ?_⟩
    · show (w.tasks.modify task _)[task]? = _
      rw [List.getElem?_modify_eq, hs]
      rfl
    · show (w.tasks.modify task _)[j]? = _
      rw [List.getElem?_modify_ne _ _ (Ne.symm hj), ht]
  | none =>
    show Engine.Same _ (w.stepTask task).engine ∧ (w.stepTask task).tasks[task]? = _ ∧
      ∀ j t, j ≠ task → w.tasks[j]? = some t → (w.stepTask task).tasks[j]? = some t
    cases hstep : w.engine.step s with
    | none =>
      have hstuck : w.stepTask task = w := by simp only [stepTask, hs, hstep]
      rw [hstuck]
      exact ⟨⟨rfl, rfl, rfl, rfl⟩, hs, fun j t _ ht => ht⟩
    | some x =>
      have hnext : w.stepTask task = collect ⟨x.1, w.tasks.set task x.2,
          w.answers ++ (s.head?.bind Frame.answer?).toList⟩ := by
        simp only [stepTask, hs, hstep]
      rw [hnext]
      exact ⟨⟨rfl, rfl, rfl, rfl⟩, getElem?_collect_self hs,
        fun j t hj ht => getElem?_collect_ne ht hj⟩

end World

inductive Engine.Onward (course : Course σ) : Engine σ × Stack σ → Engine σ × Stack σ → Prop
  | stays (x : Engine σ × Stack σ) : Onward course x x
  | resumed (e : Engine σ) (id : NodeId) (run epoch : Nat) (d : Definition σ) (context : Context σ)
    (c : Computation) (rest : Stack σ) :
    Onward course (e, .run id (.computing run epoch d context c) :: rest)
      (e, .run id (.computing run epoch d context (course d context c)) :: rest)
  | turned (e : Engine σ) (top : Frame σ) (rest : Stack σ) (e' : Engine σ) (new : Stack σ)
    (hturn : Turn e top rest e' new) : Onward course (e, top :: rest) (e', new ++ rest)

theorem Engine.onward_go (course : Course σ) (x : Engine σ × Stack σ) :
    Onward course x (go course x) := by
  obtain ⟨e, s⟩ := x
  rw [go]
  cases hc : s.resumed? course with
  | some c =>
    unfold Stack.resumed? at hc
    split at hc
    · cases hc
    · cases hc
      exact .resumed e _ _ _ _ _ _ _
    · cases hc
  | none =>
    cases hstep : e.step s with
    | none => exact .stays _
    | some x =>
      obtain ⟨e', s'⟩ := x
      obtain ⟨top, rest, new, rfl, rfl, hturn⟩ := Engine.turn_of_step hstep
      exact .turned e top rest e' new hturn

/-! ## Each run has its node -/

/-- The levels of a task are linked, and each run has the node that it has claimed. -/
structure Stack.Firm (g : Graph σ) (s : Stack σ) : Prop where
  linked : s.Linked g.wiring
  owned : ∀ f ∈ s, f.Owned g

section

variable {course : Course σ} {e e' : Engine σ} {top : Frame σ} {rest new s s' : Stack σ}

omit [NodeState σ] in
theorem Stack.Firm.execution (g : Graph σ) (id : NodeId) : (Stack.execution id).Firm g :=
  ⟨.execution id, List.forall_mem_singleton.2 nofun⟩

theorem Stack.Firm.turn (h : Stack.Firm e.graph (top :: rest)) (hw : e.graph.wiring.Sound)
    (hturn : Turn e top rest e' new) : Stack.Firm e'.graph (new ++ rest) := by
  obtain ⟨htop, hrest⟩ := List.forall_mem_cons.1 h.owned
  refine ⟨?_, List.forall_mem_append.2 ⟨htop.turn hturn, fun f hf => ?_⟩⟩
  · rw [Engine.wiring_turn hturn]
    exact h.linked.turn hturn
  · refine (hrest f hf).other hturn fun id run k heq hclaim => ?_
    have hcircle := (List.pairwise_cons.1 h.linked.above).1 f hf id id (heq ▸ rfl)
      (Frame.node?_of_holds (.inl ⟨k, hclaim⟩))
    exact hw.acyclic.transGen.irrefl.irrefl id hcircle

theorem Stack.Firm.onward {x y : Engine σ × Stack σ} (h : x.2.Firm x.1.graph)
    (hw : x.1.graph.wiring.Sound) (hgo : Engine.Onward course x y) : y.2.Firm y.1.graph := by
  cases hgo with
  | stays x => exact h
  | resumed e id run epoch d context c rest =>
    obtain ⟨htop, hrest⟩ := List.forall_mem_cons.1 h.owned
    exact ⟨h.linked.replace rfl trivial, List.forall_mem_cons.2 ⟨htop, hrest⟩⟩
  | turned e top rest e' new hturn => exact h.turn hw hturn

omit [NodeState σ] in
/-- Nobody else's steps take their nodes from the runs of a task. -/
theorem Stack.Firm.congr {g g' : Graph σ} (h : s.Firm g) (hwiring : g'.wiring = g.wiring)
    (hsame : ∀ f ∈ s, ∀ id, f.node? = some id → g'.node? id = g.node? id) : s.Firm g' := by
  refine ⟨hwiring.symm ▸ h.linked, fun f hf id run hclaim => ?_⟩
  obtain ⟨n, hn⟩ := h.owned f hf id run hclaim
  refine ⟨n, ?_⟩
  rw [Graph.ownedNode?, hsame f hf id (Frame.node?_of_holds (.inl ⟨run, hclaim⟩))]
  exact hn

/-! ## Two tasks in step -/

omit [NodeState σ] in
/-- A computation that goes on does not look at the number of its run. -/
theorem InStep.resumed?_eq {A : Set NodeId} {x y : Engine σ × Stack σ} (h : InStep A x y) :
    y.2.resumed? course = x.2.resumed? course := by
  obtain ⟨e, s⟩ := x
  obtain ⟨e', s'⟩ := y
  obtain ⟨-, hlevels⟩ := h
  cases hlevels with
  | nil => rfl
  | @cons top top' rest rest' htop hrest =>
    obtain ⟨k, rfl⟩ := htop
    cases top with
    | run id phase =>
      cases phase with
      | computing run epoch d context c => cases c <;> rfl
      | _ => rfl
    | _ => rfl

omit [NodeState σ] in
theorem InStep.proceed {A : Set NodeId} {x y : Engine σ × Stack σ} (h : InStep A x y)
    (c : Computation) : InStep A (x.1, x.2.proceed c) (y.1, y.2.proceed c) := by
  obtain ⟨e, s⟩ := x
  obtain ⟨e', s'⟩ := y
  obtain ⟨hengine, hlevels⟩ := h
  refine ⟨hengine, ?_⟩
  cases hlevels with
  | nil => exact .nil
  | @cons top top' rest rest' htop hrest =>
    obtain ⟨k, rfl⟩ := htop
    cases top with
    | run id phase => cases phase <;> exact .cons ⟨k, rfl⟩ hrest
    | _ => exact .cons ⟨k, rfl⟩ hrest

theorem InStep.go {A : Set NodeId} {x y : Engine σ × Stack σ} (h : InStep A x y)
    (hw : x.1.graph.wiring.Sound)
    (hruns : ∀ f ∈ x.2, ∃ id phase, f = .run id phase ∧ x.1.graph.wiring.Spans A id)
    (hown : ∀ f ∈ x.2, f.Owned x.1.graph) (hown' : ∀ f ∈ y.2, f.Owned y.1.graph) :
    InStep A (Engine.go course x) (Engine.go course y) := by
  rw [Engine.go, Engine.go, h.resumed?_eq]
  cases x.2.resumed? course with
  | some c => exact h.proceed c
  | none =>
    have hstep := InStep.step h hw hruns hown hown'
    generalize x.1.step x.2 = z at hstep ⊢
    generalize y.1.step y.2 = z' at hstep ⊢
    cases hstep with
    | none => exact h
    | some hnext => exact hnext

end

/-! ## An execution on its own -/

omit [NodeState σ] in
theorem Frame.Aims.feeds {w : Wiring} {id u : NodeId} {phase : Phase σ}
    (h : (Frame.run id phase).Aims w) (hu : u ∈ (Frame.run id phase).listed) : w.Feeds u id := by
  cases phase with
  | pulling run todo => exact h u hu
  | _ => cases hu

/-- A run that nobody is in the way of is followed by runs of its node, or of one that it pulls. -/
theorem Frame.runs_of_turn {e e' : Engine σ} {id : NodeId} {phase : Phase σ} {rest new : Stack σ}
    (h : (Frame.run id phase).Unhindered) (hturn : Turn e (.run id phase) rest e' new) :
    ∀ f ∈ new, ∃ u phase', f = .run u phase' ∧ (u = id ∨ u ∈ (Frame.run id phase).listed) ∧
      ∀ v ∈ f.listed, v ∈ (Frame.run id phase).listed ∨ v ∈ e.toPull id := by
  cases hturn with
  | list id run rest =>
    exact List.forall_mem_singleton.2 ⟨id, _, rfl, .inl rfl, fun _ hv => .inr hv⟩
  | pull id run p todo rest =>
    refine List.forall_mem_cons.2 ⟨⟨p, _, rfl, .inr List.mem_cons_self, nofun⟩, ?_⟩
    exact List.forall_mem_singleton.2
      ⟨id, _, rfl, .inl rfl, fun _ hv => .inl (List.mem_cons_of_mem _ hv)⟩
  | pass top rest e' new hpass =>
    cases hpass with
    | await => exact absurd rfl h
    | drop => exact List.forall_mem_nil _
    | _ => exact List.forall_mem_singleton.2 ⟨id, _, rfl, .inl rfl, nofun⟩
  | _ => exact List.forall_mem_singleton.2 ⟨id, _, rfl, .inl rfl, nofun⟩

/-- What holds of an execution of the base and its engine if nothing else goes on since the graph
was this one. -/
structure Alone (g : Graph σ) (base : NodeId) (x : Engine σ × Stack σ) : Prop where
  wiring : x.1.graph.wiring = g.wiring
  outside : ∀ m, m ∉ g.affected base → x.1.graph.node? m = g.node? m
  levels : ∀ f ∈ x.2, ∃ id phase, f = .run id phase ∧ id ∈ g.needed base ∧ id ∈ g.affected base
  listed : ∀ f ∈ x.2, ∀ u ∈ f.listed, u ∈ g.affected base
  firm : x.2.Firm x.1.graph
  unhindered : ∀ f ∈ x.2, f.Unhindered
  held : Held x.1.graph x.2

namespace Alone

variable {course : Course σ} {g : Graph σ} {base : NodeId} {e e' : Engine σ}
  {x y : Engine σ × Stack σ}

omit [NodeState σ] in
theorem start (e : Engine σ) (hfree : ∀ id n, e.graph.node? id = some n → n.claimed = false)
    (base : NodeId) : Alone e.graph base (e, .execution base) where
  wiring := rfl
  outside _ _ := rfl
  levels := List.forall_mem_singleton.2
    ⟨base, .entering, rfl, e.graph.needed_self base, e.graph.affected_self base⟩
  listed := List.forall_mem_singleton.2 nofun
  firm := .execution e.graph base
  unhindered := List.forall_mem_singleton.2 nofun
  held := .of_unclaimed hfree

omit [NodeState σ] in
/-- Each level stays within what the execution needs and affects. -/
theorem spans (h : Alone g base x) :
    ∀ f ∈ x.2, ∃ id phase, f = .run id phase ∧
      x.1.graph.wiring.Spans (g.needed base ∪ g.affected base) id := by
  intro f hf
  obtain ⟨id, phase, rfl, hneeded, haffected⟩ := h.levels f hf
  rw [h.wiring]
  exact ⟨id, phase, rfl, Graph.spans_of_mem hneeded haffected⟩

/-- What a level of the execution comes to pull is stale. So it is among what the execution affects,
or it was stale in the beginning, and then it is among that as well. -/
theorem affected_of_toPull (h : Alone g base x) {id u : NodeId} (hid : id ∈ g.needed base)
    (hu : u ∈ x.1.toPull id) : u ∈ g.affected base := by
  by_contra hnot
  obtain ⟨hfeeds, hstale⟩ := List.mem_filter.1 hu
  rw [h.outside u hnot, Option.any_eq_true] at hstale
  obtain ⟨n, hn, hstale⟩ := hstale
  rw [Bool.and_eq_true] at hstale
  have hpath : TransGen g.wiring.Feeds u base := .head' (h.wiring ▸ Wiring.mem_feeders.1 hfeeds) hid
  exact hnot ⟨u, .inr ⟨hpath, n, hn, hstale.1⟩, .refl⟩

theorem turn {top : Frame σ} {rest new : Stack σ} (h : Alone g base (e, top :: rest))
    (hw : g.wiring.Sound) (hturn : Turn e top rest e' new) : Alone g base (e', new ++ rest) := by
  have hsame : e.graph.wiring = g.wiring := h.wiring
  have hsound : e.graph.wiring.Sound := hsame.symm ▸ hw
  obtain ⟨htop, hrest⟩ := List.forall_mem_cons.1 h.levels
  obtain ⟨hlisted, hlisteds⟩ := List.forall_mem_cons.1 h.listed
  obtain ⟨hfree, hfrees⟩ := List.forall_mem_cons.1 h.unhindered
  obtain ⟨id, phase, rfl, hneeded, haffected⟩ := htop
  have hruns := Frame.runs_of_turn hfree hturn
  refine ⟨?_, fun m hm => ?_, List.forall_mem_append.2 ⟨fun f hf => ?_, hrest⟩,
    List.forall_mem_append.2 ⟨fun f hf v hv => ?_, hlisteds⟩, h.firm.turn hsound hturn,
    List.forall_mem_append.2 ⟨Frame.unhindered_turn hfree hturn fun id run heq => ?_, hfrees⟩, ?_⟩
  · exact (Engine.wiring_turn hturn).trans hsame
  · refine ((Engine.within_turn hsound hturn).node? m fun hpath => ?_).trans (h.outside m hm)
    exact hm (Graph.affected_below haffected (hsame ▸ hpath))
  · obtain ⟨u, phase', rfl, rfl | hu, -⟩ := hruns f hf
    · exact ⟨u, phase', rfl, hneeded, haffected⟩
    · have hfeeds : e.graph.wiring.Feeds u id :=
        (h.firm.linked.aims _ List.mem_cons_self).feeds hu
      exact ⟨u, phase', rfl, .head (hsame ▸ hfeeds) hneeded, hlisted u hu⟩
  · obtain ⟨-, -, -, -, hlist⟩ := hruns f hf
    rcases hlist v hv with hv | hv
    · exact hlisted v hv
    · exact h.affected_of_toPull hneeded hv
  · cases heq
    have hheld : Held e.graph (.run id (.claiming run) :: rest) := h.held
    exact hheld.not_isClaimed hsound h.firm.linked
  · have hheld : Held e.graph ([] ++ .run id phase :: rest) := h.held
    exact hheld.turn hturn

theorem onward (h : Alone g base x) (hw : g.wiring.Sound) (hgo : Engine.Onward course x y) :
    Alone g base y := by
  cases hgo with
  | stays x => exact h
  | resumed e id run epoch d context c rest =>
    obtain ⟨⟨m, phase, heq, hid⟩, hlevels⟩ := List.forall_mem_cons.1 h.levels
    obtain ⟨-, hlisted⟩ := List.forall_mem_cons.1 h.listed
    obtain ⟨-, hunhindered⟩ := List.forall_mem_cons.1 h.unhindered
    cases heq
    have hheld : Held e.graph ([] ++ .run id (.computing run epoch d context c) :: rest) := h.held
    refine ⟨h.wiring, h.outside, List.forall_mem_cons.2 ⟨⟨id, _, rfl, hid⟩, hlevels⟩,
      List.forall_mem_cons.2 ⟨nofun, hlisted⟩, ?_, List.forall_mem_cons.2 ⟨nofun, hunhindered⟩, ?_⟩
    · have hgo : Engine.Onward course _ _ := .resumed e id run epoch d context c rest
      exact h.firm.onward (h.wiring.symm ▸ hw) hgo
    · have hkept : Held e.graph
          ([] ++ [.run id (.computing run epoch d context (course d context c))] ++ rest) :=
        hheld.keep fun k hk => ⟨_, List.mem_cons_self, hk⟩
      exact hkept
  | turned e top rest e' new hturn => exact h.turn hw hturn

/-- What holds of an execution on its own holds of it as long as it goes on. -/
theorem iterate (h : Alone g base x) (hw : g.wiring.Sound) (n : ℕ) :
    Alone g base ((Engine.go course)^[n] x) := by
  induction n generalizing x with
  | zero => exact h
  | succ n ih => exact ih (h.onward hw (Engine.onward_go course x))

end Alone

/-! ## Several executions -/

/-- Where an execution of the base is after it has gone on so often, if nothing else goes on. -/
def Engine.alone (course : Course σ) (e : Engine σ) (base : NodeId) (n : ℕ) :
    Engine σ × Stack σ :=
  (go course)^[n] (e, .execution base)

/-- All that feeds the node of an execution, and all that it affects, is as the execution has left
it itself. -/
def World.Tracks (g : Graph σ) (base : NodeId) (x : Engine σ × Stack σ) (task : ℕ)
    (w : World σ) : Prop :=
  ∃ s, w.tasks[task]? = some s ∧ s.Firm w.engine.graph ∧
    InStep (g.needed base ∪ g.affected base) x (w.engine, s)

/-- The engines work alike, and at most these nodes are different. -/
structure Engine.SameOutside (e : Engine σ) (B : Set NodeId) (e' : Engine σ) : Prop where
  registry : e'.registry = e.registry
  policy : e'.policy = e.policy
  wiring : e'.graph.wiring = e.graph.wiring
  node? : ∀ m, m ∉ B → e'.graph.node? m = e.graph.node? m

/-- Since the engine was this one, executions of the bases have gone on in this order; the first of
them has this number, and the others follow. Each is where it would be on its own, and what none of
them affects is as it was. -/
structure World.Unmixed (course : Course σ) (e : Engine σ) (bases : List NodeId) (k : ℕ)
    (order : List ℕ) (w : World σ) : Prop where
  outside : e.SameOutside {m | ∃ base ∈ bases, m ∈ e.graph.affected base} w.engine
  tracks : ∀ i base, bases[i]? = some base →
    w.Tracks e.graph base (e.alone course base (order.count (k + i))) (k + i)

section

theorem exists_of_forall₂ {α β : Type} {R : α → β → Prop} {l : List α} {l' : List β}
    (h : List.Forall₂ R l l') {b : β} (hb : b ∈ l') : ∃ a ∈ l, R a b := by
  induction h with
  | nil => cases hb
  | @cons a b' l l' hab _ ih =>
    rcases List.mem_cons.1 hb with rfl | hb
    · exact ⟨a, List.mem_cons_self, hab⟩
    · obtain ⟨a', ha', hR⟩ := ih hb
      exact ⟨a', List.mem_cons_of_mem _ ha', hR⟩

variable {course : Course σ} {e : Engine σ} {bases : List NodeId} {k : ℕ} {order : List ℕ}
  {w : World σ} {g : Graph σ} {base : NodeId} {x y : Engine σ × Stack σ} {A : Set NodeId}

omit [NodeState σ] in
theorem InStep.levels_of_alone (h : InStep A x y) (halone : Alone g base x) :
    ∀ f ∈ y.2, ∃ id phase, f = .run id phase ∧ id ∈ g.affected base := by
  intro f' hf'
  obtain ⟨f, hf, k, rfl⟩ := exists_of_forall₂ h.levels hf'
  obtain ⟨id, phase, rfl, -, haffected⟩ := halone.levels f hf
  exact ⟨id, phase.renumbered k, rfl, haffected⟩

omit [NodeState σ] in
theorem Stack.ending?_cons_cons (f f' : Frame σ) (rest : Stack σ) :
    Stack.ending? (f :: f' :: rest) = none := by
  unfold ending?
  split
  · rename_i heq
    cases heq
  · rfl

omit [NodeState σ] in
theorem InStep.ending?_eq (h : InStep A x y) : y.2.ending? = x.2.ending? := by
  obtain ⟨e, s⟩ := x
  obtain ⟨e', s'⟩ := y
  obtain ⟨-, hlevels⟩ := h
  cases hlevels with
  | nil => rfl
  | @cons top top' rest rest' htop hrest =>
    obtain ⟨k, rfl⟩ := htop
    cases hrest with
    | nil =>
      cases top with
      | run id phase => cases phase <;> rfl
      | _ => rfl
    | cons _ _ => rw [Stack.ending?_cons_cons, Stack.ending?_cons_cons]

omit [NodeState σ] in
theorem Engine.SameOutside.refl (e : Engine σ) (B : Set NodeId) : e.SameOutside B e :=
  ⟨rfl, rfl, rfl, fun _ _ => rfl⟩

omit [NodeState σ] in
theorem Engine.SameOutside.trans {e e' e'' : Engine σ} {B : Set NodeId} (h : e.SameOutside B e')
    (h' : e'.SameOutside A e'') (hsub : A ⊆ B) : e.SameOutside B e'' where
  registry := h'.registry.trans h.registry
  policy := h'.policy.trans h.policy
  wiring := h'.wiring.trans h.wiring
  node? m hm := (h'.node? m fun hA => hm (hsub hA)).trans (h.node? m hm)

/-- A task that goes on changes nothing but what is below the nodes of its levels. -/
theorem Engine.Onward.sameOutside (hgo : Engine.Onward course x y) (hw : x.1.graph.wiring.Sound)
    {B : Set NodeId} (hruns : ∀ f ∈ x.2, ∃ id phase, f = .run id phase ∧
      ∀ v, ReflTransGen x.1.graph.wiring.Feeds id v → v ∈ B) : x.1.SameOutside B y.1 := by
  cases hgo with
  | stays x => exact .refl _ _
  | resumed => exact .refl _ _
  | turned e top rest e' new hturn =>
    obtain ⟨id, phase, rfl, hbelow⟩ := hruns top List.mem_cons_self
    have hwithin := Engine.within_turn hw hturn
    obtain ⟨hregistry, hpolicy⟩ := Engine.registry_turn hturn
    exact ⟨hregistry, hpolicy, hwithin.wiring, fun m hm =>
      hwithin.node? m fun hpath => hm (hbelow m hpath)⟩

omit [NodeState σ] in
theorem notMem_of_pairwise (h : bases.Pairwise g.Independent) {i j : ℕ} {a b : NodeId}
    (hi : bases[i]? = some a) (hj : bases[j]? = some b) (hne : i ≠ j) :
    ∀ m ∈ g.affected a, m ∉ g.needed b ∪ g.affected b := by
  obtain ⟨hi, rfl⟩ := List.getElem?_eq_some_iff.1 hi
  obtain ⟨hj, rfl⟩ := List.getElem?_eq_some_iff.1 hj
  rcases Nat.lt_or_gt_of_ne hne with hlt | hlt
  · exact (List.pairwise_iff_getElem.1 h i j _ _ hlt).left
  · exact (List.pairwise_iff_getElem.1 h j i _ _ hlt).right

namespace World

/-- A task goes on as it would on its own, and changes nothing but what it affects. -/
theorem Tracks.go {task : ℕ} (h : w.Tracks g base x task) (course : Course σ)
    (halone : Alone g base x) (hw : g.wiring.Sound) (hwiring : w.engine.graph.wiring = g.wiring) :
    (w.go course task).Tracks g base (Engine.go course x) task ∧
      w.engine.SameOutside (g.affected base) (w.go course task).engine := by
  obtain ⟨s, hs, hfirm, hstep⟩ := h
  obtain ⟨hsame, hself, -⟩ := go_spec course hs
  have hgo := Engine.onward_go course (w.engine, s)
  have hsound : w.engine.graph.wiring.Sound := hwiring.symm ▸ hw
  have hnext : InStep _ (Engine.go course x) (Engine.go course (w.engine, s)) :=
    hstep.go (halone.wiring.symm ▸ hw) halone.spans halone.firm.owned hfirm.owned
  have houtside : w.engine.SameOutside (g.affected base) _ := hgo.sameOutside hsound fun f hf => by
    obtain ⟨id, phase, rfl, haffected⟩ := hstep.levels_of_alone halone f hf
    exact ⟨id, phase, rfl, fun v hv => Graph.affected_below haffected (hwiring ▸ hv)⟩
  -- What the step has scheduled is collected; that is all in which the engine differs.
  refine ⟨⟨_, hself, ?_, ⟨?_, ?_, ?_⟩, hnext.levels⟩, ?_, ?_, ?_, ?_⟩
  · rw [hsame.graph]
    exact hfirm.onward hsound hgo
  · exact hsame.registry.trans hnext.engine.registry
  · exact hsame.policy.trans hnext.engine.policy
  · rw [hsame.graph]
    exact hnext.engine.graph
  · exact hsame.registry.trans houtside.registry
  · exact hsame.policy.trans houtside.policy
  · rw [hsame.graph]
    exact houtside.wiring
  · rw [hsame.graph]
    exact houtside.node?

omit [NodeState σ] in
theorem Tracks.ending?_eq {task : ℕ} (h : w.Tracks g base x task) :
    w.ending? task = x.2.ending? := by
  obtain ⟨s, hs, -, hstep⟩ := h
  rw [ending?, hs]
  exact hstep.ending?_eq

omit [NodeState σ] in
/-- A task does not notice when others go on that change nothing of what it needs or affects. -/
theorem Tracks.other {task : ℕ} {w' : World σ} (h : w.Tracks g base x task)
    (halone : Alone g base x) (htasks : ∀ s, w.tasks[task]? = some s → w'.tasks[task]? = some s)
    (hsame : w.engine.SameOutside A w'.engine)
    (hapart : ∀ m ∈ A, m ∉ g.needed base ∪ g.affected base) : w'.Tracks g base x task := by
  obtain ⟨s, hs, hfirm, hstep⟩ := h
  have hnode : ∀ m ∈ g.needed base ∪ g.affected base,
      w'.engine.graph.node? m = w.engine.graph.node? m := fun m hm =>
    hsame.node? m fun hA => hapart m hA hm
  have hagree : w.engine.graph.AgreesOn (g.needed base ∪ g.affected base) w'.engine.graph := by
    refine ⟨hsame.wiring, fun m hm => ?_⟩
    rw [hnode m hm]
    exact Graph.rel_refl .refl _
  refine ⟨s, htasks s hs, hfirm.congr hsame.wiring fun f hf id hid => ?_, ?_, hstep.levels⟩
  · obtain ⟨u, phase, rfl, haffected⟩ := hstep.levels_of_alone halone f hf
    obtain rfl : u = id := Option.some.inj hid
    exact hnode u (.inr haffected)
  · exact ⟨hsame.registry.trans hstep.engine.registry, hsame.policy.trans hstep.engine.policy,
      hstep.engine.graph.trans hagree⟩

/-- When one of several independent executions goes on, each is where it would be on its own. -/
theorem Unmixed.go (h : w.Unmixed course e bases k order) (hw : e.graph.wiring.Sound)
    (hfree : ∀ id n, e.graph.node? id = some n → n.claimed = false)
    (hindependent : bases.Pairwise e.graph.Independent) {i : ℕ} (hi : i < bases.length) :
    (w.go course (k + i)).Unmixed course e bases k (order ++ [k + i]) := by
  have hbase := List.getElem?_eq_getElem hi
  have halone : ∀ base n, Alone e.graph base (e.alone course base n) := fun base n =>
    (Alone.start e hfree base).iterate hw n
  have htracks := h.tracks i _ hbase
  obtain ⟨hself, hsame⟩ := htracks.go course (halone _ _) hw h.outside.wiring
  obtain ⟨s, hs, -⟩ := htracks
  obtain ⟨-, -, htasks⟩ := go_spec course hs
  refine ⟨h.outside.trans hsame fun m hm => ⟨_, List.getElem_mem hi, hm⟩, fun j base hj => ?_⟩
  rw [List.count_append, List.count_singleton]
  by_cases hij : i = j
  · subst hij
    rw [hbase] at hj
    cases hj
    rw [beq_self_eq_true, if_pos rfl, Engine.alone, Function.iterate_succ_apply']
    exact hself
  · have hne : k + i ≠ k + j := by omega
    rw [beq_eq_false_iff_ne.2 hne, if_neg Bool.false_ne_true, Nat.add_zero]
    exact (h.tracks j base hj).other (halone _ _) (fun t ht => htasks _ t hne.symm ht) hsame
      (notMem_of_pairwise hindependent hbase hj hij)

theorem Unmixed.pursue (h : w.Unmixed course e bases k order) (hw : e.graph.wiring.Sound)
    (hfree : ∀ id n, e.graph.node? id = some n → n.claimed = false)
    (hindependent : bases.Pairwise e.graph.Independent) {more : List ℕ}
    (hmore : ∀ task ∈ more, ∃ i < bases.length, task = k + i) :
    (w.pursue course more).Unmixed course e bases k (order ++ more) := by
  induction more generalizing w order with
  | nil => rwa [List.append_nil]
  | cons task more ih =>
    obtain ⟨⟨i, hi, rfl⟩, hrest⟩ := List.forall_mem_cons.1 hmore
    have hnext := ih (h.go hw hfree hindependent hi) hrest
    rwa [List.append_assoc] at hnext

theorem Unmixed.start {before : List (Stack σ)} (hengine : w.engine = e)
    (htasks : w.tasks = before ++ bases.map Stack.execution) :
    w.Unmixed course e bases before.length [] where
  outside := hengine ▸ .refl e _
  tracks i base hi := by
    refine ⟨.execution base, ?_, .execution _ base, ?_⟩
    · rw [htasks, List.getElem?_append_right (Nat.le_add_right _ _), Nat.add_sub_cancel_left,
        List.getElem?_map, hi]
      rfl
    · rw [hengine]
      exact ⟨⟨rfl, rfl, .refl _ _⟩, .cons ⟨0, rfl⟩ .nil⟩

/-- It is only how often each of the tasks has gone on that matters. -/
theorem Unmixed.concurs {w' : World σ} {order' : List ℕ} (h : w.Unmixed course e bases k order)
    (h' : w'.Unmixed course e bases k order')
    (hcount : ∀ task, order'.count task = order.count task) :
    w.ConcursOn ((List.range bases.length).map (k + ·)) w' := by
  refine ⟨fun task htask => ?_, h'.outside.wiring.trans h.outside.wiring.symm, fun m _ => ?_⟩
  · obtain ⟨i, hi, rfl⟩ := List.mem_map.1 htask
    have hbase := List.getElem?_eq_getElem (List.mem_range.1 hi)
    rw [(h.tracks i _ hbase).ending?_eq, (h'.tracks i _ hbase).ending?_eq, hcount]
  · by_cases hm : ∃ base ∈ bases, m ∈ e.graph.affected base
    · obtain ⟨base, hbase, hm⟩ := hm
      obtain ⟨i, hi⟩ := List.mem_iff_getElem?.1 hbase
      obtain ⟨_, -, -, hstep⟩ := h.tracks i base hi
      obtain ⟨_, -, -, hstep'⟩ := h'.tracks i base hi
      rw [hcount] at hstep'
      exact (hstep.engine.graph.symm.trans hstep'.engine.graph).nodes m (.inr hm)
    · rw [h.outside.node? m hm, h'.outside.node? m hm]
      exact Graph.rel_refl .refl _

omit [NodeState σ] in
theorem count_apart {first second : ℕ} (hne : first ≠ second)
    (h : ∀ task ∈ order, task = first ∨ task = second) (task : ℕ) :
    (List.replicate (order.count first) first ++
      List.replicate (order.count second) second).count task = order.count task := by
  rw [List.count_append]
  by_cases hfirst : task = first
  · subst hfirst
    rw [List.count_replicate_self, List.count_replicate, if_neg (by simpa using hne.symm),
      Nat.add_zero]
  · by_cases hsecond : task = second
    · subst hsecond
      rw [List.count_replicate_self, List.count_replicate, if_neg (by simpa using hne),
        Nat.zero_add]
    · have hnot : task ∉ order := fun htask => (h task htask).elim hfirst hsecond
      rw [List.count_eq_zero.2 hnot, List.count_replicate, List.count_replicate,
        if_neg (by simpa using Ne.symm hfirst), if_neg (by simpa using Ne.symm hsecond)]

theorem not_claimed_of_isIdle {r : Registry σ} {p : Policy} {moves : List (Move σ)}
    (h : (after r p moves).engine.isIdle = true) (id : NodeId) (n : Node σ)
    (hn : (after r p moves).engine.graph.node? id = some n) : n.claimed = false := by
  have hnew : (new r p).Tallied := rfl
  obtain ⟨htallied, -⟩ := hnew.foldl rfl moves
  have hzero : (after r p moves).engine.inFlight = 0 := beq_iff_eq.1 h
  by_contra hclaimed
  obtain ⟨f, hf, hclaim⟩ := held_after r p moves id n hn (Bool.not_eq_false _ ▸ hclaimed)
  have hcounts : f.counts = true := by
    unfold Frame.claim? at hclaim
    split at hclaim <;> first
      | rfl
      | cases hclaim
  have hpos : 0 < (after r p moves).frames.countP Frame.counts :=
    List.countP_pos_iff.2 ⟨f, hf, hcounts⟩
  have htally : (after r p moves).engine.inFlight = (after r p moves).frames.countP Frame.counts +
    (after r p moves).engine.scheduled.length := htallied
  omega

end World

end

/-- Two independent executions that begin while no run is going on: in whatever order their steps
are taken, both end as they do one after the other, whichever comes first, and the graph is then the
same but for the numbers of runs. If one of them ends, it has then ended before the other begins.
How computations go on is up to their types and what they were given. Nothing else happens
meanwhile, and what the policy may have scheduled does not begin. -/
theorem World.independent_executions (r : Registry σ) (p : Policy) (moves : List (Move σ))
    (course : Course σ) (hidle : (after r p moves).engine.isIdle = true) (a b : NodeId)
    (hindependent : (after r p moves).engine.graph.Independent a b) (order : List ℕ) :
    let w := after r p moves
    let first := w.tasks.length
    let second := first + 1
    let started := (w.next (.start a)).next (.start b)
    let ofFirst := List.replicate (order.count first) first
    let ofSecond := List.replicate (order.count second) second
    (∀ task ∈ order, task = first ∨ task = second) →
      (started.pursue course order).ConcursOn [first, second]
        (started.pursue course (ofFirst ++ ofSecond)) ∧
      (started.pursue course order).ConcursOn [first, second]
        (started.pursue course (ofSecond ++ ofFirst)) ∧
      (started.pursue course ofFirst).ending? first =
        (started.pursue course order).ending? first ∧
      (started.pursue course ofSecond).ending? second =
        (started.pursue course order).ending? second := by
  intro w first second started ofFirst ofSecond horder
  have hw : w.engine.graph.wiring.Sound := sound_wiring_after r p moves
  have hfree := not_claimed_of_isIdle hidle
  have hpairwise : [a, b].Pairwise w.engine.graph.Independent := List.pairwise_pair.2 hindependent
  have hstart : started.Unmixed course w.engine [a, b] first [] :=
    .start rfl (List.append_assoc _ _ _)
  have hunmixed : ∀ tasks : List ℕ, (∀ task ∈ tasks, task = first ∨ task = second) →
      (started.pursue course tasks).Unmixed course w.engine [a, b] first tasks := by
    intro tasks htasks
    refine hstart.pursue hw hfree hpairwise fun task htask => ?_
    rcases htasks task htask with rfl | rfl
    · exact ⟨0, Nat.zero_lt_two, rfl⟩
    · exact ⟨1, Nat.one_lt_two, rfl⟩
  have hofFirst : ∀ task ∈ ofFirst, task = first ∨ task = second := fun task htask =>
    .inl (List.eq_of_mem_replicate htask)
  have hofSecond : ∀ task ∈ ofSecond, task = first ∨ task = second := fun task htask =>
    .inr (List.eq_of_mem_replicate htask)
  have hcount : ∀ task, (ofFirst ++ ofSecond).count task = order.count task :=
    count_apart (Nat.succ_ne_self first).symm horder
  have hcount' : ∀ task, (ofSecond ++ ofFirst).count task = order.count task := by
    intro task
    rw [List.count_append, Nat.add_comm, ← List.count_append, hcount]
  have hboth := hunmixed order horder
  refine ⟨hboth.concurs (hunmixed _ (List.forall_mem_append.2 ⟨hofFirst, hofSecond⟩)) hcount,
    hboth.concurs (hunmixed _ (List.forall_mem_append.2 ⟨hofSecond, hofFirst⟩)) hcount', ?_, ?_⟩
  · have halone := (hunmixed _ hofFirst).tracks 0 a rfl
    have htogether := hboth.tracks 0 a rfl
    rw [Nat.add_zero] at halone htogether
    rw [halone.ending?_eq, htogether.ending?_eq, List.count_replicate_self]
  · have halone := (hunmixed _ hofSecond).tracks 1 b rfl
    have htogether := hboth.tracks 1 b rfl
    rw [halone.ending?_eq, htogether.ending?_eq, List.count_replicate_self]

namespace Bench

/-- A text that has been executed, and two labels that are to show it: the one reads it through a
pass-through, which is stale. -/
def shown : List (Move BenchNode) :=
  [.create "s" "label", .create "t" "gated", .create "a" "label", .create "b" "label",
    .connect ⟨"s", "output"⟩ ⟨"t", "input"⟩, .connect ⟨"t", "output"⟩ ⟨"a", "text"⟩,
    .connect ⟨"s", "output"⟩ ⟨"b", "text"⟩, .start "s"] ++ List.replicate 9 (.step 0)

def permitting : Course BenchNode := fun _ _ c =>
  match c with
  | .awaitPermit next => next
  | c => c

/-- The two labels take turns until the one that has nothing to pull has ended. -/
def turns : List ℕ := (List.replicate 9 [1, 2]).flatten ++ List.replicate 12 1

theorem independent_executions_shown :
    let w := World.after (registry { reactiveGated := true }) {} shown
    let first := w.tasks.length
    let second := first + 1
    let started := (w.next (.start "a")).next (.start "b")
    let ofFirst := List.replicate (turns.count first) first
    let ofSecond := List.replicate (turns.count second) second
    first = 1 ∧ w.engine.isIdle = true ∧ w.engine.graph.Independent "a" "b" ∧
      ((started.pursue permitting turns).ending? first).isSome = true ∧
      ((started.pursue permitting turns).ending? second).isSome = true ∧
      (started.pursue permitting turns).ConcursOn [first, second]
        (started.pursue permitting (ofFirst ++ ofSecond)) ∧
      (started.pursue permitting turns).ConcursOn [first, second]
        (started.pursue permitting (ofSecond ++ ofFirst)) := by
  intro w first second started ofFirst ofSecond
  have hw : w.engine.graph.wiring.Sound := World.sound_wiring_after _ _ _
  have hidle : w.engine.isIdle = true := by decide +kernel
  have hindependent : w.engine.graph.Independent "a" "b" :=
    ⟨Graph.notMem_of_isApart hw (by decide +kernel),
      Graph.notMem_of_isApart hw (by decide +kernel)⟩
  obtain ⟨hab, hba, -, -⟩ := World.independent_executions (registry { reactiveGated := true }) {}
    shown permitting hidle "a" "b" hindependent turns (by decide +kernel)
  exact ⟨by decide +kernel, hidle, hindependent, by decide +kernel, by decide +kernel, hab, hba⟩

end Bench

end Patchbay
