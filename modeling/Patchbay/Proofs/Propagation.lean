import Patchbay.Proofs.Execution
import Patchbay.Proofs.Solo

/-!
# Equal outputs that are propagated

A policy may ask that outputs make the consumers stale even if they are equal to the old ones. A
pull lists the stale producers of a node once, in the order of their identities, and executes one
after another. If one of them is upstream of another that comes before it, it is executed inside
of that one's execution, and once more when its turn comes. By then it is fresh, and with such a
policy its equal outputs make the other one stale again, which nobody executes any more.

A graph is straight for a node if that cannot happen upstream of it: of two producers of one node,
of which the one is upstream of the other, the upstream one comes first. Then no pull executes a
fresh node, and what is propagated finds nothing that is not stale already.

What is proved here:
  1. `Stack.Tidy.turn`: on a straight graph whatever a pull has still to execute is stale.
  2. `World.propagation_harmless`: whatever the policy says about equal outputs, an execution ends
     as the recursion does, or it is blocked and the graph is not straight.
  3. `Studio.blocked_sharing`: that does happen, though the recursion completes.
-/

namespace Patchbay

open Relation

variable {σ : Type}

/-! ## Straight graphs -/

namespace Graph

variable {g g' : Graph σ}

/-- If two producers of a node that the base needs are linked, and the upstream one is stale, then
it comes first. -/
def Straight (g : Graph σ) (base : NodeId) : Prop :=
  ∀ id u v, ReflTransGen g.wiring.Feeds id base → g.wiring.Feeds u id → g.wiring.Feeds v id →
    TransGen g.wiring.Feeds u v → g.isFresh u = false → compare u v = .lt

/-- A graph whose connections all lead to later identities is straight for every node. -/
theorem straight_of_lt
    (h : ∀ c ∈ g.wiring.connections, compare c.source.node c.sink.node = .lt) (base : NodeId) :
    g.Straight base := by
  have hlt : ∀ {u v}, TransGen g.wiring.Feeds u v → compare u v = .lt := by
    intro u v hpath
    induction hpath with
    | single huv =>
      obtain ⟨c, hc, rfl, rfl⟩ := huv
      exact h c (Wiring.mem_connections.2 hc)
    | tail _ hbc ih =>
      obtain ⟨c, hc, rfl, rfl⟩ := hbc
      exact Std.TransCmp.lt_trans ih (h c (Wiring.mem_connections.2 hc))
  exact fun _ _ _ _ _ _ hpath _ => hlt hpath

/-- A graph stays straight as long as what is fresh stays so. -/
theorem Straight.mono {base : NodeId} (h : g.Straight base) (hw : g'.wiring = g.wiring)
    (hfresh : ∀ m, g.isFresh m = true → g'.isFresh m = true) : g'.Straight base := by
  intro id u v hid hu hv hpath hstale
  rw [hw] at hid hu hv hpath
  refine h id u v hid hu hv hpath ?_
  cases hs : g.isFresh u with
  | false => rfl
  | true =>
    rw [hfresh u hs] at hstale
    cases hstale

end Graph

/-! ## The levels of a task -/

/-- What is known of a run in this phase, on a level of a task whose outermost run is that of the
base. `above` is the node that the level above is about, if there is one. -/
structure Phase.Tidy (g : Graph σ) (base id : NodeId) (above : Option NodeId) (phase : Phase σ) :
    Prop where
  needed : ReflTransGen g.wiring.Feeds id base
  feeds : ∀ a, above = some a → g.wiring.Feeds a id
  stale : id ≠ base → phase.ending? = none → g.isFresh id = false
  sorted : ∀ run todo, phase = .pulling run todo → todo.Pairwise fun u v => compare u v = .lt
  /-- Whatever is still to be executed is stale, and comes after what is being executed. -/
  todo : ∀ run todo, phase = .pulling run todo → ∀ u ∈ todo,
    g.wiring.Feeds u id ∧ g.isFresh u = false ∧ ∀ a, above = some a → compare a u = .lt

/-- What is known of a level; only a run can have a level above it. -/
def Frame.Tidy (g : Graph σ) (base : NodeId) (above : Option NodeId) : Frame σ → Prop
  | .run id phase => phase.Tidy g base id above
  | _ => above = none

/-- What is known of the levels of a task, below one that is about a node. -/
def Stack.Tidy (g : Graph σ) (base : NodeId) : Option NodeId → Stack σ → Prop
  | _, [] => True
  | above, f :: rest => f.Tidy g base above ∧ Tidy g base f.node? rest

variable {g g' : Graph σ} {base id : NodeId} {above x : Option NodeId} {phase phase' : Phase σ}

theorem Phase.Tidy.entering (hneeded : ReflTransGen g.wiring.Feeds id base)
    (hstale : id ≠ base → g.isFresh id = false) :
    (Phase.entering : Phase σ).Tidy g base id none where
  needed := hneeded
  feeds _ h := by cases h
  stale hid _ := hstale hid
  sorted _ _ h := by cases h
  todo _ _ h := by cases h

/-- What is known outlasts a change that makes no node fresh but one upstream of the level above.
The run itself is downstream of that, and what it has still to execute does not lie upstream of
what it executes now, or it would have come first. -/
theorem Phase.Tidy.mono (h : phase.Tidy g base id above) (hstraight : g.Straight base)
    (hacyclic : WellFounded g.wiring.Feeds) (hw : g'.wiring = g.wiring)
    (hstale : ∀ m, x ≠ some m → g.isFresh m = false → g'.isFresh m = false)
    (hx : ∀ b, x = some b → ∃ a, above = some a ∧ ReflTransGen g.wiring.Feeds b a) :
    phase.Tidy g' base id above where
  needed := by
    rw [hw]
    exact h.needed
  feeds a ha := by
    rw [hw]
    exact h.feeds a ha
  stale hid hend := by
    refine hstale id (fun heq => ?_) (h.stale hid hend)
    obtain ⟨a, ha, hpath⟩ := hx id heq
    exact hacyclic.transGen.irrefl.irrefl id (TransGen.tail' hpath (h.feeds a ha))
  sorted := h.sorted
  todo run todo heq u hu := by
    obtain ⟨hfeeds, hs, hafter⟩ := h.todo run todo heq u hu
    refine ⟨by rwa [hw], hstale u (fun hux => ?_) hs, hafter⟩
    obtain ⟨a, ha, hpath⟩ := hx u hux
    have hlater : compare a u = .lt := hafter a ha
    rcases reflTransGen_iff_eq_or_transGen.1 hpath with rfl | hpath
    · rw [Std.ReflOrd.compare_self] at hlater
      cases hlater
    · have hfirst := hstraight id u a h.needed hfeeds (h.feeds a ha) hpath hs
      rw [Std.OrientedCmp.gt_of_lt hfirst] at hlater
      cases hlater

namespace Stack.Tidy

variable {s : Stack σ}

theorem mono (h : Stack.Tidy g base above s) (hstraight : g.Straight base)
    (hacyclic : WellFounded g.wiring.Feeds) (hw : g'.wiring = g.wiring)
    (hstale : ∀ m, x ≠ some m → g.isFresh m = false → g'.isFresh m = false)
    (hx : ∀ b, x = some b → ∃ a, above = some a ∧ ReflTransGen g.wiring.Feeds b a) :
    Stack.Tidy g' base above s := by
  induction s generalizing above with
  | nil => trivial
  | cons f rest ih =>
    cases f with
    | run id phase =>
      have htidy : phase.Tidy g base id above := h.1
      refine ⟨htidy.mono hstraight hacyclic hw hstale hx, ih h.2 fun b hb => ?_⟩
      obtain ⟨a, ha, hpath⟩ := hx b hb
      exact ⟨id, rfl, hpath.tail (htidy.feeds a ha)⟩
    | wait t watch | errand left =>
      have hnone : above = none := h.1
      refine ⟨hnone, ih h.2 fun b hb => ?_⟩
      obtain ⟨a, ha, -⟩ := hx b hb
      rw [hnone] at ha
      cases ha

theorem skip (h : Stack.Tidy g base above s) : Stack.Tidy g base none s := by
  cases s with
  | nil => trivial
  | cons f rest =>
    refine ⟨?_, h.2⟩
    cases f with
    | run id phase =>
      have htidy : phase.Tidy g base id above := h.1
      exact ⟨htidy.needed, nofun, htidy.stale, htidy.sorted, fun run todo heq u hu =>
        ⟨(htidy.todo run todo heq u hu).1, (htidy.todo run todo heq u hu).2.1, nofun⟩⟩
    | _ => rfl

theorem eq_nil (h : Stack.Tidy g base (some base) s) (hacyclic : WellFounded g.wiring.Feeds) :
    s = [] := by
  cases s with
  | nil => rfl
  | cons f rest =>
    cases f with
    | run id phase =>
      have htidy : phase.Tidy g base id (some base) := h.1
      have hcircle := TransGen.head' (htidy.feeds base rfl) htidy.needed
      exact absurd hcircle (hacyclic.transGen.irrefl.irrefl base)
    | wait t watch | errand left => cases h.1

end Stack.Tidy

/-- A computation on a tidy level will find its node stale, unless it is that of the base, which is
then on its own. -/
theorem Stack.Tidy.novel {top : Frame σ} {rest : Stack σ}
    (h : Stack.Tidy g base none (top :: rest)) (hacyclic : WellFounded g.wiring.Feeds) :
    top.Novel g ∨ rest = [] ∧
      ∃ run epoch d context c, top = .run base (.computing run epoch d context c) := by
  cases top with
  | wait t watch | errand left => exact .inl trivial
  | run id phase =>
    have htidy : phase.Tidy g base id none := h.1
    cases phase with
    | computing run epoch d context c =>
      by_cases hid : id = base
      · subst hid
        exact .inr ⟨Stack.Tidy.eq_nil h.2 hacyclic, run, epoch, d, context, c, rfl⟩
      · exact .inl (htidy.stale hid rfl)
    | _ => exact .inl trivial

variable [NodeState σ] {e e' : Engine σ} {top : Frame σ} {rest new : Stack σ}

theorem Engine.sorted_toPull (e : Engine σ) (id : NodeId) :
    (e.toPull id).Pairwise fun u v => compare u v = .lt :=
  (e.graph.wiring.sorted_feeders id).filter _

theorem Engine.of_mem_toPull {u : NodeId} (h : u ∈ e.toPull id) :
    e.graph.wiring.Feeds u id ∧ e.graph.isFresh u = false := by
  obtain ⟨hfeeds, hany⟩ := List.mem_filter.1 h
  obtain ⟨n, hn, hs⟩ := (Option.any_eq_true _ _).1 hany
  refine ⟨Wiring.mem_feeders.1 hfeeds, ?_⟩
  simp [Graph.isFresh, hn, (Bool.and_eq_true_iff.1 hs).1]

/-- The run goes on to another phase, with nothing to execute but what is stale. -/
theorem Phase.Tidy.next (h : phase.Tidy e.graph base id none)
    (hturn : Turn e (.run id phase) rest e' new)
    (hend : phase'.ending? = none → phase.ending? = none ∧
      ∀ run epoch d context c, phase ≠ .computing run epoch d context c)
    (hlist : ∀ run todo, phase' = .pulling run todo →
      todo.Pairwise (fun u v => compare u v = .lt) ∧
      ∀ u ∈ todo, e'.graph.wiring.Feeds u id ∧ e'.graph.isFresh u = false) :
    phase'.Tidy e'.graph base id none where
  needed := by
    rw [Engine.wiring_turn hturn]
    exact h.needed
  feeds := nofun
  stale hid hnone := by
    obtain ⟨hbefore, hcomputing⟩ := hend hnone
    refine Engine.isFresh_turn hturn (fun run epoch d context c heq => ?_) (h.stale hid hbefore)
    exact hcomputing run epoch d context c (Frame.run.inj heq).2
  sorted run todo heq := (hlist run todo heq).1
  todo run todo heq u hu :=
    ⟨((hlist run todo heq).2 u hu).1, ((hlist run todo heq).2 u hu).2, nofun⟩

/-- Every step of a task on a straight graph leaves its levels tidy. -/
theorem Stack.Tidy.turn (h : Stack.Tidy e.graph base none (top :: rest))
    (hstraight : e.graph.Straight base) (hacyclic : WellFounded e.graph.wiring.Feeds)
    (hturn : Turn e top rest e' new) : Stack.Tidy e'.graph base none (new ++ rest) := by
  have hrest : Stack.Tidy e'.graph base top.node? rest := by
    refine h.2.mono hstraight hacyclic (Engine.wiring_turn hturn) (x := top.node?) ?_ ?_
    · intro m hm
      refine Engine.isFresh_turn hturn fun run epoch d context c heq => ?_
      subst heq
      exact hm rfl
    · exact fun b hb => ⟨b, hb, .refl⟩
  have htop := h.1
  have hnext := hturn
  cases hturn with
  | enter | claim | begin =>
    exact ⟨Phase.Tidy.next htop hnext (fun _ => ⟨rfl, nofun⟩) nofun, hrest⟩
  | block | finish | fail | release =>
    exact ⟨Phase.Tidy.next htop hnext nofun nofun, hrest⟩
  | list id run rest =>
    refine ⟨Phase.Tidy.next htop hnext (fun _ => ⟨rfl, nofun⟩) fun k todo heq => ?_, hrest⟩
    cases heq
    exact ⟨e.sorted_toPull id, fun u hu => Engine.of_mem_toPull hu⟩
  | pull id run u todo rest =>
    obtain ⟨hneeded, -, hstale, hsorted, htodo⟩ : (Phase.pulling run (u :: todo)).Tidy _ _ _ _ :=
      htop
    obtain ⟨hfeeds, hu, -⟩ := htodo run (u :: todo) rfl u List.mem_cons_self
    obtain ⟨hafter, hlater⟩ := List.pairwise_cons.1 (hsorted run (u :: todo) rfl)
    refine ⟨.entering (.head hfeeds hneeded) fun _ => hu,
      ⟨hneeded, fun a ha => ?_, fun hid _ => hstale hid rfl, fun k l heq => ?_,
        fun k l heq m hm => ?_⟩, hrest⟩
    · cases ha
      exact hfeeds
    · cases heq
      exact hlater
    · cases heq
      obtain ⟨hm', hms, -⟩ := htodo run (u :: todo) rfl m (List.mem_cons_of_mem _ hm)
      refine ⟨hm', hms, fun a ha => ?_⟩
      cases ha
      exact hafter m hm
  | pass top rest e' new hpass =>
    cases hpass with
    | absent | busy | quit | announce | leave | part =>
      exact ⟨Phase.Tidy.next htop hnext nofun nofun, hrest⟩
    | await | giveUp => exact ⟨rfl, hrest⟩
    | look t | park t => cases t <;> exact ⟨rfl, hrest⟩
    | drop | arrive | forget => exact hrest.skip

/-! ## The end of the base -/

/-- A computation that has come to its end is not the one of its run any more. -/
theorem Turn.releasing {run epoch : Nat} {d : Definition σ} {context : Context σ}
    {c : Computation} (hturn : Turn e (.run id (.computing run epoch d context c)) rest e' new) :
    ∃ k ending, new = [.run id (.releasing k ending)] := by
  cases hturn with
  | finish | fail => exact ⟨_, _, rfl⟩
  | pass top rest e' new hpass =>
    cases hpass with
    | quit => exact ⟨_, _, rfl⟩

/-- A run on its own that is on its way out stays so. -/
theorem Turn.leaving {ending : Ending} (hturn : Turn e (.run id phase) [] e' new)
    (hend : phase.ending? = some ending) :
    ∃ phase', new = [.run id phase'] ∧ phase'.ending? = some ending := by
  cases hturn with
  | release => exact ⟨_, rfl, hend⟩
  | pass top rest e' new hpass =>
    cases hpass with
    | announce | leave | part => exact ⟨_, rfl, hend⟩
    | drop id ending rest hrest => exact absurd rfl hrest
    | quit id run phase rest e' ending hsame hbeat hphase =>
      rcases hphase with rfl | ⟨epoch, d, context, result, rfl⟩ <;> cases hend
    | absent | busy => cases hend
  | _ => cases hend

namespace World

variable {r : Registry σ} {p : Policy} {v : NodeId → Ending} {w : World σ} {task : Nat}

/-- The task is the last one. Its levels are tidy on a straight graph, or only its base is left,
which is on its way out. -/
structure Tidied (base : NodeId) (task : Nat) (w : World σ) : Prop where
  last : w.tasks.length = task + 1
  levels : ∃ s, w.tasks[task]? = some s ∧
    (w.engine.graph.Straight base ∧ Stack.Tidy w.engine.graph base none s ∨
      ∃ phase ending, s = [.run base phase] ∧ phase.ending? = some ending)

namespace Tidied

omit [NodeState σ] in
theorem considerate (h : w.Tidied base task) (hacyclic : WellFounded w.engine.graph.wiring.Feeds) :
    w.Considerate task := by
  intro j top rest hj hs
  obtain ⟨s, hs', hlevels⟩ := h.levels
  obtain rfl : j = task := by
    have hlt := (List.getElem?_eq_some_iff.1 hs).1
    have hlast := h.last
    omega
  rw [hs] at hs'
  cases hs'
  rcases hlevels with ⟨-, htidy⟩ | ⟨phase, ending, heq, hend⟩
  · rcases htidy.novel hacyclic with hnovel | ⟨rfl, -⟩
    · exact .inl (.inr hnovel)
    · exact .inr ⟨rfl, h.last⟩
  · obtain ⟨rfl, rfl⟩ := List.cons.inj heq
    exact .inr ⟨rfl, h.last⟩

theorem stepTask (hr : r.Functional) (hmanual : p.cascade = .manual)
    (hunder : w.Underway r p v task base) (h : w.Tidied base task) (j : Nat) :
    (w.stepTask j).Tidied base task := by
  rcases w.stepTask_eq j with heq | ⟨top, rest, e, new, hs, hturn, heq⟩
  · rwa [heq]
  by_cases hj : j < task
  · rwa [stepTask_of_isOver hs (hunder.before j _ hj hs)]
  obtain rfl : j = task := by
    have hlt := (List.getElem?_eq_some_iff.1 hs).1
    have hlast := h.last
    omega
  have hacyclic := hunder.regular.sound.whole.wiring.acyclic
  have hscheduled : e.scheduled = [] := by
    rw [Engine.scheduled_turn (by rw [hunder.regular.policy, hmanual]) hturn,
      hunder.regular.collected]
  rw [heq]
  refine ⟨?_, new ++ rest, getElem?_collect_self hs, ?_⟩
  · rw [collect, hscheduled, List.map_nil, List.append_nil, List.length_set, h.last]
  obtain ⟨s, hs', hlevels⟩ := h.levels
  rw [hs] at hs'
  cases hs'
  -- Only the computation of the base can end on a fresh node; then the base alone is left, and
  -- what it makes stale is downstream of it.
  rcases hlevels with ⟨hstraight, htidy⟩ | ⟨phase, ending, hbase, hend⟩
  · rcases htidy.novel hacyclic with hnovel | ⟨rfl, run, epoch, d, context, c, rfl⟩
    · obtain ⟨-, hadvance, -⟩ :=
        hunder.turn hr (h.considerate hacyclic) (Nat.le_refl _) hs hturn
      have ha := hadvance (.inr hnovel)
      have hnext : Stack.Tidy e.graph base none (new ++ rest) :=
        htidy.turn hstraight hacyclic hturn
      refine .inl ⟨hstraight.mono ha.wiring fun m hm => ?_, hnext⟩
      have hcompleted := (hunder.tends hr).isCompleted m hm
      exact (ha.settled m (.inl hm)).resolve_right (not_not_intro hcompleted)
    · obtain ⟨k, ending, rfl⟩ := hturn.releasing
      exact .inr ⟨_, ending, rfl, rfl⟩
  · obtain ⟨rfl, rfl⟩ := List.cons.inj hbase
    obtain ⟨phase', rfl, hend'⟩ := hturn.leaving hend
    exact .inr ⟨phase', ending, rfl, hend'⟩

theorem careful (hr : r.Functional) (hmanual : p.cascade = .manual)
    (hunder : w.Underway r p v task base) (h : w.Tidied base task) : w.Careful task := by
  intro js
  have hconsiderate := h.considerate hunder.regular.sound.whole.wiring.acyclic
  induction js generalizing w with
  | nil => exact hconsiderate
  | cons j rest ih =>
    have hnext := hunder.stepTask hr hconsiderate j
    have htidied := h.stepTask hr hmanual hunder j
    exact ih hnext htidied (htidied.considerate hnext.regular.sound.whole.wiring.acyclic)

theorem start (hstraight : w.engine.graph.Straight base) :
    (w.next (.start base)).Tidied base w.tasks.length where
  last := by rw [next, List.length_append, List.length_singleton]
  levels := by
    refine ⟨.execution base, ?_, .inl ⟨hstraight, ?_, trivial⟩⟩
    · rw [next, List.getElem?_append_right (Nat.le_refl _), Nat.sub_self]
      rfl
    · exact .entering .refl fun hne => absurd rfl hne

end Tidied

/-- Whatever the policy says about equal outputs, as long as it does not ask for cascades: in every
world that can be reached and in which everything is over, an execution of a node can come to its
end, and ends as the recursion does, unless the graph is not straight for the node and the node is
blocked. After that the node is fresh exactly if it completed. Outputs are compared as values
are. -/
theorem propagation_harmless (hr : r.Functional) (hmanual : p.cascade = .manual)
    (moves : List (Move σ)) (hmoves : ∀ m ∈ moves, m.isRestore = false ∧ m.isDelivery = false)
    (hquiet : (after r p moves).Quiet) (id : NodeId) :
    let w := after r p moves
    let task := w.tasks.length
    ∃ h : WellFounded w.engine.graph.wiring.Feeds, ∀ steps : List Nat,
      let w' := steps.foldl stepTask (w.next (.start id))
      (∃ (more : List Nat) (ending : Ending),
        (more.foldl stepTask w').tasks[task]?.bind Stack.ending? = some ending) ∧
      ∀ ending, w'.tasks[task]?.bind Stack.ending? = some ending →
        (Ending.Agrees ending (w.engine.graph.evaluate r h id) ∨
          ending = .ok .blocked ∧ ¬ w.engine.graph.Straight id) ∧
        (w'.engine.graph.isFresh id = true ↔ ∃ outputs, ending = .ok (.completed outputs)) := by
  intro w task
  have hregular : w.Regular r p := regular_after hr.steady p hmoves
  have hwf := hregular.sound.whole.wiring.acyclic
  refine ⟨hwf, fun steps => ?_⟩
  intro w'
  have hlone : w'.Lone r p (w.engine.graph.evaluate r hwf) task id :=
    (Lone.start hr.steady hregular hquiet (fun _ => rfl) id).steps hr hmanual steps
  constructor
  · obtain ⟨more, ending, hend⟩ := hlone.exists_ended hr hmanual
    exact ⟨more, ending, by rw [hend]; rfl⟩
  · intro ending hend
    -- On a straight graph the invariant of all tasks holds; on the others only what holds of an
    -- execution on its own is left.
    by_cases hstraight : w.engine.graph.Straight id
    · have hstart : (w.next (.start id)).Underway r p (w.engine.graph.evaluate r hwf) task id :=
        .start hr.steady hregular hquiet (fun _ => rfl) id
      have hcareful := (Tidied.start hstraight).careful hr hmanual hstart
      have hunder := hstart.steps_of_careful hr hcareful steps
      obtain ⟨hagrees, hfresh⟩ := hunder.ended hr (hunder.getElem?_of_ending? hend)
      exact ⟨.inl hagrees, hfresh⟩
    · obtain ⟨hcases, hfresh⟩ := hlone.ended hr hend
      exact ⟨hcases.imp_right fun hblocked => ⟨hblocked, hstraight⟩, hfresh⟩

end World

def Ending.isBlocked : Ending → Bool
  | .ok .blocked => true
  | _ => false

theorem Ending.isBlocked_iff {ending : Ending} :
    ending.isBlocked = true ↔ ending = .ok .blocked := by
  constructor
  · intro h
    unfold Ending.isBlocked at h
    split at h
    · rfl
    · cases h
  · intro h
    rw [h]
    rfl

namespace Studio

def spreading : Policy := { propagateUnchanged := true }

/-- A number is read by a sum and, together with that sum, by another one. -/
def sharing (number sum : NodeId) : List (Move StudioNode) :=
  [.create number "number", .create sum "arithmetic", .create "n" "arithmetic",
    .connect ⟨number, "output"⟩ ⟨sum, "a"⟩, .connect ⟨sum, "output"⟩ ⟨"n", "a"⟩,
    .connect ⟨number, "output"⟩ ⟨"n", "b"⟩]

/-- The last sum is executed, then the number, which makes both sums stale again. -/
def respreading : List (Move StudioNode) :=
  sharing "a" "b" ++ [.start "n"] ++ List.replicate 40 (.step 0) ++ [.start "a"] ++
    List.replicate 10 (.step 1)

/-- The connections lead to later identities, and however the last sum is executed next it gives
what the recursion gives. -/
theorem propagation_harmless_respreading :
    let w : World StudioNode := .after (registry.restrict plain) spreading respreading
    w.Quiet ∧ w.engine.graph.Straight "n" ∧
      ["a", "b", "n"].map w.engine.graph.isFresh = [true, false, false] ∧
      ∃ h : WellFounded w.engine.graph.wiring.Feeds, ∀ (steps : List Nat) (ending : Ending),
        let w' : World StudioNode := steps.foldl World.stepTask (w.next (.start "n"))
        w'.tasks[w.tasks.length]?.bind Stack.ending? = some ending →
          Ending.Agrees ending (w.engine.graph.evaluate (registry.restrict plain) h "n") ∧
            (w'.engine.graph.isFresh "n" = true ↔
              ∃ outputs, ending = .ok (.completed outputs)) := by
  have hquiet : (World.after (registry.restrict plain) spreading respreading).Quiet := by
    decide +kernel
  have hstraight := Graph.straight_of_lt
    (g := (World.after (registry.restrict plain) spreading respreading).engine.graph)
    (by decide +kernel) "n"
  obtain ⟨h, hends⟩ :=
    World.propagation_harmless functional_plain rfl respreading (by decide) hquiet "n"
  refine ⟨hquiet, hstraight, by decide +kernel, h, fun steps ending hend => ?_⟩
  obtain ⟨hcases, hfresh⟩ := (hends steps).2 ending hend
  exact ⟨hcases.resolve_right fun hblocked => hblocked.2 hstraight, hfresh⟩

/-- If the sum comes before the number, the last sum is blocked, though the recursion completes:
the number is executed inside of the sum and once more after it, and the sum is stale again. -/
theorem blocked_sharing :
    let w : World StudioNode := .after (registry.restrict plain) spreading (sharing "b" "a")
    let w' : World StudioNode :=
      (List.replicate 60 0).foldl World.stepTask (w.next (.start "n"))
    w.Quiet ∧ w'.tasks[w.tasks.length]?.bind Stack.ending? = some (.ok .blocked) ∧
      ["b", "a", "n"].map w'.engine.graph.isFresh = [true, false, false] ∧
      ∀ h : WellFounded w.engine.graph.wiring.Feeds,
        (w.engine.graph.evaluate (registry.restrict plain) h "n").IsCompleted := by
  intro w w'
  have hrank : ∀ u v, w.engine.graph.wiring.Feeds u v →
      ["b", "a", "n"].idxOf u < ["b", "a", "n"].idxOf v := by
    intro u v huv
    obtain ⟨c, hc, rfl, rfl⟩ := huv
    have hall : ∀ c ∈ w.engine.graph.wiring.connections,
        ["b", "a", "n"].idxOf c.source.node < ["b", "a", "n"].idxOf c.sink.node := by
      decide +kernel
    exact hall c (Wiring.mem_connections.2 hc)
  refine ⟨by decide +kernel, ?_, by decide +kernel, fun h => ?_⟩
  · have hblocked : (w'.tasks[w.tasks.length]?.bind Stack.ending?).any
        Ending.isBlocked = true := by
      decide +kernel
    obtain ⟨ending, hend, hmatch⟩ := (Option.any_eq_true _ _).1 hblocked
    rw [hend, Ending.isBlocked_iff.1 hmatch]
  · rw [Graph.evaluate, evaluate_eq_unroll _ hrank (show _ < 3 by decide)]
    decide +kernel

end Studio

end Patchbay
