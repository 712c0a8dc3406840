import Patchbay.Proofs.Levels
import Patchbay.Proofs.Numbering
import Patchbay.Proofs.Ownership

/-!
# No circular wait

A run that executes producers waits for the one that it has come to, and that one may be claimed
by a run which waits in turn. The connections have no circle, but a run works through a list that
was made when the connections were others. A circle of waits therefore needs an edit that turns
connections round under such a list, and what is proved here is that nothing else brings one
about.

A node needs another one if it reads from it, or if a run of it still has the other one to
execute.

What is proved here:
  1. `World.needs_next`: a move adds nothing to what nodes need, but for the connection that it
     makes.
  2. `World.acyclic_of_clear`: no node needs itself, directly or not, unless a connection was made
     that closes a circle of needs.
  3. `World.no_circular_wait`: then no runs wait for one another in a circle.
-/

namespace Patchbay

open Relation

variable {σ : Type}

def Move.isConnection : Move σ → Bool
  | .connect _ _ => true
  | _ => false

/-! ## Pulls -/

structure Pull where
  node : NodeId
  run : Nat
  current : Option NodeId
  todo : List NodeId
  deriving DecidableEq

def Pull.needs (x : Pull) : List NodeId := x.current.toList ++ x.todo

/-- The runs of a task that execute producers, below a level that is about a node. -/
def Stack.pulls : Option NodeId → Stack σ → List Pull
  | _, [] => []
  | inner, .run id (.pulling k todo) :: rest => ⟨id, k, inner, todo⟩ :: pulls (some id) rest
  | _, f :: rest => pulls f.node? rest

namespace World

def pulls (w : World σ) : List Pull := w.tasks.flatMap (Stack.pulls none)

/-- The first run is executing producers, and the one that it has come to is claimed by the second
run: it is being executed inside of the first run, or the first run waits for it. -/
def WaitsFor (w : World σ) (k k' : Nat) : Prop :=
  ∃ x ∈ w.pulls, x.run = k ∧ ∃ p, x.current = some p ∧ w.Has p k'

/-- The second node reads from the first, or a run of it has the first one still to do with. -/
def Needs (w : World σ) (u v : NodeId) : Prop :=
  w.engine.graph.wiring.Feeds u v ∨ ∃ x ∈ w.pulls, x.node = v ∧ u ∈ x.needs

end World

namespace Stack

variable {inner : Option NodeId} {f top : Frame σ} {rest new : Stack σ} {x : Pull} {u v : NodeId}

theorem mem_of_mem_pulls {s : Stack σ} (h : x ∈ Stack.pulls inner s) :
    .run x.node (.pulling x.run x.todo) ∈ s := by
  induction s generalizing inner with
  | nil => cases h
  | cons f rest ih =>
    unfold pulls at h
    split at h
    · cases h
    · rename_i id k todo rest' heq
      cases heq
      rcases List.mem_cons.1 h with rfl | h
      · exact List.mem_cons_self
      · exact List.mem_cons_of_mem _ (ih h)
    · rename_i heq
      cases heq
      exact List.mem_cons_of_mem _ (ih h)

theorem mem_pulls_cons (h : x ∈ Stack.pulls f.node? rest) : x ∈ Stack.pulls inner (f :: rest) := by
  unfold pulls
  split
  · rename_i heq
    cases heq
  · rename_i heq
    cases heq
    exact List.mem_cons_of_mem _ h
  · rename_i heq
    cases heq
    exact h

theorem pulls_idle {s : Stack σ} (h : ∀ f ∈ s, f.run? = none) : Stack.pulls inner s = [] := by
  rw [List.eq_nil_iff_forall_not_mem]
  intro x hx
  cases h _ (mem_of_mem_pulls hx)

theorem pulls_proceed (s : Stack σ) (c : Computation) :
    Stack.pulls inner (Stack.proceed c s) = Stack.pulls inner s := by
  unfold proceed
  split
  · rfl
  · rfl

/-! ## One task -/

/-- A run of the second node has the first one still to do with. -/
def Wants (inner : Option NodeId) (s : Stack σ) (u v : NodeId) : Prop :=
  ∃ x ∈ Stack.pulls inner s, x.node = v ∧ u ∈ x.needs

theorem Wants.cons (h : Stack.Wants f.node? rest u v) : Stack.Wants inner (f :: rest) u v := by
  obtain ⟨x, hx, hv, hu⟩ := h
  exact ⟨x, mem_pulls_cons hx, hv, hu⟩

/-- A level inside of the innermost one can only add to what is wanted. -/
theorem Wants.inside {s : Stack σ} (h : Stack.Wants none s u v) : Stack.Wants inner s u v := by
  obtain ⟨x, hx, hv, hu⟩ := h
  cases s with
  | nil => cases hx
  | cons f rest =>
    unfold pulls at hx
    split at hx
    · cases hx
    · rename_i id k todo rest' heq
      cases heq
      rcases List.mem_cons.1 hx with rfl | hx
      · exact ⟨_, List.mem_cons_self, hv, List.mem_append_right _ hu⟩
      · exact ⟨x, List.mem_cons_of_mem _ hx, hv, hu⟩
    · rename_i heq
      cases heq
      exact ⟨x, mem_pulls_cons hx, hv, hu⟩

variable [NodeState σ] {e e' : Engine σ}

/-- After a step of a task nobody wants more than before, but for the list that was made. -/
theorem wants_turn (hturn : Turn e top rest e' new) (h : Stack.Wants none (new ++ rest) u v) :
    Stack.Wants none (top :: rest) u v ∨ e.graph.wiring.Feeds u v := by
  cases hturn with
  | list id run rest =>
    obtain ⟨x, hx, rfl, hu⟩ := h
    rcases List.mem_cons.1 hx with rfl | hx
    · have hlisted : u ∈ e.toPull id := hu
      exact .inr (Wiring.mem_feeders.1 (List.mem_filter.1 hlisted).1)
    · exact .inl ⟨x, hx, rfl, hu⟩
  | pull id run p todo rest =>
    -- The next entry of the list is executed; it is wanted as before.
    obtain ⟨x, hx, rfl, hu⟩ := h
    rcases List.mem_cons.1 hx with rfl | hx
    · exact .inl ⟨_, List.mem_cons_self, rfl, hu⟩
    · exact .inl ⟨x, List.mem_cons_of_mem _ hx, rfl, hu⟩
  | pass top rest e' new hpass =>
    cases hpass with
    | drop id ending rest hrest hend => exact .inl h.inside.cons
    | arrive t seen rest hreached => exact .inl h.inside.cons
    | forget rest => exact .inl h.inside.cons
    | look t watch rest hwatch => cases t <;> exact .inl (.cons h)
    | park t seen rest hreached => cases t <;> exact .inl (.cons h)
    | _ => exact .inl (.cons h)
  | _ => exact .inl (.cons h)

end Stack

/-! ## One more need -/

/-- One more pair closes no circle if its second member does not lead back to the first. -/
theorem not_transGen_of_pair {α : Type} {R R' : α → α → Prop} {a b : α}
    (hacyclic : ∀ v, ¬ TransGen R v v) (hsub : ∀ u v, R' u v → R u v ∨ (u = a ∧ v = b))
    (hback : ¬ ReflTransGen R b a) : ∀ v, ¬ TransGen R' v v := by
  -- A chain uses the pair at most once, since nothing leads back to it.
  have hchain : ∀ u v, TransGen R' u v →
      TransGen R u v ∨ (ReflTransGen R u a ∧ ReflTransGen R b v) := by
    intro u v huv
    induction huv with
    | single h =>
      rcases hsub _ _ h with h | ⟨rfl, rfl⟩
      · exact .inl (.single h)
      · exact .inr ⟨.refl, .refl⟩
    | tail _ h ih =>
      rcases hsub _ _ h with h | ⟨rfl, rfl⟩
      · rcases ih with ih | ⟨hua, hbv⟩
        · exact .inl (ih.tail h)
        · exact .inr ⟨hua, hbv.tail h⟩
      · rcases ih with ih | ⟨hua, hbv⟩
        · exact .inr ⟨ih.to_reflTransGen, .refl⟩
        · exact absurd hbv hback
  intro v hv
  rcases hchain v v hv with h | ⟨hva, hbv⟩
  · exact hacyclic v h
  · exact hback (hbv.trans hva)

namespace World

variable [NodeState σ] {r : Registry σ} {p : Policy} {w w' : World σ} {m : Move σ}
  {u v : NodeId}

omit [NodeState σ] in
theorem needs_iff : w.Needs u v ↔
    w.engine.graph.wiring.Feeds u v ∨ ∃ s ∈ w.tasks, Stack.Wants none s u v := by
  rw [Needs, pulls]
  refine or_congr_right ⟨?_, ?_⟩
  · intro h
    obtain ⟨x, hx, hv, hu⟩ := h
    obtain ⟨s, hs, hx⟩ := List.mem_flatMap.1 hx
    exact ⟨s, hs, x, hx, hv, hu⟩
  · intro h
    obtain ⟨s, hs, x, hx, hv, hu⟩ := h
    exact ⟨x, List.mem_flatMap.2 ⟨s, hs, hx⟩, hv, hu⟩

omit [NodeState σ] in
theorem not_wants_idle {idle : List (Stack σ)} (hidle : ∀ s ∈ idle, ∀ f ∈ s, f.run? = none) :
    ¬ ∃ s ∈ idle, Stack.Wants none s u v := by
  intro h
  obtain ⟨s, hs, x, hx, -⟩ := h
  rw [Stack.pulls_idle (hidle s hs)] at hx
  cases hx

/-- A move adds nothing to what nodes need, but for the connection that it makes. -/
theorem needs_next (hw : w.engine.graph.wiring.Sound) (hm : m.isRestore = false)
    (h : (w.next m).Needs u v) : w.Needs u v ∨ ∃ source sink e c,
      m = .connect source sink ∧ w.engine.connect source sink = .ok (e, c) ∧
      u = source.node ∧ v = sink.node := by
  rw [needs_iff] at h
  rcases w.move_cases m with hperforms | ⟨task, top, rest, e, new, -, htakes⟩ | ⟨task, c, rfl⟩
  · obtain ⟨e, hperformed, hsame⟩ := hperforms.engine
    obtain ⟨idle, hidle, htasks⟩ := hperforms.tasks
    rcases h with hfeeds | ⟨s, hs, hwants⟩
    · rw [hsame.graph] at hfeeds
      rcases hperformed.within hm hw with hwithin | ⟨source, sink, c, rfl, hconnect⟩
      · exact .inl (.inl (hwithin.feeds hfeeds))
      · rw [Engine.link_connect hconnect] at hfeeds
        rcases Wiring.feeds_link hfeeds with ⟨hu, hv⟩ | hfeeds
        · exact .inr ⟨source, sink, e, c, rfl, hconnect, hu, hv⟩
        · exact .inl (.inl hfeeds)
    · rw [htasks] at hs
      rcases List.mem_append.1 hs with hs | hs
      · exact .inl (needs_iff.2 (.inr ⟨s, hs, hwants⟩))
      · exact absurd ⟨s, hs, hwants⟩ (not_wants_idle hidle)
  · apply Or.inl
    obtain ⟨idle, hidle, htasks⟩ := htakes.tasks
    rw [needs_iff]
    rcases h with hfeeds | ⟨s, hs, hwants⟩
    · rw [htakes.engine.graph, Engine.wiring_turn htakes.turn] at hfeeds
      exact .inl hfeeds
    · rw [htasks] at hs
      rcases List.mem_append.1 hs with hs | hs
      · rcases List.mem_or_eq_of_mem_set hs with hs | rfl
        · exact .inr ⟨s, hs, hwants⟩
        · rcases Stack.wants_turn htakes.turn hwants with hwants | hfeeds
          · exact .inr ⟨_, List.mem_of_getElem? htakes.before, hwants⟩
          · exact .inl hfeeds
      · exact absurd ⟨s, hs, hwants⟩ (not_wants_idle hidle)
  · rw [needs_iff]
    rcases h with hfeeds | ⟨s, hs, hwants⟩
    · exact .inl (.inl hfeeds)
    · rcases mem_of_mem_modify hs with hs | ⟨t, ht, rfl⟩
      · exact .inl (.inr ⟨s, hs, hwants⟩)
      · rw [Stack.Wants, Stack.pulls_proceed] at hwants
        exact .inl (.inr ⟨t, List.mem_of_getElem? ht, hwants⟩)

/-! ## All moves -/

/-- None of the moves restores a snapshot, and none of them makes a connection whose sink is
already needed, directly or not, by its source. -/
def Clear : World σ → List (Move σ) → Prop
  | _, [] => True
  | w, m :: rest => m.isRestore = false ∧
      (∀ source sink e c, m = .connect source sink → w.engine.connect source sink = .ok (e, c) →
        ¬ ReflTransGen w.Needs sink.node source.node) ∧
      (w.next m).Clear rest

def Acyclic (w : World σ) : Prop := ∀ v, ¬ TransGen w.Needs v v

omit [NodeState σ] in
theorem acyclic_new (r : Registry σ) (p : Policy) : (new r p).Acyclic := by
  have hnone : ∀ u v, ¬ (new r p).Needs u v := by
    intro u v h
    rcases h with hfeeds | ⟨x, hx, -⟩
    · exact Wiring.not_feeds_empty hfeeds
    · cases hx
  intro v hv
  cases hv with
  | single h => exact hnone _ _ h
  | tail _ h => exact hnone _ _ h

theorem Acyclic.next (h : w.Acyclic) (hw : w.engine.graph.wiring.Sound) (hm : m.isRestore = false)
    (hconnect : ∀ source sink e c, m = .connect source sink →
      w.engine.connect source sink = .ok (e, c) →
        ¬ ReflTransGen w.Needs sink.node source.node) : (w.next m).Acyclic := by
  by_cases hmade : ∃ source sink e c, m = .connect source sink ∧
      w.engine.connect source sink = .ok (e, c)
  · obtain ⟨source, sink, e, c, rfl, hmade⟩ := hmade
    refine not_transGen_of_pair h (fun u v huv => ?_) (hconnect source sink e c rfl hmade)
    rcases needs_next hw hm huv with hold | ⟨source', sink', e', c', heq, -, hu, hv⟩
    · exact .inl hold
    · cases heq
      exact .inr ⟨hu, hv⟩
  · intro v hv
    refine h v (TransGen.mono (fun a b hab => ?_) _ _ hv)
    rcases needs_next hw hm hab with hold | ⟨source, sink, e, c, heq, hok, -⟩
    · exact hold
    · exact absurd ⟨source, sink, e, c, heq, hok⟩ hmade

theorem acyclic_of_clear (hw : w.engine.graph.wiring.Sound) (h : w.Acyclic)
    {moves : List (Move σ)} (hclear : w.Clear moves) : (moves.foldl next w).Acyclic := by
  induction moves generalizing w with
  | nil => exact h
  | cons m rest ih =>
    obtain ⟨hm, hconnect, hrest⟩ := hclear
    have hsound : (w.next m).engine.graph.wiring.Sound :=
      (Engine.sound_wiring w.engine.registry w.engine.policy).next hw m
    exact ih hsound (h.next hw hm hconnect) hrest

/-! ## Waits -/

omit [NodeState σ] in
/-- What a run that executes producers has claimed is its node. -/
theorem node_of_has (hheld : Held w.engine.graph w.frames)
    (hnumbered : Numbered w.engine w.frames) {x : Pull} (hx : x ∈ w.pulls) (h : w.Has u x.run) :
    u = x.node := by
  obtain ⟨n, hn, hclaimed, hrun⟩ := h
  obtain ⟨s, hs, hmem⟩ := List.mem_flatMap.1 hx
  obtain ⟨f, hf, hclaim⟩ := hheld u n hn hclaimed
  rw [hrun] at hclaim
  have hpull : Frame.run x.node (.pulling x.run x.todo) ∈ w.frames :=
    List.mem_flatten.2 ⟨s, hs, Stack.mem_of_mem_pulls hmem⟩
  have heq : f = .run x.node (.pulling x.run x.todo) :=
    eq_of_run? hnumbered.distinct hf hpull (Frame.run?_of_claim? hclaim) rfl
  rw [heq] at hclaim
  cases hclaim
  rfl

omit [NodeState σ] in
/-- A chain of waits is a chain of needs: it ends at a node that the node of the first run
needs. -/
theorem needs_of_waits (hheld : Held w.engine.graph w.frames)
    (hnumbered : Numbered w.engine w.frames) {k k' : Nat} (h : TransGen w.WaitsFor k k') :
    ∃ x ∈ w.pulls, x.run = k ∧ ∃ u, w.Has u k' ∧ TransGen w.Needs u x.node := by
  -- The node that a run waits for is the node of the next run, since a run has only its own.
  induction h with
  | single h =>
    obtain ⟨x, hx, hrun, u, hu, hhas⟩ := h
    have hneeds : w.Needs u x.node := .inr ⟨x, hx, rfl, by simp [Pull.needs, hu]⟩
    exact ⟨x, hx, hrun, u, hhas, .single hneeds⟩
  | tail _ h ih =>
    obtain ⟨x, hx, hrun, v, hv, hchain⟩ := ih
    obtain ⟨x', hx', rfl, u, hu, hhas⟩ := h
    obtain rfl := node_of_has hheld hnumbered hx' hv
    have hneeds : w.Needs u x'.node := .inr ⟨x', hx', rfl, by simp [Pull.needs, hu]⟩
    exact ⟨x, hx, hrun, u, hhas, .head hneeds hchain⟩

/-- Whatever the node types and the policy are, and in whatever order operations and the steps of
executions come: no runs wait for one another in a circle, unless a connection was made whose sink
its source already needed. -/
theorem no_circular_wait (r : Registry σ) (p : Policy) {moves : List (Move σ)}
    (hclear : (new r p).Clear moves) (k : Nat) : ¬ TransGen (after r p moves).WaitsFor k k := by
  intro hcircle
  have hacyclic : (after r p moves).Acyclic :=
    acyclic_of_clear .empty (acyclic_new r p) hclear
  have hnumbered := numbered_after r p moves
  obtain ⟨x, hx, rfl, u, hhas, hchain⟩ :=
    needs_of_waits (held_after r p moves) hnumbered hcircle
  obtain rfl := node_of_has (held_after r p moves) hnumbered hx hhas
  exact hacyclic x.node hchain

/-! ## Clear moves -/

theorem clear_append {moves more : List (Move σ)} (h : w.Clear moves)
    (hmore : (moves.foldl next w).Clear more) : w.Clear (moves ++ more) := by
  induction moves generalizing w with
  | nil => exact hmore
  | cons m rest ih => exact ⟨h.1, h.2.1, ih h.2.2 hmore⟩

theorem clear_of_no_connection {moves : List (Move σ)}
    (h : (moves.all fun m => !m.isRestore && !m.isConnection) = true) : w.Clear moves := by
  induction moves generalizing w with
  | nil => trivial
  | cons m rest ih =>
    rw [List.all_cons, Bool.and_eq_true, Bool.and_eq_true, Bool.not_eq_true', Bool.not_eq_true'] at h
    refine ⟨h.1.1, fun source sink e c hm => ?_, ih h.2⟩
    rw [hm] at h
    cases h.1.2

/-- As long as no run executes producers, every connection that is accepted is clear. -/
theorem clear_connect {source sink : PortRef} (hw : w.engine.graph.wiring.Sound)
    (hpulls : w.pulls = []) : w.Clear [.connect source sink] := by
  refine ⟨rfl, fun source' sink' e c hm hconnect hreach => ?_, trivial⟩
  cases hm
  obtain ⟨rfl, -, w', hinsert, -⟩ := Engine.connect_eq_ok hconnect
  obtain ⟨-, -, hback, -⟩ := Wiring.insert_eq_ok hinsert
  refine hw.not_reaches hback (ReflTransGen.mono (fun u v huv => ?_) _ _ hreach)
  rcases huv with hfeeds | ⟨x, hx, -⟩
  · exact hfeeds
  · rw [hpulls] at hx
    cases hx

omit [NodeState σ] in
/-- A set that contains whatever needs one of its members contains all that is reached from it. -/
theorem not_reaches_of_closed (S : List NodeId)
    (hfeeds : ∀ c ∈ w.engine.graph.wiring.connections, c.source.node ∈ S → c.sink.node ∈ S)
    (hpulls : ∀ x ∈ w.pulls, ∀ u ∈ x.needs, u ∈ S → x.node ∈ S) (hu : u ∈ S) (hv : v ∉ S) :
    ¬ ReflTransGen w.Needs u v := by
  intro hreach
  have hmem : v ∈ S := by
    clear hv
    induction hreach with
    | refl => exact hu
    | tail _ h ih =>
      rcases h with ⟨c, hc, rfl, rfl⟩ | ⟨x, hx, rfl, hneeds⟩
      · exact hfeeds c (Wiring.mem_connections.2 hc) ih
      · exact hpulls x hx _ hneeds ih
  exact hv hmem

end World

namespace Bench

/-- A run that executes producers waits for the run that has the node it has come to. -/
theorem waitsFor_of_mem {w : World BenchNode} {x : Pull} {p : NodeId} {run : Nat}
    (hp : x.current = some p) (h : x ∈ w.pulls ∧
      (w.engine.graph.node? p).map (fun n => (n.claimed, n.run)) = some (true, run)) :
    w.WaitsFor x.run run := by
  obtain ⟨n, hn, hfacts⟩ := Option.map_eq_some_iff.1 h.2
  obtain ⟨hclaimed, hrun⟩ := Prod.mk.inj hfacts
  exact ⟨x, h.1, rfl, p, hp, n, hn, hclaimed, hrun⟩

/-- All bench types, with the gated nodes executed on demand. -/
def onDemand : Registry BenchNode := registry { reactiveGated := true }

/-- Two gated nodes, one of which reads from the other, and a collector. -/
def chained : List (Move BenchNode) :=
  [.create "m" "gated", .create "x" "gated", .create "z" "merge",
    .connect ⟨"m", "output"⟩ ⟨"x", "input"⟩, .connect ⟨"m", "output"⟩ ⟨"z", "in0"⟩]

/-- The collector is executed, and so the first gated node is, and waits for its permit. In the
meantime the connection between the gated nodes is taken away. -/
def parted : List (Move BenchNode) :=
  chained ++ .start "z" :: List.replicate 8 (.step 0) ++
    [.disconnect ⟨"m", "output"⟩ ⟨"x", "input"⟩]

/-- Then there is one in the other direction. -/
def turning : List (Move BenchNode) := parted ++ [.connect ⟨"x", "output"⟩ ⟨"m", "input"⟩]

theorem clear_chained : (World.new onDemand {}).Clear chained := by
  have hsound := World.sound_wiring_after onDemand {}
  refine World.clear_append (w := World.new onDemand {})
    (World.clear_of_no_connection (show List.all [_, _, _] _ = true from rfl)) ?_
  exact World.clear_append
    (World.clear_connect (hsound (chained.take 3)) (by decide +kernel))
    (World.clear_connect (hsound (chained.take 4)) (by decide +kernel))

/-- The connection in the other direction is made while the collector needs the gated node. -/
theorem clear_turning : (World.new onDemand {}).Clear turning := by
  have hparted : (World.new onDemand {}).Clear parted := by
    refine World.clear_append (World.clear_append clear_chained ?_) ?_
    · exact World.clear_of_no_connection rfl
    · exact World.clear_of_no_connection rfl
  refine World.clear_append hparted ⟨rfl, fun source sink e c hm _ => ?_, trivial⟩
  cases hm
  exact World.not_reaches_of_closed ["m", "z"] (by decide +kernel) (by decide +kernel)
    (by decide) (by decide)

/-- The collector waits for the gated node, and nobody waits for the collector. -/
theorem no_circular_wait_turning :
    (World.new onDemand {}).Clear turning ∧ (World.after onDemand {} turning).WaitsFor 1 2 ∧
      ∀ k, ¬ TransGen (World.after onDemand {} turning).WaitsFor k k := by
  have hwaits : (World.after onDemand {} turning).WaitsFor 1 2 :=
    waitsFor_of_mem (x := ⟨"z", 1, some "m", []⟩) rfl (by decide +kernel)
  exact ⟨clear_turning, hwaits, World.no_circular_wait onDemand {} clear_turning⟩

/-- A collector reads from the gated nodes `m` and `y`, and `x` and `y` read from `m`. -/
def meshed : List (Move BenchNode) :=
  [.create "m" "gated", .create "x" "gated", .create "y" "gated", .create "z" "merge",
    .connect ⟨"m", "output"⟩ ⟨"x", "input"⟩, .connect ⟨"m", "output"⟩ ⟨"y", "input"⟩,
    .connect ⟨"m", "output"⟩ ⟨"z", "in0"⟩, .connect ⟨"y", "output"⟩ ⟨"z", "in1"⟩]

/-- The collector is executed and lists `m` and `y`; `m` waits for its permit. Then `x` is
executed, and waits for `m`. -/
def queued : List (Move BenchNode) :=
  meshed ++ .start "z" :: List.replicate 8 (.step 0) ++ .start "x" :: List.replicate 11 (.step 1)

/-- In the meantime the connection between `m` and `x` is turned round. When the gate opens, `m`
ends, but the execution of `y`, which is the next on the list, executes `m` once more, and that
waits for `x`. -/
def entangling : List (Move BenchNode) :=
  queued ++ [.disconnect ⟨"m", "output"⟩ ⟨"x", "input"⟩,
    .connect ⟨"x", "output"⟩ ⟨"m", "input"⟩, .deliver 0 (gives .null)] ++
    List.replicate 22 (.step 0) ++ List.replicate 2 (.step 1)

/-- The run of `x` and the second run of `m` wait for each other, and no task can go on. -/
theorem circular_wait_entangling :
    let w := World.after onDemand {} entangling
    TransGen w.WaitsFor 3 3 ∧ (w.tasks.all fun s => (w.engine.step s).isNone) = true := by
  intro w
  have hx : w.WaitsFor 3 6 :=
    waitsFor_of_mem (x := ⟨"x", 3, some "m", []⟩) rfl (by decide +kernel)
  have hm : w.WaitsFor 6 3 :=
    waitsFor_of_mem (x := ⟨"m", 6, some "x", []⟩) rfl (by decide +kernel)
  exact ⟨.tail (.single hx) hm, by decide +kernel⟩

end Bench

end Patchbay
