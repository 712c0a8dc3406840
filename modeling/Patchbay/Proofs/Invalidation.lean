import Patchbay.Bench
import Patchbay.Proofs.Wiring
import Patchbay.Staleness

/-!
# What an invalidation flips

An invalidation comes to a node once for each time that the node was queued, and only the first
time can make it stale. Nothing is assumed of the graph here: the flags may be in any state,
connections may lead in circles or to nodes that are not there, and the two directions of the wiring
need not agree. What becomes stale is still exact: the nodes that can be reached over fresh nodes
alone. So is the number of visits, and a stale node at the edge counts them as well.

What is proved here:
  1. `mem_spread`: which nodes become stale.
  2. `node?_spread`: how often each node was visited, and that nothing else is changed.
  3. `spreads_spread`, `spreads_invalidateAll`: the account of a traversal, and of several in a row.
  4. `Sweep.ends_spread`: the traversal as a loop, and after how many turns it ends.
  5. `invalidate_exact`: all of it, for one node to begin with.
-/

namespace Patchbay

variable {σ : Type}

namespace Node

/-- The node after so many visits of an invalidation. -/
def aged (k : Nat) (n : Node σ) : Node σ :=
  { n with stale := n.stale || decide (0 < k), epoch := n.epoch + k }

@[simp] theorem aged_id (k : Nat) (n : Node σ) : (n.aged k).id = n.id := rfl
@[simp] theorem aged_state (k : Nat) (n : Node σ) : (n.aged k).state = n.state := rfl
@[simp] theorem aged_outputs (k : Nat) (n : Node σ) : (n.aged k).outputs = n.outputs := rfl
@[simp] theorem aged_claimed (k : Nat) (n : Node σ) : (n.aged k).claimed = n.claimed := rfl
@[simp] theorem aged_status (k : Nat) (n : Node σ) : (n.aged k).status = n.status := rfl
@[simp] theorem aged_run (k : Nat) (n : Node σ) : (n.aged k).run = n.run := rfl
@[simp] theorem aged_epoch (k : Nat) (n : Node σ) : (n.aged k).epoch = n.epoch + k := rfl

@[simp] theorem aged_zero (n : Node σ) : n.aged 0 = n := by
  simp [aged]

theorem map_aged_zero (x : Option (Node σ)) : x.map (aged 0) = x := by
  cases x <;> simp

theorem aged_aged (j k : Nat) (n : Node σ) : (n.aged j).aged k = n.aged (j + k) := by
  have h : (decide (0 < j) || decide (0 < k)) = decide (0 < j + k) := by
    rw [← Bool.decide_or, decide_eq_decide]
    omega
  simp only [aged, Bool.or_assoc, h, Nat.add_assoc]

theorem invalidated_eq_aged (n : Node σ) : n.invalidated = n.aged 1 := by
  simp [invalidated, touched, aged]

theorem touched_eq_aged {n : Node σ} (h : n.stale = true) : n.touched = n.aged 1 := by
  simp [touched, aged, h]

theorem stale_aged {k : Nat} {n : Node σ} (h : 0 < k) : (n.aged k).stale = true := by
  simp [aged, h]

end Node

/-! ## Consumers -/

namespace Wiring

/-- A source of the first node has a sink of the second one among its consumers. -/
def Supplies (w : Wiring) (u v : NodeId) : Prop :=
  ∃ c : Connection,
    (w.sinksOf c.source).contains c.sink = true ∧ c.source.node = u ∧ c.sink.node = v

instance (w : Wiring) (u v : NodeId) : Decidable (w.Supplies u v) :=
  decidable_of_iff (v ∈ w.downstream u) mem_downstream_iff

variable {w : Wiring} {u v : NodeId}

/-- Where the two directions agree, either tells the connections. -/
theorem Sound.supplies_iff (h : w.Sound) : w.Supplies u v ↔ w.Feeds u v :=
  mem_downstream_iff.symm.trans h.mem_downstream

theorem count_downstream (w : Wiring) (u v : NodeId) :
    (w.downstream u).count v = if w.Supplies u v then 1 else 0 := by
  have hnodup : (w.downstream u).Nodup := Dict.nodup_keys _
  split
  · rename_i h
    exact List.count_eq_one_of_mem hnodup (mem_downstream_iff.2 h)
  · rename_i h
    exact List.count_eq_zero.2 fun hmem => h (mem_downstream_iff.1 hmem)

end Wiring

namespace Graph

variable {g g' : Graph σ} {id u v m : NodeId}

theorem isFresh_iff {id : NodeId} :
    g.isFresh id = true ↔ ∃ n, g.node? id = some n ∧ n.stale = false := by
  rw [isFresh, Option.any_eq_true]
  simp

/-! ## Paths over fresh nodes -/

/-- Connections lead from the first node to the second, and all nodes on the way are fresh, the
first and the last one included. -/
inductive FreshPath (g : Graph σ) (u : NodeId) : NodeId → Prop
  | start (hu : g.isFresh u = true) : FreshPath g u u
  | step {v m : NodeId} (h : FreshPath g u v) (hvm : g.wiring.Supplies v m)
    (hm : g.isFresh m = true) : FreshPath g u m

namespace FreshPath

theorem left (h : g.FreshPath u v) : g.isFresh u = true := by
  induction h with
  | start hu => exact hu
  | step _ _ _ ih => exact ih

theorem right (h : g.FreshPath u v) : g.isFresh v = true := by
  cases h with
  | start hu => exact hu
  | step _ _ hv => exact hv

theorem head (hid : g.isFresh id = true) (hsupplies : g.wiring.Supplies id u)
    (h : g.FreshPath u v) : g.FreshPath id v := by
  induction h with
  | start hu => exact .step (.start hid) hsupplies hu
  | step _ hvm hm ih => exact ih.step hvm hm

theorem mono (h : g.FreshPath u v) (hwiring : g'.wiring = g.wiring)
    (hfresh : ∀ m, g.isFresh m = true → g'.isFresh m = true) : g'.FreshPath u v := by
  induction h with
  | start hu => exact .start (hfresh _ hu)
  | step _ hvm hm ih => exact ih.step (hwiring ▸ hvm) (hfresh _ hm)

/-- When a node becomes stale, the paths through it are cut there. What is left of each begins at a
consumer of that node. -/
theorem cut (h : g.FreshPath u v) (id : NodeId) :
    v = id ∨ (∃ m, g.wiring.Supplies id m ∧ (g.modify id Node.invalidated).FreshPath m v) ∨
      (g.modify id Node.invalidated).FreshPath u v := by
  have hstill : ∀ m, m ≠ id → g.isFresh m = true →
      (g.modify id Node.invalidated).isFresh m = true := by
    intro m hne hm
    rwa [isFresh, node?_modify, if_neg (Ne.symm hne)]
  induction h with
  | start hu =>
    by_cases hid : u = id
    · exact .inl hid
    · exact .inr (.inr (.start (hstill u hid hu)))
  | step _ hvm hm ih =>
    rename_i v m _
    by_cases hid : m = id
    · exact .inl hid
    · have hm' := hstill m hid hm
      rcases ih with rfl | ⟨x, hx, hpath⟩ | hpath
      · exact .inr (.inl ⟨m, hvm, .start hm'⟩)
      · exact .inr (.inl ⟨x, hx, hpath.step hvm hm'⟩)
      · exact .inr (.inr (hpath.step hvm hm'))

end FreshPath

theorem freshPath_touched (g : Graph σ) (id : NodeId) :
    (g.modify id Node.touched).FreshPath u v ↔ g.FreshPath u v :=
  ⟨fun h => h.mono rfl fun m => by rw [isFresh_touched]; exact fun hm => hm,
    fun h => h.mono rfl fun m => by rw [isFresh_touched]; exact fun hm => hm⟩

/-! ## What becomes stale -/

/-- The fresh nodes become stale to which a path over fresh nodes leads from a queued one. -/
theorem mem_spread (g : Graph σ) (queue : List NodeId) :
    m ∈ (g.spread queue).2 ↔ ∃ u ∈ queue, g.FreshPath u m := by
  fun_induction spread g queue with
  | case1 g => simp
  | case2 g id queue hn ih =>
    have hnot : ¬ g.FreshPath id m := fun h => by simpa [isFresh, hn] using h.left
    rw [ih, List.exists_mem_cons_iff, or_iff_right hnot]
  | case3 g id queue n hn hstale ih =>
    have hnot : ¬ g.FreshPath id m := fun h => by simpa [isFresh, hn, hstale] using h.left
    simp only [ih, freshPath_touched, List.exists_mem_cons_iff, or_iff_right hnot]
  | case4 g id queue n hn hstale g' flipped heq ih =>
    have hid : g.isFresh id = true := isFresh_iff.2 ⟨n, hn, Bool.eq_false_iff.2 hstale⟩
    have hback : ∀ {u}, (g.modify id Node.invalidated).FreshPath u m → g.FreshPath u m :=
      fun h => h.mono rfl (isFresh_of_invalidated g id)
    rw [heq] at ih
    rw [List.mem_cons, ih]
    constructor
    · rintro (rfl | ⟨u, hu, hpath⟩)
      · exact ⟨m, List.mem_cons_self, .start hid⟩
      · rcases List.mem_append.1 hu with hu | hu
        · exact ⟨u, List.mem_cons_of_mem _ hu, hback hpath⟩
        · exact ⟨id, List.mem_cons_self,
            .head hid (Wiring.mem_downstream_iff.1 hu) (hback hpath)⟩
    · rintro ⟨u, hu, hpath⟩
      rcases hpath.cut id with rfl | ⟨x, hx, hpath'⟩ | hpath'
      · exact .inl rfl
      · exact .inr ⟨x, List.mem_append_right _ (Wiring.mem_downstream_iff.2 hx), hpath'⟩
      · rcases List.mem_cons.1 hu with rfl | hu
        · have hstale := hpath'.left
          rw [isFresh_invalidated_self] at hstale
          exact absurd hstale Bool.false_ne_true
        · exact .inr ⟨u, List.mem_append_left _ hu, hpath'⟩

theorem nodup_spread (g : Graph σ) (queue : List NodeId) : (g.spread queue).2.Nodup := by
  fun_induction spread g queue with
  | case1 g => exact .nil
  | case2 g id queue hn ih => exact ih
  | case3 g id queue n hn hstale ih => exact ih
  | case4 g id queue n hn hstale g' flipped heq ih =>
    rw [heq] at ih
    refine List.nodup_cons.2 ⟨fun hmem => ?_, ih⟩
    have hspread := mem_spread (m := id) (g.modify id Node.invalidated)
      (queue ++ g.wiring.downstream id)
    rw [heq] at hspread
    obtain ⟨u, -, hpath⟩ := hspread.1 hmem
    have hstale := hpath.right
    rw [isFresh_invalidated_self] at hstale
    exact Bool.false_ne_true hstale

/-! ## How often a node is visited -/

/-- One visit of a node, and so many visits of any node after it. -/
theorem map_aged_modify {f : Node σ → Node σ} (k : Nat)
    (hf : (g.node? id).map f = (g.node? id).map (Node.aged 1)) :
    ((g.modify id f).node? m).map (Node.aged k) =
      (g.node? m).map (Node.aged ((if id = m then 1 else 0) + k)) := by
  rw [node?_modify]
  split
  · rename_i hid
    subst hid
    rw [hf, Option.map_map]
    exact congrArg (Option.map · (g.node? id)) (funext fun n => n.aged_aged 1 k)
  · rw [Nat.zero_add]

/-- Each node is visited once for each time that it was queued, and it was queued at the beginning
or by a node that it reads from and that became stale. -/
theorem node?_spread (g : Graph σ) (queue : List NodeId) (m : NodeId) :
    (g.spread queue).1.node? m = (g.node? m).map
      (Node.aged (queue.count m + (g.spread queue).2.countP (g.wiring.Supplies · m))) := by
  have hcons : ∀ id rest, List.count m (id :: rest) = (if id = m then 1 else 0) + rest.count m := by
    intro id rest
    simp only [List.count_cons, beq_iff_eq, Nat.add_comm]
  fun_induction spread g queue with
  | case1 g => exact (Node.map_aged_zero _).symm
  | case2 g id queue hn ih =>
    rw [ih]
    by_cases hid : id = m
    · subst hid
      rw [hn]
      rfl
    · rw [List.count_cons_of_ne hid]
  | case3 g id queue n hn hstale ih =>
    have hvisit : (g.node? id).map Node.touched = (g.node? id).map (Node.aged 1) := by
      rw [hn, Option.map_some, Option.map_some, Node.touched_eq_aged hstale]
    rw [ih, map_aged_modify _ hvisit, hcons, Nat.add_assoc]
    rfl
  | case4 g id queue n hn hstale g' flipped heq ih =>
    have hvisit : (g.node? id).map Node.invalidated = (g.node? id).map (Node.aged 1) := by
      rw [hn, Option.map_some, Option.map_some, Node.invalidated_eq_aged]
    have hsupplies : (id :: flipped).countP (g.wiring.Supplies · m) =
        (g.wiring.downstream id).count m + flipped.countP (g.wiring.Supplies · m) := by
      rw [Wiring.count_downstream, List.countP_cons, Nat.add_comm]
      simp only [decide_eq_true_eq]
    rw [heq] at ih
    rw [ih, map_aged_modify _ hvisit, hcons, hsupplies, List.count_append, Nat.add_assoc,
      Nat.add_assoc]
    rfl

theorem wiring_spread (g : Graph σ) (queue : List NodeId) :
    (g.spread queue).1.wiring = g.wiring := by
  fun_induction spread g queue with
  | case1 g => rfl
  | case2 g id queue hn ih => exact ih
  | case3 g id queue n hn hstale ih => exact ih
  | case4 g id queue n hn hstale g' flipped heq ih =>
    rw [heq] at ih
    exact ih

/-! ## Several traversals -/

/-- The account of traversals that began with these nodes, one after another, and led from the first
graph to the second. -/
structure Spreads (g : Graph σ) (ids flipped : List NodeId) (g' : Graph σ) : Prop where
  exact : ∀ m, m ∈ flipped ↔ ∃ u ∈ ids, g.FreshPath u m
  once : flipped.Nodup
  wiring : g'.wiring = g.wiring
  node? : ∀ m, g'.node? m = (g.node? m).map
    (Node.aged (ids.count m + flipped.countP (g.wiring.Supplies · m)))

theorem spreads_spread (g : Graph σ) (queue : List NodeId) :
    Spreads g queue (g.spread queue).2 (g.spread queue).1 :=
  ⟨fun _ => mem_spread g queue, nodup_spread g queue, wiring_spread g queue, node?_spread g queue⟩

namespace Spreads

variable {ids more flipped others : List NodeId} {g₁ g₂ : Graph σ}

/-- A fresh node is visited if it becomes stale, and only then. -/
theorem visits_pos_iff (h : Spreads g ids flipped g') (hm : g.isFresh m = true) :
    0 < ids.count m + flipped.countP (g.wiring.Supplies · m) ↔ m ∈ flipped := by
  rw [Nat.add_pos_iff_pos_or_pos, List.count_pos_iff, List.countP_pos_iff]
  constructor
  · rintro (hids | ⟨v, hv, hsupplies⟩)
    · exact (h.exact m).2 ⟨m, hids, .start hm⟩
    · obtain ⟨u, hu, hpath⟩ := (h.exact v).1 hv
      exact (h.exact m).2 ⟨u, hu, hpath.step (of_decide_eq_true hsupplies) hm⟩
  · intro hmem
    obtain ⟨u, hu, hpath⟩ := (h.exact m).1 hmem
    cases hpath with
    | start => exact .inl hu
    | step hpath hsupplies =>
      exact .inr ⟨_, (h.exact _).2 ⟨u, hu, hpath⟩, decide_eq_true hsupplies⟩

/-- The nodes afterwards: those that are listed are stale, and every visit is counted. -/
theorem node?_eq (h : Spreads g ids flipped g') (m : NodeId) :
    g'.node? m = (g.node? m).map fun n =>
      { n with
        stale := n.stale || decide (m ∈ flipped)
        epoch := n.epoch + (ids.count m + flipped.countP (g.wiring.Supplies · m)) } := by
  rw [h.node?]
  refine Option.map_congr fun n hn => ?_
  cases hs : n.stale with
  | true => simp only [Node.aged, hs, Bool.true_or]
  | false =>
    have hpos := h.visits_pos_iff (Graph.isFresh_iff.2 ⟨n, hn, hs⟩)
    simp only [Node.aged, hs, Bool.false_or, decide_eq_decide.2 hpos]

theorem isFresh_iff (h : Spreads g ids flipped g') :
    g'.isFresh m = true ↔ g.isFresh m = true ∧ m ∉ flipped := by
  constructor
  · intro hfresh'
    obtain ⟨n', hn', hs'⟩ := Graph.isFresh_iff.1 hfresh'
    rw [h.node?, Option.map_eq_some_iff] at hn'
    obtain ⟨n, hn, rfl⟩ := hn'
    obtain ⟨hs, hzero⟩ := Bool.or_eq_false_iff.1 hs'
    have hfresh : g.isFresh m = true := Graph.isFresh_iff.2 ⟨n, hn, hs⟩
    exact ⟨hfresh, fun hmem => of_decide_eq_false hzero ((h.visits_pos_iff hfresh).2 hmem)⟩
  · rintro ⟨hfresh, hnot⟩
    obtain ⟨n, hn, hs⟩ := Graph.isFresh_iff.1 hfresh
    have hzero := mt (h.visits_pos_iff hfresh).1 hnot
    refine Graph.isFresh_iff.2 ⟨_, by rw [h.node?, hn, Option.map_some], ?_⟩
    simp only [Node.aged, hs, decide_eq_false hzero, Bool.or_false]

/-- A path over fresh nodes stays one, unless the traversals made its last node stale. -/
theorem freshPath (h : Spreads g ids flipped g') (hpath : g.FreshPath u m) :
    m ∈ flipped ∨ g'.FreshPath u m := by
  induction hpath with
  | start hu =>
    by_cases hmem : u ∈ flipped
    · exact .inl hmem
    · exact .inr (.start (h.isFresh_iff.2 ⟨hu, hmem⟩))
  | step hpath hvm hm ih =>
    rename_i v m
    by_cases hmem : m ∈ flipped
    · exact .inl hmem
    · rcases ih with hv | hpath'
      · obtain ⟨x, hx, hxv⟩ := (h.exact v).1 hv
        exact .inl ((h.exact m).2 ⟨x, hx, hxv.step hvm hm⟩)
      · exact .inr (hpath'.step (h.wiring ▸ hvm) (h.isFresh_iff.2 ⟨hm, hmem⟩))

theorem trans (h : Spreads g ids flipped g₁) (h' : Spreads g₁ more others g₂) :
    Spreads g (ids ++ more) (flipped ++ others) g₂ where
  exact m := by
    rw [List.mem_append]
    constructor
    · rintro (hm | hm)
      · obtain ⟨u, hu, hpath⟩ := (h.exact m).1 hm
        exact ⟨u, List.mem_append_left _ hu, hpath⟩
      · obtain ⟨u, hu, hpath⟩ := (h'.exact m).1 hm
        have hback := hpath.mono h.wiring.symm fun v hv => (h.isFresh_iff.1 hv).1
        exact ⟨u, List.mem_append_right _ hu, hback⟩
    · rintro ⟨u, hu, hpath⟩
      rcases List.mem_append.1 hu with hu | hu
      · exact .inl ((h.exact m).2 ⟨u, hu, hpath⟩)
      · exact (h.freshPath hpath).imp_right fun hpath' => (h'.exact m).2 ⟨u, hu, hpath'⟩
  once := by
    refine List.nodup_append'.2 ⟨h.once, h'.once, fun m hm hm' => ?_⟩
    obtain ⟨u, -, hpath⟩ := (h'.exact m).1 hm'
    exact (h.isFresh_iff.1 hpath.right).2 hm
  wiring := h'.wiring.trans h.wiring
  node? m := by
    rw [h'.node?, h.node?, Option.map_map, List.count_append, List.countP_append, h.wiring,
      Nat.add_add_add_comm]
    exact congrArg (Option.map · (g.node? m)) (funext fun n => n.aged_aged _ _)

end Spreads

theorem spreads_invalidateAll (g : Graph σ) (ids : List NodeId) :
    Spreads g ids (g.invalidateAll ids).2 (g.invalidateAll ids).1 := by
  induction ids generalizing g with
  | nil =>
    have h := spreads_spread g []
    rwa [spread] at h
  | cons id rest ih => exact (spreads_spread g [id]).trans (ih (g.spread [id]).1)

end Graph

/-! ## The loop -/

/-- A traversal between two turns of its loop: the graph as it is by now, the nodes that are
queued, and those that became stale so far. -/
structure Sweep (σ : Type) where
  graph : Graph σ
  queue : List NodeId
  flipped : List NodeId

namespace Sweep

/-- One turn: the node at the front of the queue is visited. -/
def turn (s : Sweep σ) : Sweep σ :=
  match s.queue with
  | [] => s
  | id :: queue =>
    match s.graph.node? id with
    | none => { s with queue := queue }
    | some n =>
      if n.stale then { s with graph := s.graph.modify id Node.touched, queue := queue }
      else ⟨s.graph.modify id Node.invalidated, queue ++ s.graph.wiring.downstream id,
        s.flipped ++ [id]⟩

/-- The loop ends after so many turns, as soon as nothing is queued. -/
inductive Ends : Sweep σ → Nat → Sweep σ → Prop
  | over (g : Graph σ) (flipped : List NodeId) : Ends ⟨g, [], flipped⟩ 0 ⟨g, [], flipped⟩
  | turn {s s' : Sweep σ} {k : Nat} (hqueue : s.queue ≠ []) (h : Ends s.turn k s') :
    Ends s (k + 1) s'

/-- The loop takes one turn for each node that was queued at the beginning and one for each
consumer of a node that became stale. -/
theorem ends_spread (g : Graph σ) (queue flipped : List NodeId) :
    Ends ⟨g, queue, flipped⟩
      (queue.length + ((g.spread queue).2.flatMap g.wiring.downstream).length)
      ⟨(g.spread queue).1, [], flipped ++ (g.spread queue).2⟩ := by
  fun_induction Graph.spread g queue generalizing flipped with
  | case1 g =>
    rw [List.append_nil]
    exact .over g flipped
  | case2 g id queue hn ih =>
    rw [List.length_cons, Nat.add_right_comm]
    refine .turn (List.cons_ne_nil _ _) ?_
    simpa only [turn, hn] using ih flipped
  | case3 g id queue n hn hstale ih =>
    have hturn : turn ⟨g, id :: queue, flipped⟩ = ⟨g.modify id Node.touched, queue, flipped⟩ := by
      simp only [turn, hn, hstale, if_true]
    rw [List.length_cons, Nat.add_right_comm]
    refine .turn (List.cons_ne_nil _ _) ?_
    rw [hturn]
    exact ih flipped
  | case4 g id queue n hn hstale g' rest heq ih =>
    have hturn : turn ⟨g, id :: queue, flipped⟩ = ⟨g.modify id Node.invalidated,
        queue ++ g.wiring.downstream id, flipped ++ [id]⟩ := by
      simp only [turn, hn, hstale, Bool.false_eq_true, if_false]
    have h := ih (flipped ++ [id])
    rw [heq, List.length_append, List.append_assoc] at h
    rw [List.length_cons, List.flatMap_cons, List.length_append, Nat.add_right_comm,
      ← Nat.add_assoc]
    refine .turn (List.cons_ne_nil _ _) ?_
    rw [hturn]
    exact h

end Sweep

/-! ## One node to begin with -/

namespace Graph

theorem node?_invalidate (g : Graph σ) (id m : NodeId) :
    (g.invalidate id).1.node? m = (g.node? m).map fun n =>
      { n with
        stale := n.stale || decide (m ∈ (g.invalidate id).2)
        epoch := n.epoch + ((g.invalidate id).2.countP (g.wiring.Supplies · m) +
          if m = id then 1 else 0) } := by
  have hcount : [id].count m = if m = id then 1 else 0 := by
    simp only [List.count_singleton, beq_iff_eq, eq_comm (a := m)]
  rw [invalidate, (spreads_spread g [id]).node?_eq, hcount, Nat.add_comm]

/-- What an invalidation does. Its loop ends: it takes one turn for the node that it begins with and
one for each consumer of a node that becomes stale. Those nodes become stale, and are listed once,
to which a path over fresh nodes leads from there. The epoch of a node grows by one for each of them
that it reads from, and by one more if the invalidation began with it; so no consumer of a node that
became stale keeps its epoch, whether it was stale before or not. Nothing else is changed, and
nothing at all if there is no such node. -/
theorem invalidate_exact (g : Graph σ) (id : NodeId) :
    let g' := (g.invalidate id).1
    let flipped := (g.invalidate id).2
    Sweep.Ends ⟨g, [id], []⟩ (1 + (flipped.flatMap g.wiring.downstream).length) ⟨g', [], flipped⟩ ∧
      (∀ m, m ∈ flipped ↔ g.FreshPath id m) ∧ flipped.Nodup ∧
      (∀ m, g'.node? m = (g.node? m).map fun n =>
        { n with
          stale := n.stale || decide (m ∈ flipped)
          epoch := n.epoch + (flipped.countP (g.wiring.Supplies · m) + if m = id then 1 else 0) }) ∧
      (∀ u ∈ flipped, ∀ m n, g.wiring.Supplies u m → g.node? m = some n →
        ∃ n', g'.node? m = some n' ∧ n.epoch < n'.epoch) ∧
      g'.wiring = g.wiring ∧
      (g.node? id = none → g' = g ∧ flipped = []) := by
  intro g' flipped
  refine ⟨Sweep.ends_spread g [id] [], fun m => ?_, nodup_spread g [id], node?_invalidate g id,
    fun u hu m n hsupplies hn => ?_, wiring_spread g [id], fun hn => ?_⟩
  · have h := mem_spread (m := m) g [id]
    rwa [List.exists_mem_cons_iff, or_iff_left (by simp)] at h
  · have hpos : 0 < flipped.countP (g.wiring.Supplies · m) :=
      List.countP_pos_iff.2 ⟨u, hu, decide_eq_true hsupplies⟩
    refine ⟨_, by rw [node?_invalidate, hn, Option.map_some], ?_⟩
    exact Nat.lt_add_of_pos_right (Nat.add_pos_left hpos _)
  · have h : g.invalidate id = (g, []) := by
      rw [invalidate, spread]
      split
      · rw [spread]
      · rename_i hsome
        rw [hn] at hsome
        cases hsome
    exact ⟨congrArg Prod.fst h, congrArg Prod.snd h⟩

end Graph

namespace Bench

/-- Two fresh nodes feed each other and a stale one. Below that a circle of nodes is stale in one
place only, and one connection leads to a node that is not there. -/
def tangled : Graph BenchNode where
  nodes := Dict.ofList ([("a", false), ("b", false), ("c", true), ("d", false), ("e", true),
    ("f", false)].map fun (id, stale) => (id, { Node.new id BenchNode.gated with stale := stale }))
  wiring := [("a", "b"), ("b", "a"), ("a", "c"), ("b", "c"), ("c", "d"), ("c", "ghost"), ("d", "e"),
    ("e", "f"), ("f", "d")].foldl (fun w (u, v) => w.link ⟨⟨u, "output"⟩, ⟨v, u⟩⟩) .empty

/-- The fresh two become stale. The stale one stays as it was but for its epoch, so what it feeds is
not told; and a node that is not there changes nothing. -/
theorem invalidate_exact_tangled :
    let g' := (tangled.invalidate "a").1
    let flipped := (tangled.invalidate "a").2
    "b" ∈ flipped ∧ "d" ∉ flipped ∧ tangled.wiring.Supplies "b" "c" ∧
      (∃ n n', tangled.node? "c" = some n ∧ n.stale = true ∧ g'.node? "c" = some n' ∧
        n.epoch < n'.epoch) ∧
      tangled.node? "ghost" = none ∧ (tangled.invalidate "ghost").1 = tangled := by
  intro g' flipped
  obtain ⟨-, hflipped, -, -, hconsumer, -⟩ := Graph.invalidate_exact tangled "a"
  obtain ⟨-, -, -, -, -, -, hghost⟩ := Graph.invalidate_exact tangled "ghost"
  have hb : "b" ∈ flipped :=
    (hflipped "b").2 (.step (.start (by decide +kernel)) (by decide +kernel) (by decide +kernel))
  have hd : "d" ∉ flipped := by decide +kernel
  have hc : tangled.wiring.Supplies "b" "c" := by decide +kernel
  have hnone : tangled.node? "ghost" = none := by decide +kernel
  obtain ⟨n, hn, hstale⟩ : ∃ n, tangled.node? "c" = some n ∧ n.stale = true :=
    Option.map_eq_some_iff.1 (by decide +kernel)
  obtain ⟨n', hn', hless⟩ := hconsumer "b" hb "c" n hc hn
  exact ⟨hb, hd, hc, ⟨n, n', hn, hstale, hn', hless⟩, hnone, (hghost hnone).1⟩

end Bench

end Patchbay
