import Patchbay.Bench
import Patchbay.Proofs.Flawless

/-!
# Circles that a snapshot reports

The check for circles takes nodes away one after another and reports a circle if some are left. It
keeps a count for the nodes that are listed and for those that connections lead to. A node that is
neither, a stray source, has no count, so it is never taken away and the nodes that it points to
stay behind: they are reported as a circle where there is none.

The counts are natural numbers, which stop at zero. `lower?` has no result there, and the loop that
is made of it comes to an end all the same: nothing is ever subtracted from a count of zero. Neither
that nor the report depends on the order in which the edges and the free nodes are gone through.

What is proved here:
  1. `Degrees.release?_eq`, `Degrees.Peeled.peels`: the loop ends, and no subtraction goes below
     zero.
  2. `Snapshot.count_cycle`: circles are reported in one place only.
  3. `Snapshot.Stray.unknownNode`: a stray source is reported as unknown as well.
  4. `Snapshot.cycle_reported`: a circle is reported once, and only if there is one or a stray
     source.
-/

namespace Patchbay

open Relation

/-! ## The loop -/

namespace Degrees

/-- One edge less leads to this node, if it has a count; there is no result if that is zero. -/
def lower? (d : Degrees) (node : String) : Option (Degrees × List String) :=
  match d.get? node with
  | none => some (d, [])
  | some 0 => none
  | some (k + 1) => some (d.insert node k, if k = 0 then [node] else [])

/-- The edges that start at `node` lead to their targets no longer. -/
def release? (d : Degrees) (node : String) : Edges → Option (Degrees × List String)
  | [] => some (d, [])
  | e :: rest =>
    if e.1 = node then do
      let (d, first) ← d.lower? e.2
      let (d, others) ← release? d node rest
      return (d, first ++ others)
    else release? d node rest

/-- The loop takes this many nodes from the queue, until it is empty. -/
inductive Peels (edges : Edges) : Degrees → List String → Nat → Prop
  | over (d : Degrees) : Peels edges d [] 0
  | next {d d' : Degrees} {node : String} {queue freed : List String} {n : Nat}
    (hrelease : d.release? node edges = some (d', freed))
    (h : Peels edges d' (queue ++ freed) n) : Peels edges d (node :: queue) (n + 1)

variable {d : Degrees} {edges : Edges} {node : String} {queue queue' done : List String}

theorem lower?_eq (h : ∀ k, d.get? node = some k → 0 < k) : d.lower? node = some (d.lower node) := by
  rw [lower?, lower]
  cases hk : d.get? node with
  | none =>
    have hsame : d.modify node (· - 1) = d := by
      refine Dict.ext_get? fun v => ?_
      rw [Dict.get?_modify]
      split
      · rename_i he
        rw [← Std.compare_eq_iff_eq.1 he, hk]
        rfl
      · rfl
    simp [hsame]
  | some k =>
    cases k with
    | zero => exact absurd (h 0 hk) (Nat.lt_irrefl 0)
    | succ k =>
      have hlowered : d.insert node k = d.modify node (· - 1) := by
        refine Dict.ext_get? fun v => ?_
        rw [Dict.get?_insert, Dict.get?_modify]
        split
        · rename_i he
          rw [← Std.compare_eq_iff_eq.1 he, hk]
          rfl
        · rfl
      simp [hlowered]

/-- As long as no more edges are released than are counted, nothing goes below zero. -/
theorem release?_eq (h : ∀ v, edges.between node v ≤ (d.get? v).getD 0) :
    d.release? node edges = some (d.release node edges) := by
  induction edges generalizing d with
  | nil => rfl
  | cons e rest ih =>
    rw [release?, release]
    by_cases hnode : e.1 = node
    · have hbetween : ∀ v, Edges.between (e :: rest) node v =
          Edges.between rest node v + if e.2 = v then 1 else 0 := by
        intro v
        simp [Edges.between, List.countP_cons, hnode]
      have hlower : d.lower? e.2 = some (d.lower e.2) := by
        refine lower?_eq fun k hk => ?_
        have hle := h e.2
        rw [hbetween, if_pos rfl, hk, Option.getD_some] at hle
        omega
      have hrest : ∀ v, Edges.between rest node v ≤ ((d.lower e.2).1.get? v).getD 0 := by
        intro v
        have hle := h v
        rw [hbetween] at hle
        rw [get?_lower]
        split
        · rename_i he
          rw [if_pos he] at hle
          cases hk : d.get? v with
          | none =>
            rw [hk, Option.getD_none] at hle
            omega
          | some k =>
            rw [hk, Option.getD_some] at hle
            rw [Option.map_some, Option.getD_some]
            omega
        · rename_i hne
          rwa [if_neg hne, Nat.add_zero] at hle
      simp only [if_pos hnode, hlower, Option.bind_eq_bind, Option.bind_some, ih hrest]
      rfl
    · have hsame : ∀ v, Edges.between (e :: rest) node v = Edges.between rest node v := by
        intro v
        simp [Edges.between, hnode]
      rw [if_neg hnode, if_neg hnode]
      exact ih fun v => hsame v ▸ h v

theorem Peeled.perm (h : Peeled edges d queue done) (hperm : queue'.Perm queue) :
    Peeled edges d queue' done where
  nodup := (hperm.append_right done).nodup_iff.2 h.nodup
  mem v := ((hperm.append_right done).mem_iff).trans (h.mem v)
  count := h.count

theorem Peeled.peels (h : Peeled edges d queue done) : Peels edges d queue (d.peel edges queue) := by
  fun_induction peel d edges queue generalizing done with
  | case1 d => exact .over d
  | case2 d node queue r =>
    rename_i ih
    rw [Nat.add_comm]
    exact .next (release?_eq h.between_le) (ih h.step)

end Degrees

theorem Edges.joins_congr {edges edges' : Edges} (h : edges'.Perm edges) :
    edges'.Joins = edges.Joins :=
  funext fun _ => funext fun _ => propext h.mem_iff

/-! ## The report -/

namespace Snapshot

variable {σ : Type} {s : Snapshot σ}

/-- Some connection leads from one node to the other. -/
def Leads (s : Snapshot σ) (u v : NodeId) : Prop :=
  ∃ c ∈ s.connections, c.source.node = u ∧ c.sink.node = v

/-- Connections lead in a circle. -/
def Circular (s : Snapshot σ) : Prop := ∃ v, TransGen s.Leads v v

/-- Some connection starts at a node that is not listed and that no connection leads to. -/
def Stray (s : Snapshot σ) : Prop :=
  ∃ c ∈ s.connections, c.source.node ∉ s.nodes.map (·.id) ∧ ∀ u, ¬ s.Leads u c.source.node

variable [NodeState σ] {r : Registry σ}

omit [NodeState σ] in
theorem joins_eq_leads : s.edges.Joins = s.Leads :=
  funext fun _ => funext fun _ => propext joins_edges_iff

omit [NodeState σ] in
theorem circular_edges : s.edges.Circular ↔ s.Circular := by
  rw [Edges.Circular, joins_eq_leads, Circular]

omit [NodeState σ] in
theorem stray_edges : s.edges.Stray (s.nodes.map (·.id)) ↔ s.Stray := by
  rw [Edges.Stray, joins_eq_leads, Stray]
  constructor
  · rintro ⟨u, v, ⟨c, hc, rfl, rfl⟩, hunlisted, hunfed⟩
    exact ⟨c, hc, hunlisted, hunfed⟩
  · rintro ⟨c, hc, hunlisted, hunfed⟩
    exact ⟨_, _, ⟨c, hc, rfl, rfl⟩, hunlisted, hunfed⟩

theorem cycle_notMem_nodeDefects (seen : List NodeId) (nodes : List (Node σ)) :
    .cycle ∉ nodeDefects r seen nodes := by
  induction nodes generalizing seen with
  | nil => exact List.not_mem_nil
  | cons n rest ih =>
    rw [nodeDefects, List.mem_append, List.mem_append, not_or, not_or]
    refine ⟨⟨?_, ?_⟩, ih _⟩
    · split <;> simp
    · split <;> simp

theorem cycle_notMem_checkEnd {states : Dict NodeId σ} {c : Connection} {port : PortRef}
    {expected : Direction} {defects : List Defect}
    (h : checkEnd r states c port expected = .error defects) : .cycle ∉ defects := by
  unfold checkEnd at h
  repeat' split at h
  all_goals
    cases h
    try simp

theorem cycle_notMem_connectionDefects (states : Dict NodeId σ) (c : Connection) :
    .cycle ∉ connectionDefects r states c := by
  rw [connectionDefects]
  split
  · split <;> simp
  · rename_i hsource hsink
    rw [List.mem_append, not_or]
    exact ⟨cycle_notMem_checkEnd hsource, cycle_notMem_checkEnd hsink⟩
  · rename_i hsource _
    exact cycle_notMem_checkEnd hsource
  · rename_i _ hsink
    exact cycle_notMem_checkEnd hsink

omit [NodeState σ] in
theorem cycle_notMem_sinkDefects (bound : List PortRef) (cs : List Connection) :
    .cycle ∉ sinkDefects bound cs := by
  induction cs generalizing bound with
  | nil => exact List.not_mem_nil
  | cons c rest ih =>
    rw [sinkDefects, List.mem_append, not_or]
    refine ⟨?_, ih _⟩
    split <;> simp

/-- A circle is reported if peeling leaves something, and then once. -/
theorem count_cycle (r : Registry σ) (s : Snapshot σ) :
    (s.defects r).count .cycle = if leavesCore (s.nodes.map (·.id)) s.edges then 1 else 0 := by
  have hconns : .cycle ∉ s.connections.flatMap (connectionDefects r s.states) := by
    rw [List.mem_flatMap]
    rintro ⟨c, -, hc⟩
    exact cycle_notMem_connectionDefects _ c hc
  rw [defects_eq, List.count_append, List.count_append, List.count_append,
    List.count_eq_zero.2 (cycle_notMem_nodeDefects _ _), List.count_eq_zero.2 hconns,
    List.count_eq_zero.2 (cycle_notMem_sinkDefects _ _)]
  split <;> rfl

theorem cycle_mem_iff : Defect.cycle ∈ s.defects r ↔ s.Circular ∨ s.Stray := by
  rw [← List.count_pos_iff, count_cycle, ← circular_edges, ← stray_edges, ← leavesCore_iff]
  split
  · rename_i hcore
    exact iff_of_true Nat.one_pos hcore
  · rename_i hcore
    exact iff_of_false (Nat.lt_irrefl 0) hcore

theorem Stray.unknownNode (h : s.Stray) (r : Registry σ) :
    ∃ c ∈ s.connections, .unknownNode c c.source.node ∈ s.defects r := by
  obtain ⟨c, hc, hunlisted, -⟩ := h
  have habsent : s.states.get? c.source.node = none := by
    cases hstate : s.states.get? c.source.node with
    | none => rfl
    | some state =>
      obtain ⟨n, hn, hid, -⟩ := mem_of_states hstate
      exact absurd (List.mem_map.2 ⟨n, hn, hid⟩) hunlisted
  have hend : checkEnd r s.states c c.source .source = .error [.unknownNode c c.source.node] := by
    rw [checkEnd, habsent]
  have hmem : .unknownNode c c.source.node ∈ connectionDefects r s.states c := by
    rw [connectionDefects, hend]
    cases checkEnd r s.states c c.sink .sink <;> simp
  refine ⟨c, hc, ?_⟩
  rw [defects_eq, List.mem_append, List.mem_append, List.mem_append]
  exact .inl (.inl (.inr (List.mem_flatMap.2 ⟨c, hc, hmem⟩)))

/-- The defects of a snapshot name a circle once at most, and they name one if and only if
connections lead in a circle or start at a stray source, which is reported as unknown then. Whatever
the order in which the edges and the free nodes come, the loop ends without a subtraction from zero,
and it ends short of the counted nodes exactly if a circle is reported. -/
theorem cycle_reported (r : Registry σ) (s : Snapshot σ) :
    (s.defects r).count .cycle ≤ 1 ∧
    (.cycle ∈ s.defects r ↔ s.Circular ∨ s.Stray) ∧
    (s.Stray → ∃ c ∈ s.connections, .unknownNode c c.source.node ∈ s.defects r) ∧
    ∀ edges queue : List _, edges.Perm s.edges →
      let counts := Degrees.ofEdges (s.nodes.map (·.id)) edges
      queue.Perm counts.free →
      ∃ n, Degrees.Peels edges counts queue n ∧ (n < counts.size ↔ .cycle ∈ s.defects r) := by
  refine ⟨?_, cycle_mem_iff, fun h => h.unknownNode r, ?_⟩
  · rw [count_cycle]
    split <;> decide
  · intro edges queue hedges counts hqueue
    have hstart := (Degrees.Peeled.start (s.nodes.map (·.id)) edges).perm hqueue
    refine ⟨_, hstart.peels, ?_⟩
    have hjoins := Edges.joins_congr hedges
    rw [Degrees.peel_lt_iff hstart, cycle_mem_iff, ← circular_edges, ← stray_edges,
      Edges.Circular, Edges.Stray, hjoins]
    rfl

end Snapshot

namespace Bench

/-- A doubler that an unlisted node feeds. -/
def haunted : Snapshot BenchNode where
  nodes := [.new "b" (.double false)]
  connections := [⟨⟨"ghost", "output"⟩, ⟨"b", "input"⟩⟩]

/-- Only one connection, and it leads to another node, but a circle is reported. -/
theorem cycle_reported_haunted :
    haunted.defects (registry {}) =
        [.unknownNode ⟨⟨"ghost", "output"⟩, ⟨"b", "input"⟩⟩ "ghost", .cycle] ∧
      ¬ haunted.Circular := by
  refine ⟨by decide +kernel, ?_⟩
  rintro ⟨v, hcircle⟩
  obtain ⟨u, hvu, c, hc, rfl, rfl⟩ := TransGen.tail'_iff.1 hcircle
  obtain rfl := List.mem_singleton.1 hc
  rcases ReflTransGen.cases_head hvu with he | ⟨w, ⟨c, hc, hb, -⟩, -⟩
  · exact absurd he (by decide)
  · obtain rfl := List.mem_singleton.1 hc
    exact absurd hb (by decide)

end Bench

end Patchbay
