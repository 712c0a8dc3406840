import Mathlib.Order.Bounds.Defs
import Patchbay.Proofs.Shape

/-!
# Flags that were set by hand

Normalization begins at the consumers of the nodes that are stale and goes over fresh nodes only, in
a graph where a stale node may well have fresh ones below it. It misses none of them: on the way
from a stale node to a fresh one there is a last stale node, whose consumers it begins with, and
from there on the way is fresh. The stale nodes are afterwards those that were stale and all that
they reach.

What is proved here:
  1. `mem_normalize`: which nodes become stale.
  2. `isStale_normalize`, `isLeast_normalize`: which nodes are stale afterwards.
  3. `closed_normalize`: in a graph of an engine, what feeds a fresh node is fresh afterwards.
  4. `normalize_exact`: all of it.
-/

namespace Patchbay.Graph

open Relation

variable {σ : Type} {g : Graph σ} {u v m : NodeId}

/-- The node is there and stale. -/
def IsStale (g : Graph σ) (id : NodeId) : Prop := ∃ n, g.node? id = some n ∧ n.stale = true

/-- An edge of the graph: a connection to a node that is there. -/
def Edge (g : Graph σ) (u v : NodeId) : Prop :=
  g.wiring.Supplies u v ∧ (g.node? v).isSome = true

def Anchored (g : Graph σ) : Prop :=
  ∀ u v, g.wiring.Feeds u v → (g.node? u).isSome = true ∧ (g.node? v).isSome = true

theorem mem_staleNodes : m ∈ g.staleNodes ↔ ∃ n, g.node? m = some n ∧ n.stale = true := by
  rw [staleNodes, List.mem_map]
  constructor
  · intro hex
    obtain ⟨⟨m, n⟩, hmem, rfl⟩ := hex
    obtain ⟨hmem, hstale⟩ := List.mem_filter.1 hmem
    exact ⟨n, Dict.mem_entries.1 hmem, hstale⟩
  · intro hex
    obtain ⟨n, hn, hstale⟩ := hex
    exact ⟨(m, n), List.mem_filter.2 ⟨Dict.mem_entries.2 hn, hstale⟩, rfl⟩

theorem isStale_iff : g.IsStale m ↔ (g.node? m).isSome = true ∧ g.isFresh m = false := by
  rw [IsStale, isFresh]
  cases g.node? m <;> simp

theorem isSome_of_isFresh (h : g.isFresh m = true) : (g.node? m).isSome = true := by
  obtain ⟨n, hn, -⟩ := isFresh_iff.1 h
  exact hn ▸ rfl

theorem FreshPath.edges (h : g.FreshPath u v) : ReflTransGen g.Edge u v := by
  induction h with
  | start => exact .refl
  | step _ hsupplies hfresh ih => exact ih.tail ⟨hsupplies, isSome_of_isFresh hfresh⟩

section

variable [NodeState σ] {r : Registry σ}

theorem isSome_of_hasPort {ref : PortRef} {p : Port} (h : g.HasPort r ref p) :
    (g.node? ref.node).isSome = true := by
  obtain ⟨n, d, hn, -⟩ := h
  exact Option.isSome_iff_exists.2 ⟨n, hn⟩

theorem Whole.anchored (h : g.Whole r) : g.Anchored := by
  intro u v hex
  obtain ⟨c, hc, rfl, rfl⟩ := hex
  obtain ⟨p, q, hp, hq, -⟩ := h.joined c hc
  exact ⟨isSome_of_hasPort hp, isSome_of_hasPort hq⟩

theorem Whole.edge_iff (h : g.Whole r) : g.Edge u v ↔ g.wiring.Feeds u v := by
  rw [Edge, h.wiring.supplies_iff, and_iff_left_iff_imp]
  exact fun huv => (h.anchored u v huv).2

end

/-! ## What becomes stale -/

theorem spreads_normalize (g : Graph σ) :
    Spreads g (g.staleNodes.flatMap g.wiring.downstream) g.normalize.2 g.normalize.1 :=
  spreads_invalidateAll g _

/-- The fresh nodes become stale to which a path over fresh nodes leads from a consumer of a stale
node. -/
theorem mem_normalize : m ∈ g.normalize.2 ↔
    ∃ u v, g.IsStale u ∧ g.wiring.Supplies u v ∧ g.FreshPath v m := by
  rw [g.spreads_normalize.exact]
  constructor
  · rintro ⟨v, hv, hpath⟩
    obtain ⟨u, hu, hdown⟩ := List.mem_flatMap.1 hv
    exact ⟨u, v, mem_staleNodes.1 hu, Wiring.mem_downstream_iff.1 hdown, hpath⟩
  · rintro ⟨u, v, hu, hsupplies, hpath⟩
    exact ⟨v, List.mem_flatMap.2
      ⟨u, mem_staleNodes.2 hu, Wiring.mem_downstream_iff.2 hsupplies⟩, hpath⟩

/-- On the way from a stale node to a fresh one there is a last stale node, and from its consumer on
the way is fresh. -/
theorem isStale_or_mem_of_edges (hu : g.IsStale u) (hpath : ReflTransGen g.Edge u m) :
    g.IsStale m ∨ m ∈ g.normalize.2 := by
  induction hpath with
  | refl => exact .inl hu
  | @tail v m _ hedge ih =>
    obtain ⟨hsupplies, hthere⟩ := hedge
    cases hfresh : g.isFresh m with
    | false => exact .inl (isStale_iff.2 ⟨hthere, hfresh⟩)
    | true =>
      rcases ih with hv | hv
      · exact .inr (mem_normalize.2 ⟨v, m, hv, hsupplies, .start hfresh⟩)
      · obtain ⟨x, y, hx, hxy, hpath⟩ := mem_normalize.1 hv
        exact .inr (mem_normalize.2 ⟨x, y, hx, hxy, hpath.step hsupplies hfresh⟩)

theorem Spreads.isStale_iff {ids flipped : List NodeId} {g' : Graph σ}
    (h : Spreads g ids flipped g') : g'.IsStale m ↔ g.IsStale m ∨ m ∈ flipped := by
  have hsome : (g'.node? m).isSome = (g.node? m).isSome := by rw [h.node?, Option.isSome_map]
  have hthere : m ∈ flipped → (g.node? m).isSome = true := by
    intro hm
    obtain ⟨u, -, hpath⟩ := (h.exact m).1 hm
    exact isSome_of_isFresh hpath.right
  rw [Graph.isStale_iff, Graph.isStale_iff, hsome, Bool.eq_false_iff, Bool.eq_false_iff, Ne, Ne,
    h.isFresh_iff]
  tauto

/-- The stale nodes are afterwards those that edges lead to from a node that was stale. -/
theorem isStale_normalize : g.normalize.1.IsStale m ↔
    ∃ u, g.IsStale u ∧ ReflTransGen g.Edge u m := by
  rw [g.spreads_normalize.isStale_iff]
  constructor
  · rintro (hm | hm)
    · exact ⟨m, hm, .refl⟩
    · obtain ⟨u, v, hu, hsupplies, hpath⟩ := mem_normalize.1 hm
      exact ⟨u, hu, .head ⟨hsupplies, isSome_of_isFresh hpath.left⟩ hpath.edges⟩
  · rintro ⟨u, hu, hpath⟩
    exact isStale_or_mem_of_edges hu hpath

theorem edge_normalize : g.normalize.1.Edge u v ↔ g.Edge u v := by
  rw [Edge, Edge, g.spreads_normalize.wiring, g.spreads_normalize.node?, Option.isSome_map]

theorem IsStale.edge (h : g.normalize.1.IsStale u) (hedge : g.Edge u v) :
    g.normalize.1.IsStale v := by
  obtain ⟨x, hx, hpath⟩ := isStale_normalize.1 h
  exact isStale_normalize.2 ⟨x, hx, hpath.tail hedge⟩

theorem normalize_normalize (g : Graph σ) : g.normalize.1.normalize.2 = [] := by
  refine List.eq_nil_iff_forall_not_mem.2 fun m hm => ?_
  obtain ⟨u, v, hu, hsupplies, hpath⟩ := mem_normalize.1 hm
  have hv : g.normalize.1.IsStale v :=
    hu.edge (edge_normalize.1 ⟨hsupplies, isSome_of_isFresh hpath.left⟩)
  exact Bool.false_ne_true ((isStale_iff.1 hv).2.symm.trans hpath.left)

/-- In a graph of an engine, what feeds a fresh node is fresh afterwards. -/
theorem closed_normalize [NodeState σ] {r : Registry σ} (h : g.Whole r) :
    g.normalize.1.Closed := by
  intro u v huv hfresh
  rw [g.spreads_normalize.wiring] at huv
  obtain ⟨hthere, -⟩ := h.anchored u v huv
  by_contra hu
  have hstale : g.normalize.1.IsStale u := isStale_iff.2 ⟨by
    rwa [g.spreads_normalize.node?, Option.isSome_map], Bool.eq_false_iff.2 hu⟩
  have hv := hstale.edge (h.edge_iff.2 huv)
  exact Bool.false_ne_true ((isStale_iff.1 hv).2.symm.trans hfresh)

/-- The nodes that are stale afterwards are the least set that holds what was stale and is closed
downstream. -/
theorem isLeast_normalize (g : Graph σ) :
    IsLeast {S : Set NodeId | (∀ u, g.IsStale u → u ∈ S) ∧ ∀ u v, u ∈ S → g.Edge u v → v ∈ S}
      {m | g.normalize.1.IsStale m} := by
  refine ⟨⟨fun u hu => ?_, fun u v hu hedge => hu.edge hedge⟩, fun S hS m hm => ?_⟩
  · exact isStale_normalize.2 ⟨u, hu, .refl⟩
  · obtain ⟨u, hu, hpath⟩ := isStale_normalize.1 hm
    clear hm
    induction hpath with
    | refl => exact hS.1 u hu
    | tail _ hedge ih => exact hS.2 _ _ ih hedge

theorem Spreads.not_isStale {ids flipped : List NodeId} {g' : Graph σ}
    (h : Spreads g ids flipped g') (hm : m ∈ flipped) : ¬ g.IsStale m := by
  intro hstale
  obtain ⟨u, -, hpath⟩ := (h.exact m).1 hm
  exact Bool.false_ne_true ((Graph.isStale_iff.1 hstale).2.symm.trans hpath.right)

/-- Normalization computes the least staleness that holds what was stale and is closed downstream:
afterwards a node is stale if it was or if edges lead to it from a node that was, and only then. The
nodes that became stale are listed, each once; a second normalization lists none. Connections are
not touched, and nothing of a node but its flag and its epoch. -/
theorem normalize_exact (g : Graph σ) :
    let g' := g.normalize.1
    let flipped := g.normalize.2
    (∀ m, g'.IsStale m ↔ g.IsStale m ∨ ∃ u, g.IsStale u ∧ TransGen g.Edge u m) ∧
      IsLeast {S : Set NodeId | (∀ u, g.IsStale u → u ∈ S) ∧ ∀ u v, u ∈ S → g.Edge u v → v ∈ S}
        {m | g'.IsStale m} ∧
      (∀ m, m ∈ flipped ↔ ¬ g.IsStale m ∧ g'.IsStale m) ∧ flipped.Nodup ∧
      g'.normalize.2 = [] ∧
      g'.wiring = g.wiring ∧
      ∀ m, Option.Rel (fun n n' : Node σ => n' = { n with stale := n'.stale, epoch := n'.epoch })
        (g.node? m) (g'.node? m) := by
  intro g' flipped
  have h := g.spreads_normalize
  refine ⟨fun m => ?_, isLeast_normalize g, fun m => ?_, h.once, normalize_normalize g, h.wiring,
    fun m => ?_⟩
  · rw [isStale_normalize]
    constructor
    · rintro ⟨u, hu, hpath⟩
      rcases reflTransGen_iff_eq_or_transGen.1 hpath with rfl | hpath
      · exact .inl hu
      · exact .inr ⟨u, hu, hpath⟩
    · rintro (hm | ⟨u, hu, hpath⟩)
      · exact ⟨m, hm, .refl⟩
      · exact ⟨u, hu, hpath.to_reflTransGen⟩
  · rw [h.isStale_iff]
    constructor
    · intro hm
      exact ⟨h.not_isStale hm, .inr hm⟩
    · rintro ⟨hnot, hm⟩
      exact hm.resolve_left hnot
  · rw [h.node?]
    cases g.node? m with
    | none => exact .none
    | some n => exact .some rfl

end Patchbay.Graph

namespace Patchbay.Bench

/-- What the stale node of the tangle feeds becomes stale, and then there is nothing left to do. -/
theorem normalize_exact_tangled :
    tangled.IsStale "c" ∧ tangled.Edge "c" "d" ∧ ¬ tangled.IsStale "d" ∧
      "d" ∈ tangled.normalize.2 ∧ tangled.normalize.1.normalize.2 = [] := by
  obtain ⟨hstale, -, hflipped, -, hagain, -⟩ := Graph.normalize_exact tangled
  have hc : tangled.IsStale "c" := Graph.isStale_iff.2 (by decide +kernel)
  have hedge : tangled.Edge "c" "d" := ⟨by decide +kernel, by decide +kernel⟩
  have hd : ¬ tangled.IsStale "d" := mt Graph.isStale_iff.1 (by decide +kernel)
  exact ⟨hc, hedge, hd,
    (hflipped "d").2 ⟨hd, (hstale "d").2 (.inr ⟨"c", hc, .single hedge⟩)⟩, hagain⟩

end Patchbay.Bench
