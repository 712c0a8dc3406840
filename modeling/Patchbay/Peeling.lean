import Patchbay.Dict

/-!
# Peeling a relation

Topological peeling: as long as some node has no unpeeled predecessor, take it away and lower
the count of predecessors of the nodes that it points to. Nodes that lie on a circle, or that
only nodes of a circle lead to, are never taken away.

What is proved here: `count_release`, by which a count that has reached zero is never lowered
again, so that every node is freed at most once.
-/

namespace Patchbay

abbrev Edges := List (String × String)

/-- For each node, how many edges still lead to it. -/
abbrev Degrees := Dict String Nat

namespace Degrees

def zero (nodes : List String) : Degrees := Dict.ofList (nodes.map (·, 0))

def raise (d : Degrees) (node : String) : Degrees := d.insert node ((d.get? node).getD 0 + 1)

/-- The counts for these edges, with an entry for each listed node and each target. -/
def ofEdges (nodes : List String) (edges : Edges) : Degrees :=
  edges.foldl (fun d e => d.raise e.2) (zero nodes)

def positive (d : Degrees) : Nat := d.entries.countP (0 < ·.2)

def free (d : Degrees) : List String := (d.entries.filter (·.2 = 0)).map (·.1)

/-- One edge less leads to this node. The list holds the node if that was its last one. -/
def lower (d : Degrees) (node : String) : Degrees × List String :=
  (d.modify node (· - 1), if d.get? node == some 1 then [node] else [])

/-- The edges that start at `node` lead to their targets no longer. The list names the targets
that have become free. -/
def release (d : Degrees) (node : String) : Edges → Degrees × List String
  | [] => (d, [])
  | e :: rest =>
    if e.1 = node then
      let (d, first) := d.lower e.2
      let (d, others) := release d node rest
      (d, first ++ others)
    else release d node rest

theorem positive_lower (d : Degrees) (node : String) :
    (d.lower node).1.positive + (d.lower node).2.length ≤ d.positive := by
  suffices h : ∀ l : List (String × Nat),
      l.Pairwise (fun a b => compare a.1 b.1 = .lt) →
      (l.map fun e => if compare e.1 node = .eq then (e.1, e.2 - 1) else e).countP (0 < ·.2)
        + (if Dict.find node l == some 1 then 1 else 0) ≤ l.countP (0 < ·.2) by
    have := h d.entries d.sorted
    cases hf : Dict.find node d.entries == some 1 <;> rw [hf] at this <;>
      simpa [lower, positive, Dict.modify, Dict.get?, hf] using this
  intro l hl
  induction l with
  | nil => simp [Dict.find]
  | cons e rest ih =>
    obtain ⟨he, hrest⟩ := List.pairwise_cons.1 hl
    have ih := ih hrest
    by_cases h : compare e.1 node = .eq
    · have hskip : rest.map (fun e => if compare e.1 node = .eq then (e.1, e.2 - 1) else e)
          = rest := by
        refine (List.map_congr_left fun x hx => if_neg ?_).trans (List.map_id _)
        rw [← Std.compare_eq_iff_eq.1 h, Std.OrientedOrd.eq_swap, he x hx]
        decide
      simp only [List.map_cons, if_pos h, hskip, Dict.find, List.countP_cons]
      by_cases h1 : e.2 = 1
      · simp [h1]
      · have hne : (some e.2 == some 1) = false := by simpa using h1
        simp only [hne, Bool.false_eq_true, if_false]
        by_cases h0 : 0 < e.2 - 1
        · have : 0 < e.2 := by omega
          simp [h0, this]
        · simp [h0]
    · simp only [List.map_cons, if_neg h, Dict.find, List.countP_cons]
      omega

theorem count_release (d : Degrees) (node : String) (edges : Edges) :
    (d.release node edges).1.positive + (d.release node edges).2.length ≤ d.positive := by
  induction edges generalizing d with
  | nil => simp [release]
  | cons e rest ih =>
    unfold release
    split
    · have h1 := positive_lower d e.2
      have h2 := ih (d.lower e.2).1
      simp only [List.length_append]
      omega
    · exact ih d

/-- How many nodes are taken away when the queued ones are free. -/
def peel (d : Degrees) (edges : Edges) : List String → Nat
  | [] => 0
  | node :: queue =>
    let r := d.release node edges
    1 + peel r.1 edges (queue ++ r.2)
termination_by queue => queue.length + d.positive
decreasing_by
  have h := count_release d node edges
  simp only [List.length_append, List.length_cons]
  omega

end Degrees

/-- Whether peeling leaves some node. -/
def leavesCore (nodes : List String) (edges : Edges) : Bool :=
  let degrees := Degrees.ofEdges nodes edges
  degrees.peel edges degrees.free < degrees.size

end Patchbay
