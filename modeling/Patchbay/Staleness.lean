import Patchbay.Graph

/-!
# Staleness

How a change makes its way downstream. `invalidate` marks a node and everything that depends on
it stale. It stops at nodes that are stale already, since what depends on those is stale too,
but every node it comes to has its epoch counted up, so that an execution in progress can tell
that its inputs moved. `blockBelow` carries the stop sign of a blocked node downstream, where it
stops at nothing. `normalize` makes a graph whose flags were set by hand consistent.
-/

namespace Patchbay.Graph

variable {σ : Type}

/-! ## Invalidation -/

theorem isFresh_touched (g : Graph σ) (id m : NodeId) :
    (g.modify id Node.touched).isFresh m = g.isFresh m := by
  simp only [isFresh, node?_modify]
  split
  · cases g.node? m <;> rfl
  · rfl

theorem isFresh_invalidated_self (g : Graph σ) (id : NodeId) :
    (g.modify id Node.invalidated).isFresh id = false := by
  simp only [isFresh, node?_modify]
  cases g.node? id <;> rfl

theorem isFresh_of_invalidated (g : Graph σ) (id m : NodeId)
    (h : (g.modify id Node.invalidated).isFresh m = true) : g.isFresh m = true := by
  by_cases hm : id = m
  · subst hm
    rw [isFresh_invalidated_self] at h
    exact absurd h (by decide)
  · simpa only [isFresh, node?_modify, if_neg hm] using h

/-- Visit the queued nodes in order. A fresh node becomes stale and its consumers are queued;
the result lists those nodes as they are met. -/
def spread (g : Graph σ) : List NodeId → Graph σ × List NodeId
  | [] => (g, [])
  | id :: queue =>
    match _h : g.node? id with
    | none => spread g queue
    | some n =>
      if _s : n.stale then spread (g.modify id Node.touched) queue
      else
        let (g', flipped) := spread (g.modify id Node.invalidated)
          (queue ++ g.wiring.downstream id)
        (g', id :: flipped)
termination_by queue => queue.length + g.wiring.load g.isFresh
decreasing_by
  · simp only [List.length_cons]
    omega
  · have h : g.wiring.load (g.modify id Node.touched).isFresh = g.wiring.load g.isFresh :=
      congrArg g.wiring.load (funext (isFresh_touched g id))
    simp only [List.length_cons, modify] at h ⊢
    omega
  · have h := g.wiring.load_close g.isFresh (g.modify id Node.invalidated).isFresh id
      (by simp [isFresh, _h, _s]) (isFresh_invalidated_self g id)
      (isFresh_of_invalidated g id)
    simp only [List.length_cons, List.length_append, modify] at h ⊢
    omega

/-- Mark a node and everything downstream of it stale. The list names the nodes that were fresh
before, in the order of the visit. -/
def invalidate (g : Graph σ) (id : NodeId) : Graph σ × List NodeId := g.spread [id]

def invalidateAll (g : Graph σ) : List NodeId → Graph σ × List NodeId
  | [] => (g, [])
  | id :: rest =>
    let (g, first) := g.invalidate id
    let (g, others) := invalidateAll g rest
    (g, first ++ others)

/-! ## Blocking -/

/-- Stop the queued nodes and everything below them, each once; `visited` lists those met
before. The result lists the nodes that exist, as they are met. -/
def stopAll (g : Graph σ) (visited : List NodeId) : List NodeId → Graph σ × List NodeId
  | [] => (g, [])
  | id :: queue =>
    if _h : visited.contains id then stopAll g visited queue
    else
      match g.node? id with
      | none => stopAll g (id :: visited) queue
      | some _ =>
        let (g', touched) := stopAll (g.modify id Node.stopped) (id :: visited)
          (queue ++ g.wiring.downstream id)
        (g', id :: touched)
termination_by queue => queue.length + g.wiring.load fun m => !visited.contains m
decreasing_by
  · simp only [List.length_cons]
    omega
  all_goals
    have h := g.wiring.load_close (fun m => !visited.contains m)
      (fun m => !(id :: visited).contains m) id (by simpa using _h) (by simp)
      (by simp)
    simp only [List.length_cons, List.length_append, modify]
    omega

/-- Carry the stop sign of a blocked node to everything downstream of it. The list names the
nodes that were stopped; the node itself is not among them. -/
def blockBelow (g : Graph σ) (id : NodeId) : Graph σ × List NodeId :=
  g.stopAll [] (g.wiring.downstream id)

/-! ## Normalization -/

def staleNodes (g : Graph σ) : List NodeId :=
  (g.nodes.entries.filter (·.2.stale)).map (·.1)

def normalize (g : Graph σ) : Graph σ × List NodeId :=
  g.invalidateAll (g.staleNodes.flatMap g.wiring.downstream)

end Patchbay.Graph
