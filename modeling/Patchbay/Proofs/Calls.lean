import Patchbay.Proofs.EdgeSet
import Patchbay.Proofs.Impact

/-!
# Calls of node types

Node types are called when connections at their nodes come or go. A call is all that such a change
does to a state, so the state of a node tells which calls it has had: it is what the calls in order
make of the state that it had before. Whatever follows a change of connections is described here
by the list of its calls.

What is proved here:
  1. `Graph.called_runHooks`, `Graph.called_afterEdge`, `Graph.called_afterRemoval`,
     `Graph.called_dropEdges`: the calls that follow a change of connections.
  2. `count_callsOf`, `count_map_otherEnd`: how often each port is called.
-/

namespace Patchbay

variable {σ : Type}

/-- A node type is told that a connection at a port of its node came or went. -/
structure Call where
  connected : Bool
  port : PortRef
  deriving DecidableEq

/-- The calls at both ends of these connections, one connection after another. -/
def callsOf (connected : Bool) (cs : List Connection) : List Call :=
  (Graph.bothEnds cs).map (Call.mk connected)

def Connection.Touches (c : Connection) (port : PortRef) : Prop := c.source = port ∨ c.sink = port

instance (c : Connection) (port : PortRef) : Decidable (c.Touches port) :=
  inferInstanceAs (Decidable (_ ∨ _))

/-! ## How often a port is called -/

section

variable {connected : Bool} {cs : List Connection} {port : PortRef}

theorem count_callsOf (hends : ∀ c ∈ cs, c.source ≠ c.sink) :
    (callsOf connected cs).count ⟨connected, port⟩ = cs.countP (·.Touches port) := by
  induction cs with
  | nil => rfl
  | cons c rest ih =>
    rw [List.forall_mem_cons] at hends
    have hpair : [Call.mk connected c.source, ⟨connected, c.sink⟩].count ⟨connected, port⟩ =
        if c.Touches port then 1 else 0 := by
      by_cases hsource : c.source = port
      · have hsink : c.sink ≠ port := fun h => hends.1 (hsource.trans h.symm)
        simp [Connection.Touches, hsource, hsink]
      · simp [Connection.Touches, hsource, List.count_cons]
    have hcons : callsOf connected (c :: rest) =
        [⟨connected, c.source⟩, ⟨connected, c.sink⟩] ++ callsOf connected rest := rfl
    rw [hcons, List.count_append, hpair, ih hends.2, List.countP_cons, Nat.add_comm]
    simp only [decide_eq_true_eq]

theorem mem_callsOf {call : Call} : call ∈ callsOf connected cs ↔
    ∃ c ∈ cs, call = ⟨connected, c.source⟩ ∨ call = ⟨connected, c.sink⟩ := by
  simp only [callsOf, Graph.bothEnds, List.map_flatMap, List.mem_flatMap, List.map_cons,
    List.map_nil, List.mem_cons, List.not_mem_nil, or_false]

theorem count_callsOf_not (connected : Bool) (cs : List Connection) (port : PortRef) :
    (callsOf connected cs).count ⟨!connected, port⟩ = 0 := by
  refine List.count_eq_zero.2 fun hmem => ?_
  obtain ⟨c, -, hcall | hcall⟩ := mem_callsOf.1 hmem <;>
    exact absurd (congrArg Call.connected hcall) (by simp)

theorem otherEnd_eq (c : Connection) (node : NodeId) :
    c.otherEnd node = c.source ∨ c.otherEnd node = c.sink := by
  unfold Connection.otherEnd
  split
  · exact .inr rfl
  · exact .inl rfl

/-- A port on another node than the one that all connections are at is called once for each of the
connections at it, too, if only the other ends are called. -/
theorem count_map_otherEnd {node : NodeId} (hnode : port.node ≠ node)
    (hcs : ∀ c ∈ cs, c.source.node = node ∧ c.sink.node ≠ node ∨
      c.sink.node = node ∧ c.source.node ≠ node) :
    (cs.map fun c => Call.mk connected (c.otherEnd node)).count ⟨connected, port⟩ =
      cs.countP (·.Touches port) := by
  rw [List.count, List.countP_map]
  refine List.countP_congr fun c hc => ?_
  have hne : ∀ ref : PortRef, ref.node = node → ref ≠ port := fun ref h h' => hnode (h' ▸ h)
  rcases hcs c hc with ⟨hsource, -⟩ | ⟨hsink, hsource⟩
  · simp [Connection.otherEnd, Connection.Touches, hsource, hne c.source hsource]
  · simp [Connection.otherEnd, Connection.Touches, hsource, hne c.sink hsink]

end

/-! ## What calls do -/

variable [NodeState σ]

namespace Registry

/-- The state after its node type was called. -/
def call (r : Registry σ) (connected : Bool) (port : PortId) (s : σ) : σ :=
  (r.of? s).elim s (·.onEdge connected s port)

/-- The state of a node after these calls. Those at other nodes are no concern of it. -/
def calls (r : Registry σ) (m : NodeId) (s : σ) (calls : List Call) : σ :=
  (calls.filter (·.port.node = m)).foldl (fun s c => r.call c.connected c.port.port s) s

theorem calls_cons (r : Registry σ) (m : NodeId) (s : σ) (c : Call) (rest : List Call) :
    r.calls m s (c :: rest) =
      r.calls m (if c.port.node = m then r.call c.connected c.port.port s else s) rest := by
  by_cases hm : c.port.node = m <;> simp [calls, hm]

theorem calls_append (r : Registry σ) (m : NodeId) (s : σ) (calls more : List Call) :
    r.calls m s (calls ++ more) = r.calls m (r.calls m s calls) more := by
  rw [Registry.calls, Registry.calls, Registry.calls, List.filter_append, List.foldl_append]

end Registry

namespace Graph

variable {r : Registry σ} {connected : Bool} {g g₁ g₂ : Graph σ} {calls more : List Call}

/-- The nodes are the same ones, and the states are what these calls make of them. -/
def Called (r : Registry σ) (calls : List Call) (g g' : Graph σ) : Prop :=
  ∀ m, Option.Rel (fun n n' : Node σ => n'.state = r.calls m n.state calls)
    (g.node? m) (g'.node? m)

theorem Called.refl (r : Registry σ) (g : Graph σ) : Called r [] g g :=
  fun _ => rel_refl (R := fun n n' => n'.state = n.state) (fun _ => rfl) _

theorem Called.trans (h : Called r calls g g₁) (h' : Called r more g₁ g₂) :
    Called r (calls ++ more) g g₂ := by
  refine fun m => rel_comp (h m) (h' m) fun a b c hab hbc => ?_
  rw [hbc, hab, Registry.calls_append]

theorem called_of_each (h : g.Each (fun n n' => n'.state = n.state) g₁) : Called r [] g g₁ :=
  h.nodes

theorem called_runHook (r : Registry σ) (connected : Bool) (g : Graph σ) (port : PortRef) :
    Called r [⟨connected, port⟩] g (g.runHook r connected port).1 := by
  intro m
  have hself : ∀ s : σ, r.calls port.node s [⟨connected, port⟩] = r.call connected port.port s :=
    fun s => by simp [Registry.calls]
  by_cases hm : port.node = m
  · subst hm
    unfold runHook
    cases hn : g.node? port.node with
    | none =>
      rw [hn]
      exact .none
    | some n =>
      cases hd : r.of? n.state with
      | none =>
        have hget : r.definitions.get? n.typeName = none := hd
        simp only [hget, hn]
        refine .some ?_
        rw [hself, Registry.call, hd]
        rfl
      | some d =>
        have hget : r.definitions.get? n.typeName = some d := hd
        simp only [hget, node?_modify_self, hn, Option.map_some]
        refine .some ?_
        rw [hself, Registry.call, hd]
        rfl
  · rw [node?_runHook port hm]
    refine rel_refl (fun n => ?_) _
    simp [Registry.calls, hm]

theorem called_runHooks (r : Registry σ) (connected : Bool) (g : Graph σ) (changed : List NodeId)
    (ends : List PortRef) :
    Called r (ends.map (Call.mk connected)) g (g.runHooks r connected changed ends).1 := by
  induction ends generalizing g changed with
  | nil => exact .refl r g
  | cons port rest ih => exact (called_runHook r connected g port).trans (ih _ _)

theorem called_invalidateAll (r : Registry σ) (g : Graph σ) (ids : List NodeId) :
    Called r [] g (g.invalidateAll ids).1 :=
  called_of_each (each_invalidateAll Node.robust_state g ids)

theorem called_afterEdge (r : Registry σ) (connected : Bool) (g : Graph σ) (c : Connection) :
    Called r (callsOf connected [c]) g (g.afterEdge r connected c).1 := by
  have hhooks := called_runHooks r connected g [] [c.source, c.sink]
  rw [afterEdge]
  exact hhooks.trans (called_invalidateAll r _ _)

/-- The ends that are left of the connections of a removed node are called. -/
theorem called_afterRemoval (r : Registry σ) (node : NodeId) (g : Graph σ)
    (changed : List NodeId) (removed : List Connection) :
    Called r (removed.map fun c => ⟨false, c.otherEnd node⟩) g
      (g.afterRemoval r node changed removed).1 := by
  induction removed generalizing g changed with
  | nil => exact .refl r g
  | cons c rest ih =>
    have hhooks := called_runHooks r false g changed [c.otherEnd node]
    rw [afterRemoval_cons]
    generalize g.runHooks r false changed [c.otherEnd node] = x at hhooks ⊢
    by_cases hnode : c.source.node = node
    · simp only [hnode, beq_self_eq_true, if_true]
      exact (hhooks.trans (called_invalidateAll r x.1 [c.sink.node])).trans (ih _ _)
    · have hbeq : (c.source.node == node) = false := by simpa using hnode
      simp only [hbeq, Bool.false_eq_true, if_false]
      exact hhooks.trans (ih x.1 x.2)

/-- Both ends of each connection that is taken away are called. -/
theorem called_dropEdges {node : NodeId} {changed : List NodeId} {cs : List Connection}
    {g' : Graph σ} {changed' invalidated : List NodeId}
    (h : g.dropEdges r node changed cs = .ok (g', changed', invalidated)) :
    Called r (callsOf false cs) g g' := by
  induction cs generalizing g changed g' changed' invalidated with
  | nil =>
    cases h
    exact .refl r g
  | cons c rest ih =>
    rw [dropEdges] at h
    split at h
    · cases h
    · rename_i w hremove
      have hedge := called_afterEdge r false { g with wiring := w } c
      simp only at h
      split at h
      · cases h
      · rename_i g₂ changed₂ others hrest
        cases h
        exact Called.trans hedge (ih hrest)

end Graph

end Patchbay
