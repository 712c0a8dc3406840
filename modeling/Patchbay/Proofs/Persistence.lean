import Patchbay.Engine.Edit
import Patchbay.Engine.Run
import Patchbay.Proofs.Steady

/-!
# What reactions do to the nodes

An invalidation, the stop sign of a blocked node and the reactions of node types to connections
change many nodes, but each node in one of four ways, and they neither add nodes nor take them
away. Whatever these four ways keep of a node is kept of every node by all that is built from
them. Nothing is assumed of the node types here.

What is proved here:
  1. `Graph.each_invalidateAll`, `Graph.each_stopAll`, `Graph.each_afterRemoval` and the others of
     this kind: what an edit makes of the nodes beside the one that it is about.
  2. `Node.robust_abides`: among what is kept are the claim, the number of the last claim and the
     mark of a stale node, and epochs do not go back.
  3. `Node.robust_knows`: under a registry that covers its states so is a known type.
-/

namespace Patchbay

variable {σ : Type}

namespace Node

/-- The relation survives whatever a traversal does to a node. -/
structure Robust (R : Node σ → Node σ → Prop) : Prop where
  refl : ∀ n, R n n
  trans : ∀ a b c, R a b → R b c → R a c
  touched : ∀ n, R n n.touched
  invalidated : ∀ n, R n n.invalidated
  stopped : ∀ n, R n n.stopped

/-- The relation survives the reactions of the node types as well. -/
structure Reactive [NodeState σ] (r : Registry σ) (R : Node σ → Node σ → Prop) : Prop
    extends Robust R where
  hook : ∀ (n : Node σ) d connected port, r.of? n.state = some d →
    R n { n with state := d.onEdge connected n.state port }

end Node

namespace Graph

variable {R : Node σ → Node σ → Prop} {g g₁ g₂ : Graph σ}

/-- The nodes are the same ones, connected as they were, and the relation holds of each. -/
structure Each (R : Node σ → Node σ → Prop) (g g' : Graph σ) : Prop where
  wiring : g'.wiring = g.wiring
  nodes : ∀ m, Option.Rel R (g.node? m) (g'.node? m)

theorem rel_refl (hR : ∀ n, R n n) (x : Option (Node σ)) : Option.Rel R x x := by
  cases x with
  | none => exact .none
  | some n => exact .some (hR n)

theorem rel_comp {S T : Node σ → Node σ → Prop} {x y z : Option (Node σ)} (h : Option.Rel R x y)
    (h' : Option.Rel S y z) (hRS : ∀ a b c, R a b → S b c → T a c) : Option.Rel T x z := by
  cases h with
  | none =>
    cases h' with
    | none => exact .none
  | some h => cases h' with
    | some h' => exact .some (hRS _ _ _ h h')

theorem rel_trans (hR : ∀ a b c, R a b → R b c → R a c) {x y z : Option (Node σ)}
    (h : Option.Rel R x y) (h' : Option.Rel R y z) : Option.Rel R x z :=
  rel_comp h h' hR

theorem rel_mono {R' : Node σ → Node σ → Prop} {x y : Option (Node σ)} (h : Option.Rel R x y)
    (hR : ∀ a b, R a b → R' a b) : Option.Rel R' x y := by
  cases h with
  | none => exact .none
  | some h => exact .some (hR _ _ h)

theorem exists_of_rel {m : NodeId} {n : Node σ} (h : Option.Rel R (g.node? m) (g₁.node? m))
    (hn : g.node? m = some n) : ∃ n', g₁.node? m = some n' ∧ R n n' := by
  rw [hn] at h
  cases hn' : g₁.node? m with
  | none =>
    rw [hn'] at h
    cases h
  | some n' =>
    rw [hn'] at h
    cases h with
    | some hR => exact ⟨n', rfl, hR⟩

theorem exists_of_rel' {m : NodeId} {n' : Node σ} (h : Option.Rel R (g.node? m) (g₁.node? m))
    (hn' : g₁.node? m = some n') : ∃ n, g.node? m = some n ∧ R n n' := by
  rw [hn'] at h
  cases hn : g.node? m with
  | none =>
    rw [hn] at h
    cases h
  | some n =>
    rw [hn] at h
    cases h with
    | some hR => exact ⟨n, rfl, hR⟩

/-- What the relation keeps of two nodes is the same of both graphs. -/
theorem map_eq_of_rel {α : Type} {f : Node σ → α} {x y : Option (Node σ)} (h : Option.Rel R x y)
    (hf : ∀ a b, R a b → f b = f a) : y.map f = x.map f := by
  cases h with
  | none => rfl
  | some h => exact congrArg some (hf _ _ h)

theorem Each.refl (hR : Node.Robust R) (g : Graph σ) : g.Each R g :=
  ⟨rfl, fun _ => rel_refl hR.refl _⟩

theorem Each.trans (hR : Node.Robust R) (h : g.Each R g₁) (h' : g₁.Each R g₂) : g.Each R g₂ :=
  ⟨h'.wiring.trans h.wiring, fun m => rel_trans hR.trans (h.nodes m) (h'.nodes m)⟩

theorem rel_modify (hR : ∀ n, R n n) {id : NodeId} {f : Node σ → Node σ}
    (h : ∀ n, g.node? id = some n → R n (f n)) (m : NodeId) :
    Option.Rel R (g.node? m) ((g.modify id f).node? m) := by
  rw [node?_modify]
  split
  · rename_i hm
    subst hm
    cases hn : g.node? id with
    | none => exact .none
    | some n => exact .some (h n hn)
  · exact rel_refl hR _

theorem each_modify (hR : Node.Robust R) {id : NodeId} {f : Node σ → Node σ}
    (h : ∀ n, g.node? id = some n → R n (f n)) : g.Each R (g.modify id f) :=
  ⟨rfl, rel_modify hR.refl h⟩

/-! ## Traversals -/

theorem each_spread (hR : Node.Robust R) (g : Graph σ) (queue : List NodeId) :
    g.Each R (g.spread queue).1 := by
  fun_induction spread g queue with
  | case1 g => exact .refl hR g
  | case2 g id queue hnone ih => exact ih
  | case3 g id queue n hn hstale ih => exact (each_modify hR fun n _ => hR.touched n).trans hR ih
  | case4 g id queue n hn hstale g' flipped heq ih =>
    rw [heq] at ih
    exact (each_modify hR fun n _ => hR.invalidated n).trans hR ih

theorem each_invalidate (hR : Node.Robust R) (g : Graph σ) (id : NodeId) :
    g.Each R (g.invalidate id).1 :=
  g.each_spread hR [id]

theorem each_invalidateAll (hR : Node.Robust R) (g : Graph σ) (ids : List NodeId) :
    g.Each R (g.invalidateAll ids).1 := by
  induction ids generalizing g with
  | nil => exact .refl hR g
  | cons id rest ih => exact (g.each_invalidate hR id).trans hR (ih (g.invalidate id).1)

theorem each_stopAll (hR : Node.Robust R) (g : Graph σ) (visited queue : List NodeId) :
    g.Each R (g.stopAll visited queue).1 := by
  fun_induction stopAll g visited queue with
  | case1 g visited => exact .refl hR g
  | case2 g visited id queue hmem ih => exact ih
  | case3 g visited id queue hmem hnone ih => exact ih
  | case4 g visited id queue hmem n hn g' touched heq ih =>
    rw [heq] at ih
    exact (each_modify hR fun n _ => hR.stopped n).trans hR ih

/-! ## Reactions -/

section

variable [NodeState σ] {r : Registry σ}

theorem each_runHook (hR : Node.Reactive r R) (connected : Bool) (g : Graph σ) (port : PortRef) :
    g.Each R (g.runHook r connected port).1 := by
  unfold runHook
  split
  · exact .refl hR.toRobust g
  · rename_i n hn
    split
    · exact .refl hR.toRobust g
    · rename_i d hd
      refine each_modify hR.toRobust fun n' hn' => ?_
      rw [hn] at hn'
      cases hn'
      exact hR.hook n d connected port.port hd

theorem each_runHooks (hR : Node.Reactive r R) (connected : Bool) (g : Graph σ)
    (changed : List NodeId) (ports : List PortRef) :
    g.Each R (g.runHooks r connected changed ports).1 := by
  induction ports generalizing g changed with
  | nil => exact .refl hR.toRobust g
  | cons port rest ih => exact (each_runHook hR connected g port).trans hR.toRobust (ih _ _)

theorem each_afterEdge (hR : Node.Reactive r R) (connected : Bool) (g : Graph σ)
    (c : Connection) : g.Each R (g.afterEdge r connected c).1 := by
  have hhooks := each_runHooks hR connected g [] [c.source, c.sink]
  rw [afterEdge]
  exact hhooks.trans hR.toRobust (each_invalidateAll hR.toRobust _ _)

theorem each_afterRemoval (hR : Node.Reactive r R) (node : NodeId) (g : Graph σ)
    (changed : List NodeId) (removed : List Connection) :
    g.Each R (g.afterRemoval r node changed removed).1 := by
  induction removed generalizing g changed with
  | nil => exact .refl hR.toRobust g
  | cons c rest ih =>
    rw [afterRemoval]
    by_cases hnode : c.source.node = node
    · simp only [hnode, beq_self_eq_true, if_true]
      have hhooks := each_runHooks hR false g changed [c.sink]
      have htold := hhooks.trans hR.toRobust (each_invalidate hR.toRobust _ c.sink.node)
      exact htold.trans hR.toRobust (ih _ _)
    · have hbeq : (c.source.node == node) = false := by simpa using hnode
      simp only [hbeq, Bool.false_eq_true, if_false]
      exact (each_runHooks hR false g changed _).trans hR.toRobust (ih _ _)

theorem rel_dropEdges (hR : Node.Reactive r R) {node : NodeId} {changed : List NodeId}
    {cs : List Connection} {g' : Graph σ} {changed' invalidated : List NodeId}
    (h : g.dropEdges r node changed cs = .ok (g', changed', invalidated)) (m : NodeId) :
    Option.Rel R (g.node? m) (g'.node? m) := by
  induction cs generalizing g changed g' changed' invalidated with
  | nil =>
    cases h
    exact rel_refl hR.refl _
  | cons c rest ih =>
    rw [dropEdges] at h
    split at h
    · cases h
    · rename_i w hremove
      have hedge := each_afterEdge hR false { g with wiring := w } c
      simp only at h
      split at h
      · cases h
      · rename_i g₂ changed₂ others hrest
        cases h
        exact rel_trans hR.trans (hedge.nodes m) (ih hrest)

end

end Graph

/-! ## What is kept -/

namespace Node

/-- One node at two times: its claim is as it was, and what it was told it has not forgotten. -/
structure Abides (n n' : Node σ) : Prop where
  id : n'.id = n.id
  run : n'.run = n.run
  claimed : n'.claimed = n.claimed
  epoch : n.epoch ≤ n'.epoch
  stale : n.stale = true → n'.stale = true

theorem Abides.refl (n : Node σ) : n.Abides n := ⟨rfl, rfl, rfl, Nat.le_refl _, fun h => h⟩

theorem Abides.trans {a b c : Node σ} (h : a.Abides b) (h' : b.Abides c) : a.Abides c where
  id := h'.id.trans h.id
  run := h'.run.trans h.run
  claimed := h'.claimed.trans h.claimed
  epoch := Nat.le_trans h.epoch h'.epoch
  stale hs := h'.stale (h.stale hs)

theorem robust_abides : Robust (Abides (σ := σ)) where
  refl := .refl
  trans _ _ _ h h' := h.trans h'
  touched _ := ⟨rfl, rfl, rfl, Nat.le_succ _, fun h => h⟩
  invalidated _ := ⟨rfl, rfl, rfl, Nat.le_succ _, fun _ => rfl⟩
  stopped _ := ⟨rfl, rfl, rfl, Nat.le_succ _, fun _ => rfl⟩

theorem robust_stale : Robust fun n n' : Node σ => n.stale = true → n'.stale = true where
  refl _ h := h
  trans _ _ _ h h' hs := h' (h hs)
  touched n := (robust_abides.touched n).stale
  invalidated n := (robust_abides.invalidated n).stale
  stopped n := (robust_abides.stopped n).stale

theorem robust_any : Robust fun _ _ : Node σ => True :=
  ⟨fun _ => trivial, fun _ _ _ _ _ => trivial, fun _ => trivial, fun _ => trivial, fun _ => trivial⟩

theorem robust_state : Robust fun n n' : Node σ => n'.state = n.state where
  refl _ := rfl
  trans _ _ _ h h' := h'.trans h
  touched _ := rfl
  invalidated _ := rfl
  stopped _ := rfl

variable [NodeState σ] (r : Registry σ)

theorem reactive_abides : Reactive r (Abides (σ := σ)) where
  toRobust := robust_abides
  hook _ _ _ _ _ := ⟨rfl, rfl, rfl, Nat.le_refl _, fun h => h⟩

end Node

section

variable [NodeState σ]

def Registry.Knows (r : Registry σ) (s : σ) : Prop := ∃ d, r.of? s = some d

/-- Node types are registered together: no reaction and no result leads from a state of a type that
is registered to one of a type that is not, and equal states are both of registered types or
neither is. -/
structure Registry.Covers (r : Registry σ) : Prop where
  hook : ∀ d s connected port, r.of? s = some d → r.Knows (d.onEdge connected s port)
  result : ∀ d s t outputs, r.of? t = some d → r.Knows s → r.Knows (d.applyResult s outputs)
  equal : ∀ s t, (s == t) = true → r.Knows t → r.Knows s

/-- If no state is of a type that is not registered, none is reached. -/
theorem Registry.covers_of_knows {r : Registry σ} (h : ∀ s, r.Knows s) : r.Covers where
  hook _ _ _ _ _ := h _
  result _ _ _ _ _ _ := h _
  equal _ _ _ _ := h _

theorem Node.reactive_knows {r : Registry σ} (hr : r.Covers) :
    Node.Reactive r fun n n' => r.Knows n.state → r.Knows n'.state where
  refl _ h := h
  trans _ _ _ h h' hknows := h' (h hknows)
  touched _ h := h
  invalidated _ h := h
  stopped _ h := h
  hook n d connected port hd _ := hr.hook d n.state connected port hd

end

end Patchbay
