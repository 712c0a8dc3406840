import Patchbay.Proofs.Invalidation

/-!
# What the traversals do

A traversal that stops early is hard to reason about by its code. Here each one is described by
what it has done in the end: how often it came to each node, and that whatever was fresh when it
came there has been left behind with all its consumers visited too.

What is proved here:
  1. `Spreads.visited`, `visited_invalidate`, `visited_invalidateAll`: the account of an
     invalidation.
  2. `halted_blockBelow`: the account of a blocking.
-/

namespace Patchbay

open Relation

variable {σ : Type}

namespace Graph

variable {g g₁ g₂ : Graph σ}

theorem stale_of_isFresh_eq_false {id : NodeId} {n : Node σ} (h : g.isFresh id = false)
    (hn : g.node? id = some n) : n.stale = true := by
  simpa [isFresh, hn] using h

theorem isSome_modify (g : Graph σ) (id : NodeId) (f : Node σ → Node σ) (m : NodeId) :
    ((g.modify id f).node? m).isSome = (g.node? m).isSome := by
  rw [node?_modify]
  split <;> simp

/-- A change that keeps the flag of its node keeps those of all nodes. -/
theorem isFresh_modify (g : Graph σ) (id : NodeId) {f : Node σ → Node σ}
    (h : ∀ n, (f n).stale = n.stale) (m : NodeId) : (g.modify id f).isFresh m = g.isFresh m := by
  simp only [isFresh, node?_modify]
  split
  · cases g.node? m with
    | none => rfl
    | some n => simp only [Option.map_some, Option.any_some, h n]
  · rfl

def Closed (g : Graph σ) : Prop :=
  ∀ u v, g.wiring.Feeds u v → g.isFresh v = true → g.isFresh u = true

theorem Closed.transGen (h : g.Closed) {u v : NodeId} (huv : TransGen g.wiring.Feeds u v)
    (hv : g.isFresh v = true) : g.isFresh u = true := by
  induction huv using TransGen.head_induction_on with
  | single hfeeds => exact h _ _ hfeeds hv
  | head hfeeds _ ih => exact h _ _ hfeeds ih

/-- An invalidation that started from these nodes led from the first graph to the second, and
came so often to each node. -/
structure Visited (g : Graph σ) (ids : List NodeId) (visits : NodeId → Nat) (g' : Graph σ) :
    Prop where
  wiring : g'.wiring = g.wiring
  node? : ∀ m, g'.node? m = (g.node? m).map (Node.aged (visits m))
  starts : ∀ m ∈ ids, 0 < visits m
  onward : ∀ u v, g.isFresh u = true → 0 < visits u → g.wiring.Feeds u v → 0 < visits v
  reach : ∀ v, 0 < visits v → ∃ u ∈ ids, ReflTransGen g.wiring.Feeds u v

theorem Visited.nil (g : Graph σ) : Visited g [] (fun _ => 0) g where
  wiring := rfl
  node? m := (Node.map_aged_zero _).symm
  starts := by simp
  onward := by simp
  reach := by simp

theorem Visited.isFresh_right {ids : List NodeId} {visits : NodeId → Nat}
    (h : Visited g ids visits g₁) {m : NodeId} (hzero : visits m = 0) :
    g₁.isFresh m = g.isFresh m := by
  rw [isFresh, isFresh, h.node?, hzero]
  cases g.node? m <;> simp

theorem FreshPath.feeds {u v : NodeId} (h : g.FreshPath u v) (hw : g.wiring.Sound) :
    ReflTransGen g.wiring.Feeds u v := by
  induction h with
  | start => exact .refl
  | step _ hsupplies _ ih => exact ih.tail (hw.supplies_iff.1 hsupplies)

/-- In a sound wiring what was fresh has been left behind with all its consumers visited too. -/
theorem Spreads.visited {ids flipped : List NodeId} (h : Spreads g ids flipped g₁)
    (hw : g.wiring.Sound) : ∃ visits, Visited g ids visits g₁ := by
  refine ⟨_, h.wiring, h.node?, fun m hm => Nat.add_pos_left (List.count_pos_iff.2 hm) _,
    fun u v hu hpos hfeeds => ?_, fun v hpos => ?_⟩
  · have hflipped : u ∈ flipped := (h.visits_pos_iff hu).1 hpos
    exact Nat.add_pos_right _ (List.countP_pos_iff.2
      ⟨u, hflipped, decide_eq_true (hw.supplies_iff.2 hfeeds)⟩)
  · rcases Nat.add_pos_iff_pos_or_pos.1 hpos with hpos | hpos
    · exact ⟨v, List.count_pos_iff.1 hpos, .refl⟩
    · obtain ⟨u, hu, hsupplies⟩ := List.countP_pos_iff.1 hpos
      obtain ⟨x, hx, hpath⟩ := (h.exact u).1 hu
      exact ⟨x, hx, (hpath.feeds hw).tail (hw.supplies_iff.1 (of_decide_eq_true hsupplies))⟩

theorem visited_invalidate (g : Graph σ) (hw : g.wiring.Sound) (id : NodeId) :
    ∃ visits, Visited g [id] visits (g.invalidate id).1 :=
  (spreads_spread g [id]).visited hw

theorem visited_invalidateAll (g : Graph σ) (hw : g.wiring.Sound) (ids : List NodeId) :
    ∃ visits, Visited g ids visits (g.invalidateAll ids).1 :=
  (spreads_invalidateAll g ids).visited hw

/-! ## Blocking -/

/-- A blocking led from the first graph to the second, and stopped the nodes of a set that is
closed downstream. -/
structure Halted (g : Graph σ) (S : NodeId → Prop) [DecidablePred S] (g' : Graph σ) : Prop where
  wiring : g'.wiring = g.wiring
  node? : ∀ m, g'.node? m = if S m then (g.node? m).map Node.stopped else g.node? m
  onward : ∀ u v, S u → (g.node? u).isSome → g.wiring.Feeds u v → S v

/-- The account of a traversal that meets each node once: `S` are the nodes that were met and had
not been visited before. -/
structure Met (g : Graph σ) (visited queue S : List NodeId) (g' : Graph σ) : Prop where
  wiring : g'.wiring = g.wiring
  node? : ∀ m, g'.node? m = if m ∈ S then (g.node? m).map Node.stopped else g.node? m
  once : S.Nodup
  new : ∀ m ∈ S, m ∉ visited
  starts : ∀ m ∈ queue, m ∈ visited ∨ m ∈ S
  onward : ∀ u ∈ S, (g.node? u).isSome → ∀ v, g.wiring.Feeds u v → v ∈ visited ∨ v ∈ S
  reach : ∀ v ∈ S, ∃ u ∈ queue, ReflTransGen g.wiring.Feeds u v

namespace Met

variable {visited queue more S : List NodeId} {id : NodeId}

theorem skip (h : Met g visited queue S g₂) (hid : id ∈ visited) :
    Met g visited (id :: queue) S g₂ where
  wiring := h.wiring
  node? := h.node?
  once := h.once
  new := h.new
  starts := List.forall_mem_cons.2 ⟨.inl hid, h.starts⟩
  onward := h.onward
  reach v hv := by
    obtain ⟨u, hu, hpath⟩ := h.reach v hv
    exact ⟨u, List.mem_cons_of_mem _ hu, hpath⟩

/-- One visit, and the account of what comes after it. A node that is there queues what it
feeds. -/
theorem cons (h : Met g₁ (id :: visited) (queue ++ more) S g₂) (hid : id ∉ visited)
    (hwire : g₁.wiring = g.wiring)
    (hnode : ∀ m, g₁.node? m = if id = m then (g.node? m).map Node.stopped else g.node? m)
    (hmore : ∀ v ∈ more, g.wiring.Feeds id v)
    (hfeeds : (g.node? id).isSome → ∀ v, g.wiring.Feeds id v → v ∈ more) :
    Met g visited (id :: queue) (id :: S) g₂ := by
  have hnew : id ∉ S := fun hS => h.new id hS List.mem_cons_self
  -- What counted as visited for the rest of the traversal is visited or has just been met.
  have hmet : ∀ v, v ∈ id :: visited ∨ v ∈ S → v ∈ visited ∨ v ∈ id :: S := by
    intro v hv
    simp only [List.mem_cons] at hv ⊢
    tauto
  refine ⟨h.wiring.trans hwire, fun m => ?_, List.nodup_cons.2 ⟨hnew, h.once⟩, ?_, ?_, ?_,
    fun v hv => ?_⟩
  · rw [h.node?, hnode]
    by_cases he : id = m
    · subst he
      rw [if_neg hnew, if_pos rfl, if_pos List.mem_cons_self]
    · have hmem : m ∈ id :: S ↔ m ∈ S := by simp [Ne.symm he]
      simp only [if_neg he, hmem]
  · exact List.forall_mem_cons.2 ⟨hid, fun m hm hv => h.new m hm (List.mem_cons_of_mem _ hv)⟩
  · refine List.forall_mem_cons.2 ⟨.inr List.mem_cons_self, fun m hm => ?_⟩
    exact hmet m (h.starts m (List.mem_append_left _ hm))
  · intro u hu hsome v hf
    apply hmet
    by_cases he : id = u
    · subst he
      exact h.starts v (List.mem_append_right _ (hfeeds hsome v hf))
    · have hu : u ∈ S := (List.mem_cons.1 hu).resolve_left (Ne.symm he)
      exact h.onward u hu (by rwa [hnode, if_neg he]) v (by rwa [hwire])
  · rcases List.mem_cons.1 hv with rfl | hv
    · exact ⟨v, List.mem_cons_self, .refl⟩
    · obtain ⟨u, hu, hpath⟩ := h.reach v hv
      rw [hwire] at hpath
      rcases List.mem_append.1 hu with hu | hu
      · exact ⟨u, List.mem_cons_of_mem _ hu, hpath⟩
      · exact ⟨id, List.mem_cons_self, .head (hmore u hu) hpath⟩

end Met

/-- The account of a blocking traversal. The list names the nodes that were met, as far as they
exist. -/
theorem met_stopAll (g : Graph σ) (hw : g.wiring.Sound) (visited queue : List NodeId) :
    ∃ S, Met g visited queue S (g.stopAll visited queue).1 ∧
      (g.stopAll visited queue).2 = S.filter fun m => (g.node? m).isSome := by
  fun_induction stopAll g visited queue with
  | case1 g visited =>
    exact ⟨[], ⟨rfl, fun m => rfl, .nil, nofun, nofun, nofun, nofun⟩, rfl⟩
  | case2 g visited id queue hmem ih =>
    obtain ⟨S, h, hlist⟩ := ih hw
    exact ⟨S, h.skip (by simpa using hmem), hlist⟩
  | case3 g visited id queue hmem hnone ih =>
    obtain ⟨S, h, hlist⟩ := ih hw
    have h : Met g (id :: visited) (queue ++ []) S (g.stopAll (id :: visited) queue).1 := by
      rwa [List.append_nil]
    refine ⟨id :: S, h.cons (by simpa using hmem) rfl (fun m => ?_) (List.forall_mem_nil _) ?_, ?_⟩
    · split
      · rename_i e
        subst e
        rw [hnone]
        rfl
      · rfl
    · rw [hnone]
      exact nofun
    · rw [hlist, List.filter_cons, hnone]
      rfl
  | case4 g visited id queue hmem n hn g' touched heq ih =>
    obtain ⟨S, h, hlist⟩ := ih hw
    rw [heq] at h hlist
    refine ⟨id :: S, h.cons (by simpa using hmem) rfl (g.node?_modify id Node.stopped)
      (fun v => hw.mem_downstream.1) fun _ v => hw.mem_downstream.2, ?_⟩
    simp only [isSome_modify] at hlist
    rw [List.filter_cons, hn, hlist]
    rfl

/-- The account of a blocking: everything below the node was stopped, and nothing else. -/
theorem halted_blockBelow (g : Graph σ) (hw : g.wiring.Sound) (id : NodeId) :
    ∃ S : List NodeId, Halted g (· ∈ S) (g.blockBelow id).1 ∧
      (∀ v, g.wiring.Feeds id v → v ∈ S) ∧ ∀ v ∈ S, TransGen g.wiring.Feeds id v := by
  obtain ⟨S, h, -⟩ := met_stopAll g hw [] (g.wiring.downstream id)
  refine ⟨S, ⟨h.wiring, h.node?, fun u v hu hsome hf => ?_⟩, fun v hv => ?_, fun v hv => ?_⟩
  · exact (h.onward u hu hsome v hf).resolve_left List.not_mem_nil
  · exact (h.starts v (hw.mem_downstream.2 hv)).resolve_left List.not_mem_nil
  · obtain ⟨u, hu, hpath⟩ := h.reach v hv
    exact TransGen.head' (hw.mem_downstream.1 hu) hpath

end Graph

end Patchbay
