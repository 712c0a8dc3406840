import Patchbay.Mirror
import Patchbay.Proofs.Edits

/-!
# What an operation reports of the nodes

Every operation hands on two lists while it works: the nodes whose states changed, and the nodes
that became stale. `Told` says that the lists are right, and `trans` that they stay right when
work is put together: the second list may be appended, since what became stale in the first part
cannot become stale again in the second.

What is proved here: for each part of an edit, that what it lists is what it did.
-/

namespace Patchbay

variable {σ : Type} [NodeState σ]

def Node.face (n : Node σ) : Face := ⟨n.typeName, n.stale⟩

namespace Graph

variable {r : Registry σ} {g g₁ g₂ : Graph σ} {a b : List NodeId} {x y : List NodeId}

def face? (g : Graph σ) (id : NodeId) : Option Face := (g.node? id).map Node.face

/-- From one graph to another the listed nodes became stale, each once, and no other flag
changed; a state changed only if its node is listed. -/
structure Told (changed flipped : List NodeId) (g g' : Graph σ) : Prop where
  nodup : flipped.Nodup
  fresh : ∀ m ∈ flipped, g.isFresh m = true
  face : ∀ m, g'.face? m =
    (g.face? m).map fun f => { f with stale := f.stale || decide (m ∈ flipped) }
  state : ∀ m n n', g.node? m = some n → g'.node? m = some n' →
    Alike n.state n'.state ∨ m ∈ changed

theorem isFresh_face (g : Graph σ) (m : NodeId) : g.isFresh m = (g.face? m).any (!·.stale) := by
  rw [isFresh, face?]
  cases g.node? m <;> rfl

theorem face?_eq_some {m : NodeId} {f : Face} :
    g.face? m = some f ↔ ∃ n, g.node? m = some n ∧ n.face = f := by
  rw [face?, Option.map_eq_some_iff]

namespace Told

theorem refl (g : Graph σ) : Told [] [] g g where
  nodup := .nil
  fresh := nofun
  face m := by cases g.face? m <;> simp
  state m n n' hn hn' := by
    rw [hn] at hn'
    cases hn'
    exact .inl (.refl _)

theorem isFresh_iff (h : Told a x g g₁) {m : NodeId} :
    g₁.isFresh m = true ↔ g.isFresh m = true ∧ m ∉ x := by
  rw [isFresh_face, isFresh_face, h.face]
  cases g.face? m <;> simp

theorem exists_node (h : Told a x g g₁) {m : NodeId} {n : Node σ} (hn : g.node? m = some n) :
    ∃ n₁, g₁.node? m = some n₁ := by
  have hface := h.face m
  rw [face?, face?, hn, Option.map_some, Option.map_some] at hface
  obtain ⟨n₁, hn₁, -⟩ := Option.map_eq_some_iff.1 hface
  exact ⟨n₁, hn₁⟩

theorem exists_before (h : Told a x g g₁) {m : NodeId} {n₁ : Node σ}
    (hn₁ : g₁.node? m = some n₁) : ∃ n, g.node? m = some n := by
  have hface := h.face m
  rw [face?, hn₁, Option.map_some] at hface
  obtain ⟨f, hf, -⟩ := Option.map_eq_some_iff.1 hface.symm
  obtain ⟨n, hn, -⟩ := face?_eq_some.1 hf
  exact ⟨n, hn⟩

theorem stale_iff (h : Told a x g g₁) {m : NodeId} {n n₁ : Node σ} (hn : g.node? m = some n)
    (hn₁ : g₁.node? m = some n₁) : n₁.stale = true ↔ n.stale = true ∨ m ∈ x := by
  have hface := h.face m
  rw [face?, face?, hn, hn₁, Option.map_some, Option.map_some, Option.map_some] at hface
  have hstale : n₁.stale = (n.stale || decide (m ∈ x)) :=
    congrArg Face.stale (Option.some.inj hface)
  rw [hstale, Bool.or_eq_true, decide_eq_true_iff]

theorem trans (h : Told a x g g₁) (h' : Told b y g₁ g₂) : Told (a ++ b) (x ++ y) g g₂ where
  nodup := by
    -- What the second part lists was fresh after the first, so the first has not listed it.
    refine List.nodup_append'.2 ⟨h.nodup, h'.nodup, fun m hx hy => ?_⟩
    exact (h.isFresh_iff.1 (h'.fresh m hy)).2 hx
  fresh m hm := by
    rcases List.mem_append.1 hm with hx | hy
    · exact h.fresh m hx
    · exact (h.isFresh_iff.1 (h'.fresh m hy)).1
  face m := by
    rw [h'.face, h.face, Option.map_map]
    congr 1
    funext f
    simp [Function.comp, Bool.or_assoc]
  state m n n₂ hn hn₂ := by
    obtain ⟨n₁, hn₁⟩ := h.exists_node hn
    rcases h.state m n n₁ hn hn₁ with hs | hm
    · rcases h'.state m n₁ n₂ hn₁ hn₂ with hs' | hm
      · exact .inl (hs.trans hs')
      · exact .inr (List.mem_append_right _ hm)
    · exact .inr (List.mem_append_left _ hm)

theorem mono (h : Told a x g g₁) (hab : a ⊆ b) : Told b x g g₁ :=
  ⟨h.nodup, h.fresh, h.face, fun m n n' hn hn' => (h.state m n n' hn hn').imp_right (hab ·)⟩

theorem modify {id : NodeId} {f : Node σ → Node σ}
    (hface : ∀ n, g.node? id = some n → (f n).face = n.face)
    (hstate : ∀ n, g.node? id = some n → Alike n.state (f n).state ∨ id ∈ a) :
    Told a [] g (g.modify id f) where
  nodup := .nil
  fresh := nofun
  face m := by
    rw [face?, face?, node?_modify]
    split
    · rename_i he
      subst he
      cases hn : g.node? id with
      | none => rfl
      | some n => simp [hface n hn]
    · cases g.node? m <;> simp
  state m n n' hn hn' := by
    rw [node?_modify] at hn'
    split at hn'
    · rename_i he
      subst he
      rw [hn, Option.map_some] at hn'
      cases hn'
      exact hstate n hn
    · rw [hn] at hn'
      cases hn'
      exact .inl (.refl _)

theorem invalidated {id : NodeId} (h : g.isFresh id = true) :
    Told [] [id] g (g.modify id Node.invalidated) where
  nodup := List.nodup_singleton id
  fresh m hm := by
    rw [List.mem_singleton.1 hm]
    exact h
  face m := by
    rw [face?, face?, node?_modify]
    by_cases he : id = m
    · subst he
      cases g.node? id <;> simp [Node.face, Node.invalidated, Node.touched, Node.typeName]
    · have hm : m ≠ id := Ne.symm he
      cases g.node? m <;> simp [he, hm]
  state m n n' hn hn' := by
    rw [node?_modify, hn] at hn'
    split at hn'
    all_goals
      cases hn'
      exact .inl (.refl _)

end Told

/-! ## Invalidation -/

theorem told_spread (g : Graph σ) (queue : List NodeId) :
    Told [] (g.spread queue).2 g (g.spread queue).1 := by
  fun_induction spread g queue with
  | case1 g => exact .refl g
  | case2 g id queue hnone ih => exact ih
  | case3 g id queue n hn hstale ih =>
    have htouch : Told [] [] g (g.modify id Node.touched) :=
      .modify (fun _ _ => rfl) fun _ _ => .inl (.refl _)
    exact htouch.trans ih
  | case4 g id queue n hn hstale g' flipped heq ih =>
    rw [heq] at ih
    have hfresh : g.isFresh id = true := Graph.isFresh_iff.2 ⟨n, hn, by simpa using hstale⟩
    exact (Told.invalidated hfresh).trans ih

theorem told_invalidate (g : Graph σ) (id : NodeId) :
    Told [] (g.invalidate id).2 g (g.invalidate id).1 :=
  told_spread g [id]

theorem told_invalidateAll (g : Graph σ) (ids : List NodeId) :
    Told [] (g.invalidateAll ids).2 g (g.invalidateAll ids).1 := by
  induction ids generalizing g with
  | nil => exact .refl g
  | cons id rest ih => exact (told_invalidate g id).trans (ih (g.invalidate id).1)

theorem Told.visits_pos (h : Told a x g g₁) {ids : List NodeId} {visits : NodeId → Nat}
    (hv : Visited g ids visits g₁) {m : NodeId} (hm : m ∈ x) : 0 < visits m := by
  apply Nat.pos_of_ne_zero
  intro hzero
  have hfresh := h.fresh m hm
  rw [← hv.isFresh_right hzero] at hfresh
  exact (h.isFresh_iff.1 hfresh).2 hm

theorem told_halted {S : NodeId → Prop} [DecidablePred S] (h : Halted g S g₁)
    (hstale : ∀ m, S m → g.isFresh m = false) : Told [] [] g g₁ where
  nodup := .nil
  fresh := nofun
  face m := by
    rw [face?, face?, h.node?]
    split
    · rename_i hS
      have hnot := hstale m hS
      cases hn : g.node? m with
      | none => rfl
      | some n =>
        have hs : n.stale = true := stale_of_isFresh_eq_false hnot hn
        simp [Node.face, Node.stopped, Node.invalidated, Node.touched, Node.typeName, hs]
    · cases g.node? m <;> simp
  state m n n' hn hn' := by
    rw [h.node?, hn] at hn'
    split at hn'
    all_goals
      cases hn'
      exact .inl (.refl _)

omit [NodeState σ] in
/-- A visit leaves staleness closed: what feeds a node that is still fresh was not visited. -/
theorem Closed.visited (h : g.Closed) {ids : List NodeId} {visits : NodeId → Nat}
    (hv : Visited g ids visits g₁) : g₁.Closed := by
  intro u v huv hfresh
  rw [hv.wiring] at huv
  have hunvisited : ∀ m, g₁.isFresh m = true → visits m = 0 := by
    intro m hm
    obtain ⟨n₁, hn₁, hs⟩ := Graph.isFresh_iff.1 hm
    rw [hv.node?, Option.map_eq_some_iff] at hn₁
    obtain ⟨n, -, rfl⟩ := hn₁
    by_contra hne
    rw [Node.stale_aged (Nat.pos_of_ne_zero hne)] at hs
    cases hs
  have hvzero := hunvisited v hfresh
  rw [hv.isFresh_right hvzero] at hfresh
  have hu := h u v huv hfresh
  have huzero : visits u = 0 := by
    by_contra hne
    have hpos := hv.onward u v hu (Nat.pos_of_ne_zero hne) huv
    omega
  rw [hv.isFresh_right huzero]
  exact hu

/-! ## Reactions -/

theorem told_runHook (hr : r.Steady) (connected : Bool) (g : Graph σ) (port : PortRef)
    (hflag : (g.runHook r connected port).2 = true → port.node ∈ a) :
    Told a [] g (g.runHook r connected port).1 := by
  unfold runHook at hflag ⊢
  cases hn : g.node? port.node with
  | none => exact (Told.refl g).mono (List.nil_subset _)
  | some n =>
    simp only [hn] at hflag ⊢
    cases hd : r.definitions.get? n.typeName with
    | none => exact (Told.refl g).mono (List.nil_subset _)
    | some d =>
      simp only [hd] at hflag ⊢
      have hshape := hr.hook d n.state connected port.port hd
      refine .modify (fun n' hn' => ?_) (fun n' hn' => ?_)
      · rw [hn] at hn'
        cases hn'
        exact congrArg (Face.mk · n.stale) hshape.type
      · rw [hn] at hn'
        cases hn'
        cases he : d.onEdge connected n.state port.port == n.state with
        | true => exact .inl (.inr (BEq.symm he))
        | false => exact .inr (hflag (by rw [he]; rfl))

theorem told_runHooks (hr : r.Steady) (connected : Bool) (g : Graph σ)
    (changed : List NodeId) (ports : List PortRef) :
    Told (g.runHooks r connected changed ports).2 [] g
      (g.runHooks r connected changed ports).1 := by
  induction ports generalizing g changed with
  | nil => exact (Told.refl g).mono (List.nil_subset _)
  | cons port rest ih =>
    have hrest := ih (g.runHook r connected port).1
      (if (g.runHook r connected port).2 then addOnce changed port.node else changed)
    obtain ⟨-, hsub⟩ := follows_runHooks hr connected (g.runHook r connected port).1
      (if (g.runHook r connected port).2 then addOnce changed port.node else changed) rest
    rw [runHooks]
    refine ((told_runHook hr connected g port fun hflag => hsub ?_).trans hrest).mono fun m hm => ?_
    · rw [if_pos hflag, mem_addOnce]
      exact .inr rfl
    · exact (List.mem_append.1 hm).elim id id

theorem told_afterEdge (hr : r.Steady) (connected : Bool) (g : Graph σ) (c : Connection) :
    Told (g.afterEdge r connected c).2.1 (g.afterEdge r connected c).2.2 g
      (g.afterEdge r connected c).1 := by
  have hhooks := told_runHooks hr connected g [] [c.source, c.sink]
  have hall := hhooks.trans (told_invalidateAll (g.runHooks r connected [] [c.source, c.sink]).1
    (c.sink.node :: (g.runHooks r connected [] [c.source, c.sink]).2))
  rw [List.append_nil, List.nil_append] at hall
  exact hall

theorem told_afterRemoval (hr : r.Steady) (node : NodeId) (g : Graph σ)
    (hw : g.wiring.Sound) (changed : List NodeId) (removed : List Connection) :
    Told (g.afterRemoval r node changed removed).2.1
      (g.afterRemoval r node changed removed).2.2 g (g.afterRemoval r node changed removed).1 := by
  induction removed generalizing g changed with
  | nil => exact (Told.refl g).mono (List.nil_subset _)
  | cons c rest ih =>
    have hhooks := told_runHooks hr false g changed
      [if (c.source.node == node) = true then c.sink else c.source]
    obtain ⟨hfollows, -⟩ := follows_runHooks hr false g changed
      [if (c.source.node == node) = true then c.sink else c.source]
    rw [afterRemoval]
    generalize g.runHooks r false changed
      [if (c.source.node == node) = true then c.sink else c.source] = z at hhooks hfollows
    have hw' : z.1.wiring.Sound := by rwa [hfollows.wiring]
    cases hnode : c.source.node == node with
    | true =>
      have hw'' : (z.1.invalidate c.sink.node).1.wiring.Sound := by
        rwa [(follows_invalidate r z.1 hw' c.sink.node).wiring]
      obtain ⟨-, hsub⟩ := follows_afterRemoval hr node (z.1.invalidate c.sink.node).1 hw'' z.2 rest
      have hrest := ih (z.1.invalidate c.sink.node).1 hw'' z.2
      refine ((hhooks.trans (told_invalidate z.1 c.sink.node)).trans hrest).mono fun m hm => ?_
      rw [List.append_nil, List.mem_append] at hm
      exact hm.elim (hsub ·) id
    | false =>
      obtain ⟨-, hsub⟩ := follows_afterRemoval hr node z.1 hw' z.2 rest
      refine (hhooks.trans (ih z.1 hw' z.2)).mono fun m hm => ?_
      rw [List.mem_append] at hm
      exact hm.elim (hsub ·) id

theorem mem_foldl_addOnce {changed l : List NodeId} {m : NodeId} :
    m ∈ l.foldl addOnce changed ↔ m ∈ changed ∨ m ∈ l := by
  induction l generalizing changed with
  | nil => simp
  | cons k rest ih => simp only [List.foldl_cons, ih, mem_addOnce, List.mem_cons, or_assoc]

/-- Who looks at nodes only does not see a change of the wiring. -/
theorem Told.rewire {w : Wiring} (h : Told a x ⟨g.nodes, w⟩ g₂) : Told a x g g₂ :=
  ⟨h.nodup, h.fresh, h.face, h.state⟩

/-- The nodes whose states changed are listed without the node itself, whose change is known. -/
theorem told_dropEdges (hr : r.Steady) {node : NodeId} {changed : List NodeId}
    {cs : List Connection} {g' : Graph σ} {changed' invalidated : List NodeId}
    (h : g.dropEdges r node changed cs = .ok (g', changed', invalidated)) :
    Told (node :: changed') invalidated g g' ∧ changed ⊆ changed' := by
  induction cs generalizing g changed g' changed' invalidated with
  | nil =>
    cases h
    exact ⟨(Told.refl g).mono (List.nil_subset _), List.Subset.refl _⟩
  | cons c rest ih =>
    rw [dropEdges] at h
    split at h
    · cases h
    · rename_i w hremove
      have hedge := told_afterEdge hr false { g with wiring := w } c
      simp only at h
      split at h
      · cases h
      · rename_i g₂ changed₂ others hrest
        cases h
        obtain ⟨htold, hsub⟩ := ih hrest
        refine ⟨(hedge.trans htold).rewire.mono fun m hm => ?_, fun m hm => ?_⟩
        · rcases List.mem_append.1 hm with hm | hm
          · by_cases hnode : m = node
            · exact hnode ▸ List.mem_cons_self
            · refine List.mem_cons_of_mem _ (hsub (mem_foldl_addOnce.2 (.inr ?_)))
              exact List.mem_filter.2 ⟨hm, by simpa using hnode⟩
          · exact hm
        · exact hsub (mem_foldl_addOnce.2 (.inl hm))

end Graph

end Patchbay
